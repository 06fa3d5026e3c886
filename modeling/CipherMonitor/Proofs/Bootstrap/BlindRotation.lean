import CipherMonitor.Bootstrap.BlindRotation
import CipherMonitor.Proofs.Ggsw.ExternalProduct
import CipherMonitor.Proofs.Poly.Bound
import CipherMonitor.Proofs.Poly.Rotation
import CipherMonitor.Proofs.Torus.Circle

/-!
# Blind rotation computes the sign

Every key turns the accumulator by its word of the mask when its secret coefficient is one, and adds
the noise of one external product.  The turns add up to the phase, rounded to steps of the circle, so
a constant test polynomial shows the half of the circle that the phase is in.

* `BlindRotationKey.Encrypts` — what the keys are expected to do.
* `RotatedBy` — the invariant of the accumulator; `RotatedBy.step`, `RotatedBy.foldl`.
* `BlindRotationKey.turn` — the number of steps by which the test polynomial is turned.
* `BlindRotationKey.exists_rotate` — blind rotation succeeds, with a bounded noise.
* `BlindRotationKey.gap_turn_le` — the turn is the phase up to the rounding of its words.
* `BlindRotationKey.gate_sign` — the sign of phases that are away from both edges.
-/

namespace CipherMonitor

open CipherMonitor.Poly Torus

/-! ### The accumulator -/

/-- The phase of the accumulator is the test polynomial times `X ^ (-u)`, up to noise of at most `e`
in every coefficient. -/
structure RotatedBy (s : GlweSecret) (test : TorusPoly 32) (u : ℤ) (e : ℕ) (acc : Glwe 32) : Prop where
  ofDegree : acc.OfDegree s.degree
  close : ∀ i : ℕ, i < s.degree → distance ((acc.phase s).coeff i) (test.entry (i + u)) ≤ e

namespace RotatedBy

variable {t : Fourier} {s : GlweSecret} {test : TorusPoly 32} {u : ℤ} {e eps : ℕ} {acc : Glwe 32}
  {key : PreparedGgsw} {d : ℤ}

/-- Noise of coefficients is noise of all entries. -/
theorem close_entry (h : RotatedBy s test u e acc) (htest : test.size = s.degree)
    (hpos : 0 < s.degree) (i : ℤ) : distance ((acc.phase s).entry i) (test.entry (i + u)) ≤ e := by
  have hphase := antiperiodic_entry (Glwe.size_phase (s := s) h.ofDegree) hpos
  have hturned := antiperiodic_entry htest hpos
  refine forall_of_periodic (P := fun i => distance ((acc.phase s).entry i) (test.entry (i + u)) ≤ e)
    hpos (fun j => ?_) (fun j hj => ?_) i
  · beta_reduce
    rw [hphase, add_right_comm, hturned, distance_neg]
  · rw [entry_natCast (by rwa [Glwe.size_phase h.ofDegree])]
    exact h.close j hj

/-- The rotation starts with the turn of the body, without noise. -/
theorem trivial (htest : test.size = s.degree) (body : ℕ) :
    RotatedBy s test body 0 (Glwe.trivial (test.mulXPow (-body))) := by
  have hsize : (test.mulXPow (-body)).size = s.degree := (size_mulXPow _ _).trans htest
  refine ⟨Glwe.ofDegree_trivial hsize, fun i hi => ?_⟩
  rw [Glwe.coeff_phase_trivial rfl hsize hi, coeff_mulXPow_eq_entry _ _ (htest ▸ hi), sub_neg_eq_add,
    distance_self]

/-- One key turns the accumulator by its word if its coefficient is one. -/
theorem step (h : RotatedBy s test u e acc) (htest : test.size = s.degree) (hpos : 0 < s.degree)
    (hkey : key.ScalesBy t s eps d) (hd : d = 0 ∨ d = 1) (r : ℕ) :
    RotatedBy s test (u + d * r) (e + eps) (BlindRotationKey.step t acc r key) := by
  rw [BlindRotationKey.step]
  split_ifs with hr
  · -- Turning by nothing needs no key.
    refine ⟨h.ofDegree, fun i hi => ?_⟩
    rw [hr, Nat.cast_zero, mul_zero, add_zero]
    exact (h.close i hi).trans (Nat.le_add_right e eps)
  have hturn : (acc.mulXPowSubOne (-r)).OfDegree s.degree :=
    Glwe.ofDegree_sub (Glwe.ofDegree_mulXPow h.ofDegree _) h.ofDegree
  obtain ⟨-, hproduct⟩ := hkey.externalProduct hturn
  refine ⟨Glwe.ofDegree_add h.ofDegree (hkey.ofDegree _), fun i hi => ?_⟩
  have hnoise := hproduct i hi
  rw [Glwe.coeff_phase_mulXPowSubOne rfl h.ofDegree _ hi, sub_neg_eq_add] at hnoise
  rw [Glwe.coeff_phase_add rfl h.ofDegree (hkey.ofDegree _) hi]
  -- Without noise, the accumulator is kept or replaced by its turned copy.
  have hideal : distance ((acc.phase s).coeff i +
      scale ((acc.phase s).entry (i + r) - (acc.phase s).coeff i) d) (test.entry (i + (u + d * r))) ≤
        e := by
    rcases hd with rfl | rfl
    · rw [scale_zero, add_zero, zero_mul, add_zero]
      exact h.close i hi
    · rw [scale_one, add_sub_cancel, one_mul, add_comm u, ← add_assoc]
      exact h.close_entry htest hpos _
  refine (distance_triangle _ _ _).trans (Nat.add_comm e eps ▸ Nat.add_le_add ?_ hideal)
  rwa [distance_add_left]

/-- The turns of all keys add up, and so does their noise. -/
theorem foldl (htest : test.size = s.degree) (hpos : 0 < s.degree) {keys : List PreparedGgsw}
    {ds : List ℤ} (hkeys : List.Forall₂ (fun key d => key.ScalesBy t s eps d) keys ds)
    (hd : ∀ d ∈ ds, d = 0 ∨ d = 1) {mask : List ℕ} (hmask : mask.length = keys.length)
    (h : RotatedBy s test u e acc) :
    RotatedBy s test (u + (List.zipWith (fun (d : ℤ) (r : ℕ) => d * r) ds mask).sum)
      (e + keys.length * eps)
      ((mask.zip keys).foldl (fun acc x => BlindRotationKey.step t acc x.1 x.2) acc) := by
  induction hkeys generalizing u e acc mask with
  | nil =>
    obtain rfl := List.length_eq_zero_iff.1 hmask
    simpa using h
  | @cons key d keys ds hkey _ ih =>
    obtain ⟨r, mask, rfl⟩ := List.exists_cons_of_length_eq_add_one hmask
    have hnext := ih (fun d' hd' => hd d' (List.mem_cons_of_mem _ hd')) (by simpa using hmask)
      (h.step htest hpos hkey (hd d (List.mem_cons_self ..)) r)
    rw [List.zipWith_cons_cons, List.sum_cons, List.length_cons, ← add_assoc, Nat.add_one_mul,
      Nat.add_comm _ eps, ← Nat.add_assoc]
    exact hnext

end RotatedBy

/-! ### The key -/

namespace BlindRotationKey

/-- The key holds gadget ciphertexts of the coefficients of an LWE secret. -/
structure Encrypts (t : Fourier) (sIn : LweSecret) (s : GlweSecret) (eps : ℕ)
    (k : BlindRotationKey) : Prop where
  degree_eq : k.degree = s.degree
  keys : List.Forall₂ (fun key d => key.ScalesBy t s eps d) k.keys sIn.coeffs.toList

/-- The steps of the body, and those of the words of the mask whose secret coefficient is one. -/
def turn (s : LweSecret) (body : ℕ) (mask : List ℕ) : ℤ :=
  body + (List.zipWith (fun (d : ℤ) (r : ℕ) => d * r) s.coeffs.toList mask).sum

variable {t : Fourier} {sIn : LweSecret} {s : GlweSecret} {eps bits : ℕ} {k : BlindRotationKey}

theorem Encrypts.dimension_eq (h : k.Encrypts t sIn s eps) : k.dimension = sIn.dimension := by
  rw [dimension, h.keys.length_eq, Array.length_toList, LweSecret.dimension]

theorem Encrypts.fits (h : k.Encrypts t sIn s eps) {key : PreparedGgsw} (hkey : key ∈ k.keys) :
    key.fits t (Glwe.zero k.degree) = .ok () := by
  obtain ⟨d, -, hscales⟩ := forall₂_exists_of_mem h.keys hkey
  rw [h.degree_eq]
  exact (hscales.externalProduct (Glwe.ofDegree_zero s.degree)).1

/-- Every word has a number of steps, which is within half a step of it. -/
theorem exists_steps (hdegree : 2 * k.degree = 2 ^ bits) (h0 : 0 < bits) (h1 : bits < 64)
    (x : BitVec 32) :
    ∃ r, k.steps x = .ok r ∧ r < 2 ^ bits ∧ gap x (r / 2 ^ bits) ≤ 1 / 2 ^ (bits + 1) := by
  rw [steps, hdegree]
  exact exists_modSwitch h0 h1 (by decide) x

/-- That number is an integer nearest to the word in steps, up to whole turns. -/
theorem exists_nearest_steps (hdegree : 2 * k.degree = 2 ^ bits) (h0 : 0 < bits) (h1 : bits < 64)
    (x : BitVec 32) :
    ∃ r, k.steps x = .ok r ∧ r < 2 * k.degree ∧
      ∃ q : ℤ, |(x.toNat : ℝ) * (2 * k.degree) / 2 ^ 32 - (r + q * (2 * k.degree))| ≤ 1 / 2 := by
  obtain ⟨r, hr, hlt, hgap⟩ := exists_steps hdegree h0 h1 x
  have hsteps : (2 * k.degree : ℝ) = 2 ^ bits := by exact_mod_cast hdegree
  have hunit : (0 : ℝ) < 2 ^ bits := by positivity
  rw [gap_eq, pow_succ _ bits] at hgap
  generalize round (fraction x - r / 2 ^ bits) = q at hgap
  have hscaled : (x.toNat : ℝ) * 2 ^ bits / 2 ^ 32 - (r + q * 2 ^ bits) =
      (fraction x - r / 2 ^ bits - q) * 2 ^ bits := by
    rw [fraction]
    field_simp
    ring
  refine ⟨r, hr, hdegree ▸ hlt, q, ?_⟩
  rw [hsteps, hscaled, abs_mul, abs_of_pos hunit]
  refine (mul_le_mul_of_nonneg_right hgap hunit.le).trans_eq ?_
  field_simp

/-- Blind rotation succeeds.  Its test polynomial is turned by the rounded words, and every key adds
its noise. -/
theorem exists_rotate (h : k.Encrypts t sIn s eps) (hd : ∀ d ∈ sIn.coeffs.toList, d = 0 ∨ d = 1)
    (hdegree : 2 * s.degree = 2 ^ bits) (h0 : 0 < bits) (h1 : bits < 64) {c : Lwe 32}
    (hc : c.OfDimension sIn.dimension) {test : TorusPoly 32} (htest : test.size = s.degree) :
    ∃ body mask acc, k.steps c.body = .ok body ∧ gap c.body (body / 2 ^ bits) ≤ 1 / 2 ^ (bits + 1) ∧
      c.mask.mapM k.steps = .ok mask ∧
      List.Forall₂ (fun x (r : ℕ) => gap x (r / 2 ^ bits) ≤ 1 / 2 ^ (bits + 1)) c.mask mask ∧
      k.rotate t c test = .ok acc ∧
      RotatedBy s test (turn sIn body mask) (sIn.dimension * eps) acc := by
  have hpos : 0 < s.degree := by
    have : 0 < 2 ^ bits := by positivity
    omega
  have hsteps := exists_steps (k := k) (h.degree_eq ▸ hdegree) h0 h1
  obtain ⟨body, hbody, -, hbodyGap⟩ := hsteps c.body
  obtain ⟨mask, hmask, hmaskGap⟩ := Outcome.exists_mapM fun x (_ : x ∈ c.mask) => by
    obtain ⟨r, hr, -, hgap⟩ := hsteps x
    exact ⟨r, hr, hgap⟩
  have hlength : mask.length = k.keys.length := by
    rw [← hmaskGap.length_eq, Lwe.mask, List.length_tail, Array.length_toList, hc,
      Nat.add_sub_cancel]
    exact h.dimension_eq.symm
  refine ⟨body, mask, k.accumulate t body mask test, hbody, hbodyGap, hmask, hmaskGap, ?_, ?_⟩
  · rw [rotate, h.dimension_eq, Lwe.Checked.ofDimension_eq_ok_iff.2 hc, Outcome.ok_bind,
      require_of (htest.trans h.degree_eq.symm), Outcome.ok_bind, hbody, Outcome.ok_bind, hmask,
      Outcome.ok_bind]
    refine Outcome.bind_eq_ok_iff.2 ⟨(), Outcome.forM_eq_ok_iff.2 fun x hx => ?_, rfl⟩
    obtain ⟨r, key⟩ := x
    dsimp only
    split_ifs
    · rfl
    · exact h.fits (List.of_mem_zip hx).2
  · have hrun := (RotatedBy.trivial htest body).foldl htest hpos h.keys hd hlength
    rw [Nat.zero_add, ← BlindRotationKey.dimension, h.dimension_eq] at hrun
    exact hrun

/-! ### The turn and the phase -/

/-- Words within `δ` of their steps have an inner product within `δ` of that of the steps, for every
unit of the secret. -/
theorem gap_dot_le {δ : ℝ} (hδ : 0 ≤ δ) {mask : List (BitVec 32)} {steps : List ℕ}
    (h : List.Forall₂ (fun x (r : ℕ) => gap x (r / 2 ^ bits) ≤ δ) mask steps) (ds : List ℤ) :
    gap (Lwe.dot mask ds) ((List.zipWith (fun (d : ℤ) (r : ℕ) => d * r) ds steps).sum / 2 ^ bits) ≤
      (ds.map Int.natAbs).sum * δ := by
  have hzero : gap (0 : BitVec 32) 0 = 0 := by simpa [fraction] using gap_self (0 : BitVec 32)
  induction h generalizing ds with
  | nil =>
    rw [Lwe.dot, List.zipWith_nil_left, List.zipWith_nil_right, List.sum_nil, List.sum_nil,
      Int.cast_zero, zero_div, hzero]
    positivity
  | @cons x r mask steps hx _ ih =>
    cases ds with
    | nil => simpa [Lwe.dot] using hzero.le
    | cons d ds =>
      have hterm : gap (scale x d) (d * (r / 2 ^ bits)) ≤ d.natAbs * δ := by
        rw [Nat.cast_natAbs, Int.cast_abs]
        exact (gap_scale_le x d _).trans (mul_le_mul_of_nonneg_left hx (abs_nonneg _))
      have hrest := ih ds
      rw [Lwe.dot] at hrest ⊢
      rw [List.zipWith_cons_cons, List.zipWith_cons_cons, List.sum_cons, List.sum_cons,
        List.map_cons, List.sum_cons, Int.cast_add, Int.cast_mul, Int.cast_natCast, add_div,
        mul_div_assoc, Nat.cast_add, add_mul]
      exact (gap_add _ _ _ _).trans (add_le_add hterm hrest)

/-- The turn is the phase, up to half a step for the body and for every unit of the secret. -/
theorem gap_turn_le {c : Lwe 32} {body : ℕ} {mask : List ℕ}
    (hbody : gap c.body (body / 2 ^ bits) ≤ 1 / 2 ^ (bits + 1))
    (hmask : List.Forall₂ (fun x (r : ℕ) => gap x (r / 2 ^ bits) ≤ 1 / 2 ^ (bits + 1)) c.mask mask) :
    gap (c.phase sIn) (turn sIn body mask / 2 ^ bits) ≤
      (1 + magnitude sIn.coeffs) / 2 ^ (bits + 1) := by
  have hdot := gap_dot_le (by positivity) hmask sIn.coeffs.toList
  have hsplit : (turn sIn body mask : ℝ) / 2 ^ bits = body / 2 ^ bits +
      (List.zipWith (fun (d : ℤ) (r : ℕ) => d * r) sIn.coeffs.toList mask).sum / 2 ^ bits := by
    rw [turn, Int.cast_add, Int.cast_natCast, add_div]
  rw [hsplit, Lwe.phase, add_div, div_eq_mul_one_div (magnitude sIn.coeffs : ℝ)]
  exact (gap_add _ _ _ _).trans (add_le_add hbody hdot)

/-! ### The sign -/

@[simp] theorem size_constantTest (n : ℕ) (mu : BitVec 32) : (constantTest n mu).size = n :=
  size_replicate n mu

theorem entry_constantTest {n : ℕ} (mu : BitVec 32) {j : ℤ} (h0 : 0 ≤ j) (h1 : j < n) :
    (constantTest n mu).entry j = mu := by
  obtain ⟨i, rfl⟩ := Int.eq_ofNat_of_zero_le h0
  have hi : i < (constantTest n mu).size := by
    rw [size_constantTest]
    omega
  rw [entry_natCast hi, coeff_of_lt hi]
  exact Array.getElem_replicate _

/-- A turn close to a phase shows which half of the circle the phase is in, unless it is close to an
edge. -/
theorem entry_constantTest_of_gap {n : ℕ} (hn : 2 * n = 2 ^ bits) (mu : BitVec 32) {x : BitVec 32}
    {u : ℤ} {δ : ℝ} (h : gap x (u / 2 ^ bits) ≤ δ) :
    (δ ≤ fraction x → fraction x < 1 / 2 - δ → (constantTest n mu).entry u = mu) ∧
    (1 / 2 + δ ≤ fraction x → fraction x < 1 - δ → (constantTest n mu).entry u = -mu) := by
  have hsteps : (2 : ℝ) ^ bits = 2 * n := by exact_mod_cast hn.symm
  have hpos : 0 < n := by
    have : 0 < 2 ^ bits := by positivity
    omega
  have hpos' : (0 : ℝ) < n := by exact_mod_cast hpos
  have hhalf := antiperiodic_entry (size_constantTest n mu) hpos
  rw [gap_eq, hsteps] at h
  generalize round (fraction x - u / (2 * n)) = k at h
  -- Whole turns bring the steps to the place of the phase.
  have hperiod : (constantTest n mu).entry (u + k * (2 * n)) = (constantTest n mu).entry u := by
    have := hhalf.periodic_two_mul.int_mul k u
    rwa [Int.cast_id] at this
  have hplace : ((u + k * (2 * n) : ℤ) : ℝ) = (u / (2 * n) + k) * (2 * n) := by
    push_cast
    field_simp
  rw [← hperiod]
  generalize u + k * (2 * n) = j at hplace ⊢
  obtain ⟨hlo, hhi⟩ := abs_le.1 h
  constructor
  · intro h0 h1
    have hj0 : (0 : ℝ) ≤ j := by
      rw [hplace]
      exact mul_nonneg (by linarith) (by linarith)
    have hj1 : (j : ℝ) < n := by
      rw [hplace]
      nlinarith
    exact entry_constantTest mu (by exact_mod_cast hj0) (by exact_mod_cast hj1)
  · intro h0 h1
    have hj0 : (n : ℝ) ≤ j := by
      rw [hplace]
      nlinarith
    have hj1 : (j : ℝ) < 2 * n := by
      rw [hplace]
      nlinarith
    have hj0' : (n : ℤ) ≤ j := by exact_mod_cast hj0
    have hj1' : j < 2 * n := by exact_mod_cast hj1
    rw [← Int.sub_add_cancel j n, hhalf, entry_constantTest mu (by omega) (by omega)]

/-- A gate extracts an entry of the test polynomial, at a place within the rounding of the phase. -/
theorem exists_gate (h : k.Encrypts t sIn s eps) (hd : ∀ d ∈ sIn.coeffs.toList, d = 0 ∨ d = 1)
    (hdegree : 2 * s.degree = 2 ^ bits) (h0 : 0 < bits) (h1 : bits < 64) {c : Lwe 32}
    (hc : c.OfDimension sIn.dimension) (mu : BitVec 32) :
    ∃ u : ℤ, gap (c.phase sIn) (u / 2 ^ bits) ≤ (1 + magnitude sIn.coeffs) / 2 ^ (bits + 1) ∧
      ∃ l y, k.gate t c mu = .ok l ∧ Lwe.Checked.phase s.toLwe l = .ok y ∧
        distance y ((constantTest s.degree mu).entry u) ≤ sIn.dimension * eps := by
  have hpos : 0 < s.degree := by
    have : 0 < 2 ^ bits := by positivity
    omega
  obtain ⟨body, mask, acc, -, hbody, -, hmask, hrotate, hacc⟩ :=
    exists_rotate h hd hdegree h0 h1 hc (size_constantTest s.degree mu)
  refine ⟨turn sIn body mask, gap_turn_le hbody hmask, acc.sampleExtract 0, (acc.phase s).coeff 0, ?_,
    ?_, ?_⟩
  · rw [gate, bootstrap, h.degree_eq, hrotate]
    rfl
  · exact Lwe.Checked.phase_eq_ok_iff.2 ⟨Glwe.ofDimension_sampleExtract hacc.ofDegree,
      Glwe.phase_sampleExtract rfl hacc.ofDegree hpos⟩
  · simpa using hacc.close 0 hpos

/-- Let the key hold the bits of a binary secret, with noise of at most `eps` for every product, and
let the ring degree be a power of two whose double is a machine word.  Then words are rounded to the
nearest number of steps; blind rotation turns every test polynomial by the sum of these steps, with at
most the noise of all keys; and a gate gives `mu` for the phases in `[m, 1/2 - m)` and `-mu` for those
in `[1/2 + m, 1 - m)`, where `m` is half a step for the body and for every one in the secret. -/
theorem gate_sign (h : k.Encrypts t sIn s eps) (hd : ∀ d ∈ sIn.coeffs.toList, d = 0 ∨ d = 1)
    (hpower : s.degree.isPowerOfTwo) (hword : 2 * s.degree < 2 ^ 64) :
    (∀ x : BitVec 32, ∃ r, k.steps x = .ok r ∧ r < 2 * s.degree ∧
      ∃ q : ℤ, |(x.toNat : ℝ) * (2 * s.degree) / 2 ^ 32 - (r + q * (2 * s.degree))| ≤ 1 / 2) ∧
    (∀ (c : Lwe 32) (test : TorusPoly 32), c.OfDimension sIn.dimension → test.size = s.degree →
      ∃ body mask acc, k.steps c.body = .ok body ∧ c.mask.mapM k.steps = .ok mask ∧
        k.rotate t c test = .ok acc ∧ acc.OfDegree s.degree ∧
        ∀ i < s.degree, distance ((acc.phase s).coeff i)
          ((test.mulXPow (-turn sIn body mask)).coeff i) ≤ sIn.dimension * eps) ∧
    (∀ (c : Lwe 32) (mu : BitVec 32), c.OfDimension sIn.dimension →
      let m : ℝ := (1 + (sIn.coeffs.toList.sum : ℤ)) * 2 ^ 32 / (4 * s.degree)
      let x : ℝ := (c.phase sIn).toNat
      ∃ l y, k.gate t c mu = .ok l ∧ Lwe.Checked.phase s.toLwe l = .ok y ∧
        (m ≤ x → x < 2 ^ 31 - m → distance y mu ≤ sIn.dimension * eps) ∧
        (2 ^ 31 + m ≤ x → x < 2 ^ 32 - m → distance y (-mu) ≤ sIn.dimension * eps)) := by
  obtain ⟨e, he⟩ := hpower
  have hdegree : 2 * s.degree = 2 ^ (e + 1) := by rw [he, pow_succ, Nat.mul_comm]
  have hbits : e + 1 < 64 := (Nat.pow_lt_pow_iff_right (by decide)).1 (hdegree ▸ hword)
  have hsteps : (2 : ℝ) ^ (e + 1) = 2 * s.degree := by exact_mod_cast hdegree.symm
  have hpos : (0 : ℝ) < 2 * s.degree := hsteps ▸ by positivity
  have hne : (s.degree : ℝ) ≠ 0 := by
    have : (0 : ℝ) < s.degree := by linarith
    exact this.ne'
  refine ⟨fun x => ?_, fun c test hc htest => ?_, fun c mu hc => ?_⟩
  · rw [← h.degree_eq] at hdegree ⊢
    exact exists_nearest_steps hdegree (by omega) hbits x
  · obtain ⟨body, mask, acc, hbody, -, hmask, -, hrotate, hacc⟩ :=
      exists_rotate h hd hdegree (by omega) hbits hc htest
    refine ⟨body, mask, acc, hbody, hmask, hrotate, hacc.ofDegree, fun i hi => ?_⟩
    rw [coeff_mulXPow_eq_entry _ _ (htest ▸ hi), sub_neg_eq_add]
    exact hacc.close i hi
  · obtain ⟨u, hu, l, y, hl, hy, hdist⟩ := exists_gate h hd hdegree (by omega) hbits hc mu
    obtain ⟨hplus, hminus⟩ := entry_constantTest_of_gap hdegree mu hu
    intro m x
    have hmagnitude : (magnitude sIn.coeffs : ℝ) = (sIn.coeffs.toList.sum : ℤ) := by
      exact_mod_cast magnitude_of_binary hd
    have hmargin : (1 + magnitude sIn.coeffs : ℝ) / 2 ^ (e + 1 + 1) = m / 2 ^ 32 := by
      rw [pow_succ, hsteps, hmagnitude]
      simp only [m]
      field_simp
      ring
    have hplace : fraction (c.phase sIn) = x / 2 ^ 32 := rfl
    rw [hmargin, hplace] at hplus hminus
    refine ⟨l, y, hl, hy, fun hlo hhi => ?_, fun hlo hhi => ?_⟩
    · rwa [hplus (by linarith) (by linarith)] at hdist
    · rwa [hminus (by linarith) (by linarith)] at hdist

theorem zeroBit_scalesBy : zeroBit.ScalesBy tablesOfFour zeroSecret 0 0 := by
  intro g hg
  refine ⟨_, zeroBit_externalProductChecked hg, fun i hi => ?_⟩
  have hzero : ((Glwe.zero 4 : Glwe 32).phase zeroSecret).coeff i = 0 := Glwe.coeff_phase_zero rfl hi
  rw [hzero, scale_zero, distance_self]

/-- A phase of one eighth under two keys of zeros; and two keys of ones, which turn the test polynomial by
five steps together, with the noise of two roundings to a digit. -/
theorem gate_sign_twoKeys :
    (let k : BlindRotationKey := ⟨[zeroBit, zeroBit], 4⟩
      let c : Lwe 32 := ⟨#[eighth, 0x30000000, 0x50000000]⟩
      k.Encrypts tablesOfFour ⟨#[0, 0]⟩ zeroSecret 0 ∧ c.OfDimension 2 ∧
      ∃ l y, k.gate tablesOfFour c quarter = .ok l ∧
        Lwe.Checked.phase zeroSecret.toLwe l = .ok y ∧ distance y quarter ≤ 0) ∧
    let key := oneOfTwo.prepare tablesOfTwo
    let k : BlindRotationKey := ⟨[key, key], 2⟩
    let s : GlweSecret := ⟨#[1, 0]⟩
    let c : Lwe 32 := ⟨#[0x40000000, 0xc0000000, 0x50000000]⟩
    k.Encrypts tablesOfTwo ⟨#[1, 1]⟩ s (2 ^ 28) ∧ c.OfDimension 2 ∧
    ∃ acc, k.rotate tablesOfTwo c ⟨#[quarter, 7]⟩ = .ok acc ∧
      distance ((acc.phase s).coeff 0) 7 ≤ 2 ^ 29 ∧
      distance ((acc.phase s).coeff 1) (-quarter) ≤ 2 ^ 29 := by
  constructor
  · intro k c
    have hkey : k.Encrypts tablesOfFour ⟨#[0, 0]⟩ zeroSecret 0 :=
      ⟨rfl, .cons zeroBit_scalesBy (.cons zeroBit_scalesBy .nil)⟩
    have hphase : (c.phase ⟨#[0, 0]⟩).toNat = 2 ^ 29 := by decide
    obtain ⟨-, -, hgate⟩ := gate_sign hkey (by simp) ⟨2, rfl⟩ (by decide)
    obtain ⟨l, y, hl, hy, hplus, -⟩ := hgate c quarter rfl
    rw [hphase] at hplus
    refine ⟨hkey, rfl, l, y, hl, hy, ?_⟩
    have hdegree : zeroSecret.degree = 4 := rfl
    rw [hdegree] at hplus
    have := hplus (by norm_num) (by norm_num)
    simpa using this
  · intro key k s c
    have hmagnitude : magnitude s.coeffs = 1 := rfl
    have hone : key.ScalesBy tablesOfTwo s (2 ^ 28) 1 := by
      have h := oneOfTwo_scalesBy (s := s) rfl
      rwa [hmagnitude] at h
    have hkey : k.Encrypts tablesOfTwo ⟨#[1, 1]⟩ s (2 ^ 28) := ⟨rfl, .cons hone (.cons hone .nil)⟩
    obtain ⟨-, hrotate, -⟩ := gate_sign hkey (by simp) ⟨1, rfl⟩ (by decide)
    obtain ⟨body, mask, acc, hbody, hmask, hacc, -, hdist⟩ := hrotate c ⟨#[quarter, 7]⟩ rfl rfl
    have hsteps : k.steps c.body = .ok 1 ∧ c.mask.mapM k.steps = .ok [3, 1] := by decide
    obtain rfl := Except.ok.inj (hbody.symm.trans hsteps.1)
    obtain rfl := Except.ok.inj (hmask.symm.trans hsteps.2)
    exact ⟨hkey, rfl, acc, hacc, hdist 0 (by decide), hdist 1 (by decide)⟩

end BlindRotationKey

end CipherMonitor
