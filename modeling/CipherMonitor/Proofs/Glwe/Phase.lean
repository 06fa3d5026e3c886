import CipherMonitor.Glwe.Basic
import CipherMonitor.Proofs.Outcome
import CipherMonitor.Proofs.Poly.Value
import CipherMonitor.Proofs.Torus

/-!
# Phases of ring ciphertexts

* `Poly.coeff_mulSmall` — the coefficients of a product with a vector.
* `Glwe.coeff_phase_add`, `Glwe.coeff_phase_sub`, … — the phase of the linear operations.
* `Lwe.phase_add`, `Lwe.phase_addScaled`, `Lwe.phase_addConstant`, `Lwe.phase_shiftLeft`, … — the
  same without a ring.
* `Lwe.Checked.phase_eq_ok_iff`, `Lwe.Checked.exists_add`, … — the checked operations.
* `Glwe.phase_sampleExtract` — an extracted ciphertext carries a coefficient of the phase.
-/

namespace CipherMonitor

open Finset

namespace Poly

variable {R : Type} [CommRing R]

/-- The contribution of each entry of the vector to coefficient `k` of the product. -/
theorem coeff_mulSmall {p : Poly R} {s : Array ℤ} {k : ℕ} (hk : k < p.size) :
    (p.mulSmall s).coeff k = ∑ j ∈ range s.size, (s.getD j 0 : R) * (p.mulXPow j).coeff k := by
  have hstep : ∀ sum : Poly R, sum.size = p.size → ∀ j,
      (mulSmallStep p s sum j).coeff k = sum.coeff k + (s.getD j 0 : R) * (p.mulXPow j).coeff k := by
    intro sum hsum j
    unfold mulSmallStep
    split_ifs with h0 h1 h2
    · simp [h0]
    · rw [coeff_add (hsum ▸ hk) (by simpa using hk), h1]; simp
    · rw [coeff_sub (hsum ▸ hk) (by simpa using hk), h2]; simp [sub_eq_add_neg]
    · rw [coeff_add (hsum ▸ hk) (by simpa using hk), coeff_scale _ (by simpa using hk)]
  exact (coeff_foldl_range (fun _ hsum j _ => size_mulSmallStep rfl hsum j)
    (fun sum hsum j _ => hstep sum hsum j) (size_zero p.size)).trans (by rw [coeff_zero, zero_add])

/-- Shifting is additive. -/
theorem coeff_mulXPow_add {p q : Poly R} (h : p.size = q.size) {j k : ℕ} (hj : j < p.size)
    (hk : k < p.size) :
    ((p.add q).mulXPow j).coeff k = (p.mulXPow j).coeff k + (q.mulXPow j).coeff k := by
  have hsize : (p.add q).size = p.size := by simp [h]
  rw [coeff_mulXPow _ (by omega) (by omega), coeff_mulXPow _ hj hk, coeff_mulXPow _ (by omega)
    (by omega), hsize, ← h]
  split_ifs with hjk
  · exact coeff_add (by omega) (by omega)
  · rw [coeff_add (by omega) (by omega), neg_add]

theorem coeff_mulSmall_add {p q : Poly R} (h : p.size = q.size) {s : Array ℤ}
    (hs : s.size = p.size) {k : ℕ} (hk : k < p.size) :
    ((p.add q).mulSmall s).coeff k = (p.mulSmall s).coeff k + (q.mulSmall s).coeff k := by
  have hsize : (p.add q).size = p.size := by simp [h]
  rw [coeff_mulSmall (by omega), coeff_mulSmall hk, coeff_mulSmall (by omega), ← sum_add_distrib]
  refine sum_congr rfl fun j hj => ?_
  rw [mem_range] at hj
  rw [coeff_mulXPow_add h (by omega) hk, mul_add]

theorem coeff_mulSmall_scale {p : Poly R} (c : R) {s : Array ℤ} (hs : s.size = p.size) {k : ℕ}
    (hk : k < p.size) : ((p.scale c).mulSmall s).coeff k = c * (p.mulSmall s).coeff k := by
  have hsize : (p.scale c).size = p.size := size_scale c p
  rw [coeff_mulSmall (by omega), coeff_mulSmall hk, mul_sum]
  refine sum_congr rfl fun j hj => ?_
  rw [mem_range] at hj
  rw [coeff_mulXPow _ (by omega) (by omega), coeff_mulXPow p (by omega) hk, hsize]
  split_ifs
  · rw [coeff_scale c (by omega), mul_left_comm]
  · rw [coeff_scale c (by omega)]
    ring

/-- Taking away and adding back. -/
theorem sub_add_cancel {p q : Poly R} (h : p.size = q.size) : (p.sub q).add q = p := by
  refine ext_coeff (by simp [h]) fun i hi => ?_
  have hi' : i < p.size := by simpa [h] using hi
  rw [coeff_add (by simpa [← h] using hi') (h ▸ hi'), coeff_sub hi' (h ▸ hi')]
  ring

theorem coeff_addConstant {p : Poly R} {k : ℕ} (hk : k < p.size) (m : R) :
    (p.addConstant m).coeff k = p.coeff k + if k = 0 then m else 0 := by
  have hk' : k < (p.addConstant m).size := by simpa using hk
  rw [coeff_of_lt hk', coeff_of_lt hk]
  rcases eq_or_ne k 0 with rfl | h0
  · rw [if_pos rfl]
    exact Array.getElem_modify_self _ hk'
  · rw [if_neg h0, add_zero]
    exact Array.getElem_modify_of_ne h0.symm _ hk'

/-- A polynomial is made of its coefficients. -/
theorem ofFn_coeff (p : Poly R) : ofFn p.size p.coeff = p :=
  ext_coeff (size_ofFn _ _) fun _ hi => coeff_ofFn _ (hi.trans_eq (size_ofFn _ _))

theorem coeff_mulSmall_zero {n : ℕ} {s : Array ℤ} (hs : s.size = n) {k : ℕ} (hk : k < n) :
    ((zero n : Poly R).mulSmall s).coeff k = 0 := by
  have hsize : (zero n : Poly R).size = n := size_zero n
  rw [coeff_mulSmall (hsize.symm ▸ hk)]
  refine sum_eq_zero fun j hj => ?_
  rw [mem_range, hs] at hj
  rw [coeff_mulXPow _ (hsize.symm ▸ hj) (hsize.symm ▸ hk)]
  split_ifs <;> simp

end Poly

namespace Glwe

variable {w n k : ℕ} {s : GlweSecret} {c d : Glwe w}

open CipherMonitor.Poly

/-- Ciphertexts of one degree have the same sizes. -/
theorem sameSizes_of (hc : c.OfDegree n) (hd : d.OfDegree n) : Checked.sameSizes c d = .ok () := by
  rw [Checked.sameSizes, Poly.sameSize, Poly.sameSize, require_of (hc.1.trans hd.1.symm),
    require_of (hc.2.trans hd.2.symm)]
  rfl

theorem size_phase (hc : c.OfDegree n) : (c.phase s).size = n := by
  rw [phase, size_add, size_mulSmall, hc.1, hc.2, min_self]

theorem phase_eq_of_coeff {p : TorusPoly w} (hc : c.OfDegree n) (hp : p.size = n)
    (h : ∀ k < n, (c.phase s).coeff k = p.coeff k) : c.phase s = p :=
  ext_coeff ((size_phase hc).trans hp.symm) fun k hk => h k (hk.trans_eq (size_phase hc))

theorem coeff_phase (hc : c.OfDegree n) (hk : k < n) :
    (c.phase s).coeff k = c.b.coeff k + (c.a.mulSmall s.coeffs).coeff k :=
  coeff_add (hc.1 ▸ hk) (by rw [size_mulSmall, hc.2]; exact hk)

theorem coeff_phase_add (hs : s.degree = n) (hc : c.OfDegree n) (hd : d.OfDegree n) (hk : k < n) :
    ((c.add d).phase s).coeff k = (c.phase s).coeff k + (d.phase s).coeff k := by
  obtain ⟨hcb, hca⟩ := hc
  obtain ⟨hdb, hda⟩ := hd
  rw [coeff_phase (ofDegree_add ⟨hcb, hca⟩ ⟨hdb, hda⟩) hk, coeff_phase ⟨hcb, hca⟩ hk,
    coeff_phase ⟨hdb, hda⟩ hk, add, coeff_add (by omega) (by omega),
    coeff_mulSmall_add (hca.trans hda.symm) (hs.trans hca.symm) (by omega)]
  ring

theorem coeff_phase_sub (hs : s.degree = n) (hc : c.OfDegree n) (hd : d.OfDegree n) (hk : k < n) :
    ((c.sub d).phase s).coeff k = (c.phase s).coeff k - (d.phase s).coeff k := by
  -- Only sums need to be computed: a difference is what gives back the minuend.
  have hback : (c.sub d).add d = c := by
    rw [sub, add, sub_add_cancel (hc.1.trans hd.1.symm), sub_add_cancel (hc.2.trans hd.2.symm)]
  rw [eq_sub_iff_add_eq, ← coeff_phase_add hs (ofDegree_sub hc hd) hd hk, hback]

theorem ofDegree_addConstant (hc : c.OfDegree n) (m : BitVec w) : (c.addConstant m).OfDegree n :=
  ⟨by rw [addConstant, size_addConstant, hc.1], hc.2⟩

theorem coeff_phase_addConstant (hc : c.OfDegree n) (m : BitVec w) (hk : k < n) :
    ((c.addConstant m).phase s).coeff k = (c.phase s).coeff k + if k = 0 then m else 0 := by
  rw [coeff_phase (ofDegree_addConstant hc m) hk, coeff_phase hc hk, addConstant,
    coeff_addConstant (hc.1 ▸ hk)]
  ring

theorem coeff_phase_constant (hs : s.degree = n) (m : BitVec w) (hk : k < n) :
    ((constant n m).phase s).coeff k = if k = 0 then m else 0 := by
  rw [coeff_phase (ofDegree_constant n m) hk, constant, coeff_constant hk,
    coeff_mulSmall_zero hs hk, add_zero]

theorem ofDegree_addScaled (hc : c.OfDegree n) (d : Glwe w) (m : ℤ) : (c.addScaled d m).OfDegree n :=
  ⟨(TorusPoly.size_addScaled _ _ m).trans hc.1, (TorusPoly.size_addScaled _ _ m).trans hc.2⟩

theorem addScaled_eq_add {p q : TorusPoly w} (h : p.size = q.size) (m : ℤ) :
    TorusPoly.addScaled p q m = p.add (q.scale (BitVec.ofInt w m)) := by
  refine ext_coeff (by simp [h]) fun i hi => ?_
  rw [TorusPoly.size_addScaled] at hi
  rw [TorusPoly.addScaled, coeff_ofFn _ hi, coeff_add hi (by rw [size_scale]; omega),
    coeff_scale _ (by omega), Torus.scale]

theorem coeff_phase_addScaled (hs : s.degree = n) (hc : c.OfDegree n) (hd : d.OfDegree n) (m : ℤ)
    (hk : k < n) : ((c.addScaled d m).phase s).coeff k =
      (c.phase s).coeff k + Torus.scale ((d.phase s).coeff k) m := by
  obtain ⟨hcb, hca⟩ := hc
  obtain ⟨hdb, hda⟩ := hd
  rw [coeff_phase (ofDegree_addScaled ⟨hcb, hca⟩ d m) hk, coeff_phase ⟨hcb, hca⟩ hk,
    coeff_phase ⟨hdb, hda⟩ hk, addScaled, addScaled_eq_add (hcb.trans hdb.symm),
    addScaled_eq_add (hca.trans hda.symm), coeff_add (by omega) (by rw [size_scale]; omega),
    coeff_scale _ (by omega),
    coeff_mulSmall_add (by rw [size_scale]; omega) (hs.trans hca.symm) (by omega),
    coeff_mulSmall_scale _ (hs.trans hda.symm) (by omega), Torus.scale]
  ring

theorem ofDegree_trivial {m : TorusPoly w} (hm : m.size = n) : (trivial m).OfDegree n :=
  ⟨hm, (size_zero _).trans hm⟩

theorem coeff_phase_trivial (hs : s.degree = n) {m : TorusPoly w} (hm : m.size = n) (hk : k < n) :
    ((trivial m).phase s).coeff k = m.coeff k := by
  rw [coeff_phase (ofDegree_trivial hm) hk, trivial, hm, coeff_mulSmall_zero hs hk, add_zero]

theorem coeff_phase_zero (hs : s.degree = n) (hk : k < n) :
    ((zero n : Glwe w).phase s).coeff k = 0 := by
  rw [coeff_phase (ofDegree_zero n) hk, zero, coeff_zero, coeff_mulSmall_zero hs hk, add_zero]

end Glwe

/-! ### Phases of extracted ciphertexts -/

namespace Lwe

variable {w n : ℕ} {s : LweSecret} {c d : Lwe w}

/-- The ciphertext has a mask of `n` words. -/
def OfDimension (n : ℕ) (c : Lwe w) : Prop := c.words.size = n + 1

theorem dot_add (m m' : List (BitVec w)) (h : m.length = m'.length) (s : List ℤ) :
    dot (List.zipWith (· + ·) m m') s = dot m s + dot m' s := by
  induction m generalizing m' s with
  | nil =>
    obtain rfl := List.length_eq_zero_iff.1 h.symm
    simp [dot]
  | cons x m ih =>
    obtain ⟨y, m', rfl⟩ := List.exists_cons_of_length_eq_add_one h.symm
    cases s with
    | nil => simp [dot]
    | cons d s =>
      have := ih m' (by simpa using h) s
      simp only [dot] at this ⊢
      rw [List.zipWith_cons_cons, List.zipWith_cons_cons, List.zipWith_cons_cons,
        List.zipWith_cons_cons, List.sum_cons, List.sum_cons, List.sum_cons, this, Torus.scale,
        Torus.scale, Torus.scale]
      ring

theorem dot_replicate_zero (n : ℕ) (s : List ℤ) : dot (List.replicate n (0 : BitVec w)) s = 0 := by
  induction n generalizing s with
  | zero => simp [dot]
  | succ n ih =>
    cases s with
    | nil => simp [dot]
    | cons d s =>
      have := ih s
      simp only [dot] at this ⊢
      rw [List.replicate_succ, List.zipWith_cons_cons, List.sum_cons, this, Torus.scale]
      ring

theorem ofDimension_trivial (n : ℕ) (m : BitVec w) : (trivial n m).OfDimension n := by
  simp [OfDimension, trivial, ofParts]

theorem ofDimension_add (hc : c.OfDimension n) (hd : d.OfDimension n) :
    (c.add d).OfDimension n := by
  simp_all [OfDimension, add]

theorem ofDimension_addConstant (hc : c.OfDimension n) (m : BitVec w) :
    (c.addConstant m).OfDimension n := by
  simpa [OfDimension, addConstant] using hc

theorem phase_trivial (n : ℕ) (m : BitVec w) : (trivial n m).phase s = m := by
  rw [phase, trivial, body_ofParts, mask_ofParts, dot_replicate_zero, add_zero]

/-- Without a mask there is only the body. -/
theorem eq_trivial (hc : c.OfDimension 0) : c = trivial 0 c.body := by
  obtain ⟨⟨words⟩⟩ := c
  obtain ⟨x, rfl⟩ := List.length_eq_one_iff.1 hc
  rfl

theorem phase_add (hc : c.OfDimension n) (hd : d.OfDimension n) :
    (c.add d).phase s = c.phase s + d.phase s := by
  have hbody : (c.add d).body = c.body + d.body := by
    have hc' : 0 < c.words.size := by rw [hc]; omega
    have hd' : 0 < d.words.size := by rw [hd]; omega
    simp [body, add, Array.getD, hc', hd']
  have hmask : (c.add d).mask = List.zipWith (· + ·) c.mask d.mask := by
    simp [mask, add, List.tail_zipWith]
  rw [phase, hbody, hmask, dot_add _ _ (by simp [mask, hc.trans hd.symm]), phase, phase]
  ring

theorem phase_addConstant (hc : c.OfDimension n) (m : BitVec w) :
    (c.addConstant m).phase s = c.phase s + m := by
  have hc' : 0 < c.words.size := by rw [hc]; omega
  have hbody : (c.addConstant m).body = c.body + m := by
    simp [body, addConstant, Array.getD, hc', Array.getElem_modify_self]
  have hmask : (c.addConstant m).mask = c.mask := by
    rw [mask, mask, addConstant, Array.toList_modify]
    cases c.words.toList <;> rfl
  rw [phase, hbody, hmask, phase]
  ring

theorem dot_map_scale (k : ℤ) (m : List (BitVec w)) (s : List ℤ) :
    dot (m.map (Torus.scale · k)) s = Torus.scale (dot m s) k := by
  induction m generalizing s with
  | nil => simp [dot, Torus.scale]
  | cons x m ih =>
    cases s with
    | nil => simp [dot, Torus.scale]
    | cons d s =>
      have := ih s
      simp only [dot] at this ⊢
      rw [List.map_cons, List.zipWith_cons_cons, List.zipWith_cons_cons, List.sum_cons,
        List.sum_cons, this, Torus.scale_add, Torus.scale_scale, Torus.scale_scale, mul_comm k]

/-- Every word times an integer. -/
theorem phase_map_scale (hc : c.OfDimension n) (k : ℤ) :
    (⟨c.words.map (Torus.scale · k)⟩ : Lwe w).phase s = Torus.scale (c.phase s) k := by
  have hc' : 0 < c.words.size := by rw [hc]; omega
  have hbody : (⟨c.words.map (Torus.scale · k)⟩ : Lwe w).body = Torus.scale c.body k := by
    simp [body, Array.getD, hc']
  have hmask : (⟨c.words.map (Torus.scale · k)⟩ : Lwe w).mask = c.mask.map (Torus.scale · k) := by
    simp [mask]
  rw [phase, hbody, hmask, dot_map_scale, ← Torus.scale_add, ← phase]

theorem ofDimension_addScaled (hc : c.OfDimension n) (hd : d.OfDimension n) (k : ℤ) :
    (c.addScaled d k).OfDimension n := by
  simp_all [OfDimension, addScaled]

/-- Adding a multiple of a ciphertext adds the multiple of its phase. -/
theorem phase_addScaled (hc : c.OfDimension n) (hd : d.OfDimension n) (k : ℤ) :
    (c.addScaled d k).phase s = c.phase s + Torus.scale (d.phase s) k := by
  have hsum : c.addScaled d k = c.add ⟨d.words.map (Torus.scale · k)⟩ := by
    rw [add, addScaled, Array.zipWith_map_right]
  have hdimension : (⟨d.words.map (Torus.scale · k)⟩ : Lwe w).OfDimension n := by
    simpa [OfDimension] using hd
  rw [hsum, phase_add hc hdimension, phase_map_scale hd]

theorem ofDimension_sub (hc : c.OfDimension n) (hd : d.OfDimension n) :
    (c.sub d).OfDimension n := by
  simp_all [OfDimension, sub]

theorem phase_sub (hc : c.OfDimension n) (hd : d.OfDimension n) :
    (c.sub d).phase s = c.phase s - d.phase s := by
  have hsum : c.sub d = c.addScaled d (-1) := by
    simp [sub, addScaled, sub_eq_add_neg]
  rw [hsum, phase_addScaled hc hd, Torus.scale_neg_one, sub_eq_add_neg]

theorem ofDimension_neg (hc : c.OfDimension n) : c.neg.OfDimension n := by
  simpa [OfDimension, neg] using hc

theorem phase_neg (hc : c.OfDimension n) : c.neg.phase s = -c.phase s := by
  have hmultiple : c.neg = ⟨c.words.map (Torus.scale · (-1))⟩ := by simp [neg]
  rw [hmultiple, phase_map_scale hc, Torus.scale_neg_one]

theorem ofDimension_shiftLeft (hc : c.OfDimension n) (bits : ℕ) :
    (c.shiftLeft bits).OfDimension n := by
  simpa [OfDimension, shiftLeft] using hc

/-- Shifting a ciphertext shifts its phase. -/
theorem phase_shiftLeft (hc : c.OfDimension n) (bits : ℕ) :
    (c.shiftLeft bits).phase s = Torus.shiftLeft (c.phase s) bits := by
  simp only [shiftLeft, Torus.shiftLeft_eq_scale, phase_map_scale hc]

/-! ### Checked operations on ciphertexts of one dimension -/

namespace Checked

theorem ofDimension_eq_ok_iff : ofDimension c n = .ok () ↔ c.OfDimension n := by
  simp only [ofDimension, dimension, Outcome.bind_eq_ok_iff, require_eq_ok_iff, Lwe.dimension,
    Outcome.pure_eq_ok_iff, OfDimension]
  constructor
  · rintro ⟨_, ⟨⟨⟩, hpos, rfl⟩, hn⟩
    omega
  · intro h
    exact ⟨_, ⟨(), by omega, rfl⟩, by omega⟩

/-- A ciphertext has a phase when it belongs to the secret. -/
theorem phase_eq_ok_iff {x : BitVec w} :
    phase s c = .ok x ↔ c.OfDimension s.dimension ∧ c.phase s = x := by
  simp only [phase, Outcome.bind_eq_ok_iff, Outcome.pure_eq_ok_iff]
  exact ⟨fun ⟨_, hc, hx⟩ => ⟨ofDimension_eq_ok_iff.1 hc, hx⟩,
    fun ⟨hc, hx⟩ => ⟨(), ofDimension_eq_ok_iff.2 hc, hx⟩⟩

theorem phase_trivial (s : LweSecret) (m : BitVec w) :
    phase s (trivial s.dimension m) = .ok m :=
  phase_eq_ok_iff.2 ⟨ofDimension_trivial _ m, Lwe.phase_trivial _ m⟩

theorem phase_shiftLeft {x : BitVec w} (hx : phase s c = .ok x) (bits : ℕ) :
    phase s (c.shiftLeft bits) = .ok (Torus.shiftLeft x bits) := by
  obtain ⟨hc, rfl⟩ := phase_eq_ok_iff.1 hx
  exact phase_eq_ok_iff.2 ⟨ofDimension_shiftLeft hc bits, Lwe.phase_shiftLeft hc bits⟩

theorem dimension_of (hc : c.OfDimension n) : dimension c = .ok n := by
  rw [dimension, require_of (by rw [hc]; omega), Outcome.ok_bind, Lwe.dimension, hc,
    Nat.add_sub_cancel]
  rfl

theorem exists_add {x y : BitVec w} (hx : phase s c = .ok x) (hy : phase s d = .ok y) :
    ∃ r, add c d = .ok r ∧ phase s r = .ok (x + y) := by
  obtain ⟨hc, rfl⟩ := phase_eq_ok_iff.1 hx
  obtain ⟨hd, rfl⟩ := phase_eq_ok_iff.1 hy
  refine ⟨c.add d, ?_, phase_eq_ok_iff.2 ⟨ofDimension_add hc hd, phase_add hc hd⟩⟩
  rw [add, dimension_of hd, Outcome.ok_bind, ofDimension_eq_ok_iff.2 hc]
  rfl

theorem exists_sub {x y : BitVec w} (hx : phase s c = .ok x) (hy : phase s d = .ok y) :
    ∃ r, sub c d = .ok r ∧ phase s r = .ok (x - y) := by
  obtain ⟨hc, rfl⟩ := phase_eq_ok_iff.1 hx
  obtain ⟨hd, rfl⟩ := phase_eq_ok_iff.1 hy
  refine ⟨c.sub d, ?_, phase_eq_ok_iff.2 ⟨ofDimension_sub hc hd, phase_sub hc hd⟩⟩
  rw [sub, dimension_of hd, Outcome.ok_bind, ofDimension_eq_ok_iff.2 hc]
  rfl

theorem phase_neg {x : BitVec w} (hx : phase s c = .ok x) : phase s c.neg = .ok (-x) := by
  obtain ⟨hc, rfl⟩ := phase_eq_ok_iff.1 hx
  exact phase_eq_ok_iff.2 ⟨ofDimension_neg hc, Lwe.phase_neg hc⟩

theorem exists_addConstant {x : BitVec w} (hx : phase s c = .ok x) (m : BitVec w) :
    ∃ r, addConstant c m = .ok r ∧ phase s r = .ok (x + m) := by
  obtain ⟨hc, rfl⟩ := phase_eq_ok_iff.1 hx
  refine ⟨c.addConstant m, ?_,
    phase_eq_ok_iff.2 ⟨ofDimension_addConstant hc m, phase_addConstant hc m⟩⟩
  rw [addConstant, require_of (by rw [hc]; omega)]
  rfl

end Checked

end Lwe

namespace Glwe

variable {w n k : ℕ} {s : GlweSecret} {c : Glwe w}

open CipherMonitor.Poly

theorem ofDimension_sampleExtract (hc : c.OfDegree n) : (c.sampleExtract k).OfDimension n := by
  simp [Lwe.OfDimension, sampleExtract, Lwe.ofParts, degree, hc.1]

/-- The extracted ciphertext carries coefficient `k` of the phase. -/
theorem phase_sampleExtract (hs : s.degree = n) (hc : c.OfDegree n) (hk : k < n) :
    (c.sampleExtract k).phase s.toLwe = (c.phase s).coeff k := by
  obtain ⟨hb, ha⟩ := hc
  -- Entry `j` of the extracted mask is coefficient `k` of the mask shifted by `j`.
  have hmask : ∀ j < n, (c.a.mulXPow j).coeff k =
      if j ≤ k then c.a.coeff (k - j) else -c.a.coeff (n + k - j) := by
    intro j hj
    rw [coeff_mulXPow _ (ha ▸ hj) (ha ▸ hk), ha, Nat.add_comm k n]
  have hlist : ∀ f : ℕ → BitVec w, List.zipWith Torus.scale ((List.range n).map f)
      s.coeffs.toList = (List.range n).map fun j => Torus.scale (f j) (s.coeffs.getD j 0) := by
    intro f
    have hlength : s.coeffs.size = n := hs
    apply List.ext_getElem <;> simp +contextual [hlength]
  rw [coeff_phase ⟨hb, ha⟩ hk, coeff_mulSmall (ha ▸ hk), Lwe.phase,
    sampleExtract, Lwe.body_ofParts, Lwe.mask_ofParts, Lwe.dot, degree, hb]
  congr 1
  change (List.zipWith Torus.scale _ s.coeffs.toList).sum = _
  rw [hlist]
  refine sum_congr (show range n = range s.coeffs.size from congrArg range hs.symm) fun j hj => ?_
  rw [mem_range, show s.coeffs.size = n from hs] at hj
  rw [hmask j hj]
  rfl

end Glwe

end CipherMonitor
