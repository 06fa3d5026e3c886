import CipherMonitor.Linear
import CipherMonitor.Proofs.Action
import CipherMonitor.Proofs.Glwe.Encryption
import CipherMonitor.Proofs.Poly.Convolution
import CipherMonitor.Proofs.Poly.Rotation

/-!
# Linear programs run on phases

An encryption carries its message with the noise that is drawn, and every linear operation does to
phases what it does to ciphertexts.  So a program of such operations computes the phases of its
results from those of its inputs, whatever the secret is.

* `Linear.Meaning`, `Linear.Meaning.run` — a program on values instead of ciphertexts.
* `Linear.Machine.Simulates`, `Linear.Machine.perform_program` — operations that keep a relation to
  values, and programs of them.
* `Lwe.meaning`, `Lwe.simulates_phase` — LWE ciphertexts.
* `Poly.turn`, `Poly.mulXPow_eq_turn`, `Poly.turn_emod` — products with powers of `X`.
* `Glwe.Carries`, `Glwe.meaning`, `Glwe.simulates_carries` — ring ciphertexts.
* `Glwe.linear_layer` — encryptions, programs and the extraction of coefficients.
-/

namespace CipherMonitor

/-! ### Programs -/

namespace Linear

variable {U B α β : Type}

/-- What the operations do with values. -/
structure Meaning (U B β : Type) where
  unary : U → β → β
  binary : B → β → β → β

/-- An instruction on registers of values. -/
def Meaning.step (meaning : Meaning U B β) (v : ℕ → β) : Instruction U B → ℕ → β
  | .unary operation target a => assign v target (meaning.unary operation (v a))
  | .binary operation target a b => assign v target (meaning.binary operation (v a) (v b))

/-- A program on registers of values. -/
def Meaning.run (meaning : Meaning U B β) (program : List (Instruction U B)) (v : ℕ → β) : ℕ → β :=
  program.foldl meaning.step v

/-- The operations succeed on related arguments, and their results are related. -/
structure Machine.Simulates (machine : Machine U B α) (meaning : Meaning U B β)
    (R : α → β → Prop) : Prop where
  unary : ∀ operation {a x}, R a x →
    ∃ c, machine.unary operation a = .ok c ∧ R c (meaning.unary operation x)
  binary : ∀ operation {a b x y}, R a x → R b y →
    ∃ c, machine.binary operation a b = .ok c ∧ R c (meaning.binary operation x y)

variable {machine : Machine U B α} {meaning : Meaning U B β} {R : α → β → Prop} {r : ℕ → α}
  {v : ℕ → β}

theorem rel_assign (h : ∀ i, R (r i) (v i)) (target : ℕ) {c : α} {x : β} (hc : R c x) (i : ℕ) :
    R (assign r target c i) (assign v target x i) := by
  unfold assign
  split_ifs
  · exact hc
  · exact h i

/-- An instruction keeps the registers related. -/
theorem Machine.perform_step (hsimulates : machine.Simulates meaning R) (h : ∀ i, R (r i) (v i))
    (instruction : Instruction U B) :
    ∃ r', (machine.step instruction).perform r = (.ok (), r') ∧
      ∀ i, R (r' i) (meaning.step v instruction i) := by
  cases instruction with
  | unary operation target a =>
    obtain ⟨c, hc, hrel⟩ := hsimulates.unary operation (h a)
    exact ⟨assign r target c, by rw [step, Action.perform_store, hc], rel_assign h target hrel⟩
  | binary operation target a b =>
    obtain ⟨c, hc, hrel⟩ := hsimulates.binary operation (h a) (h b)
    exact ⟨assign r target c, by rw [step, Action.perform_store, hc], rel_assign h target hrel⟩

/-- A program keeps the registers related. -/
theorem Machine.perform_program (hsimulates : machine.Simulates meaning R)
    (h : ∀ i, R (r i) (v i)) (program : List (Instruction U B)) :
    ∃ r', (program.forM machine.step).perform r = (.ok (), r') ∧
      ∀ i, R (r' i) (meaning.run program v i) := by
  induction program generalizing r v with
  | nil => exact ⟨r, rfl, h⟩
  | cons instruction program ih =>
    obtain ⟨mid, hstep, hmid⟩ := machine.perform_step hsimulates h instruction
    obtain ⟨r', hrun, hr'⟩ := ih hmid
    exact ⟨r', (Action.perform_bind_of_ok hstep _).trans hrun, hr'⟩

end Linear

/-! ### LWE ciphertexts -/

namespace Lwe

variable {w : ℕ} {s : LweSecret}

/-- The operations on phases. -/
def meaning (w : ℕ) : Linear.Meaning (Unary w) Binary (BitVec w) where
  unary
    | .negate, x => -x
    | .addConstant m, x => x + m
    | .shiftLeft bits, x => x <<< bits
  binary
    | .add, x, y => x + y
    | .sub, x, y => x - y

theorem simulates_phase (s : LweSecret) :
    (machine w).Simulates (meaning w) fun c x => Checked.phase s c = .ok x where
  unary operation a x hx := by
    cases operation with
    | negate => exact ⟨a.neg, rfl, Checked.phase_neg hx⟩
    | addConstant m => exact Checked.exists_addConstant hx m
    | shiftLeft bits =>
      refine ⟨a.shiftLeft bits, rfl, ?_⟩
      rw [Checked.phase_shiftLeft hx, Torus.shiftLeft_eq_hShiftLeft]
      rfl
  binary operation a b x y hx hy := by
    cases operation with
    | add => exact Checked.exists_add hx hy
    | sub => exact Checked.exists_sub hx hy

end Lwe

/-! ### Ring ciphertexts -/

namespace Poly

variable {R : Type} [CommRing R]

/-- The product with `X ^ k`: every coefficient comes from `k` places further down, where half a turn
changes the sign. -/
def turn (p : Poly R) (k : ℤ) : Poly R := ofFn p.size fun i => p.entry (i - k)

@[simp] theorem size_turn (p : Poly R) (k : ℤ) : (p.turn k).size = p.size := size_ofFn _ _

theorem coeff_turn {p : Poly R} {i : ℕ} (hi : i < p.size) (k : ℤ) :
    (p.turn k).coeff i = p.entry (i - k) := coeff_ofFn _ hi

theorem mulXPow_eq_turn (p : Poly R) (k : ℤ) : p.mulXPow k = p.turn k :=
  ext_coeff (by simp) fun i hi => by
    rw [size_mulXPow] at hi
    rw [coeff_mulXPow_eq_entry p k hi, coeff_turn hi]

/-- Exponents count modulo `2 * size`. -/
theorem turn_emod (p : Poly R) (k : ℤ) : p.turn (k % (2 * p.size)) = p.turn k := by
  refine ext_coeff (by simp) fun i hi => ?_
  rw [size_turn] at hi
  have hperiodic := (antiperiodic_entry (p := p) rfl (by omega)).periodic_two_mul
  rw [coeff_turn hi, coeff_turn hi, Int.emod_def, sub_sub_eq_add_sub, add_sub_right_comm, mul_comm]
  exact hperiodic.int_mul _ _

end Poly

namespace Glwe

open CipherMonitor.Poly

variable {w : ℕ} {s : GlweSecret}

/-- The operations on phases. -/
def meaning (w : ℕ) : Linear.Meaning (Unary w) Binary (TorusPoly w) where
  unary
    | .addConstant m, p => p.addConstant m
    | .mulXPow k, p => p.turn k
    | .mulXPowSubOne k, p => (p.turn k).sub p
  binary
    | .add, p, q => p.add q
    | .sub, p, q => p.sub q
    | .addScaled factor, p, q => p.add (q.scale (BitVec.ofInt w factor))

/-- The ciphertext has the degree of the secret and the phase `p`. -/
def Carries (s : GlweSecret) (c : Glwe w) (p : TorusPoly w) : Prop :=
  c.OfDegree s.degree ∧ c.phase s = p

section

variable {c d : Glwe w} {p q : TorusPoly w}

theorem Carries.size_eq (h : Carries s c p) : p.size = s.degree := h.2 ▸ size_phase h.1

theorem Carries.add (hc : Carries s c p) (hd : Carries s d q) :
    ∃ r, Checked.add c d = .ok r ∧ Carries s r (p.add q) := by
  have hp := hc.size_eq
  have hq := hd.size_eq
  obtain ⟨hc, rfl⟩ := hc
  obtain ⟨hd, rfl⟩ := hd
  have hsum := ofDegree_add hc hd
  refine ⟨c.add d, ?_, hsum, phase_eq_of_coeff hsum (by rw [size_add, hp, hq, min_self]) ?_⟩
  · rw [Checked.add, sameSizes_of hc hd]
    rfl
  · intro k hk
    rw [coeff_phase_add rfl hc hd hk, coeff_add (hk.trans_eq hp.symm) (hk.trans_eq hq.symm)]

theorem Carries.sub (hc : Carries s c p) (hd : Carries s d q) :
    ∃ r, Checked.sub c d = .ok r ∧ Carries s r (p.sub q) := by
  have hp := hc.size_eq
  have hq := hd.size_eq
  obtain ⟨hc, rfl⟩ := hc
  obtain ⟨hd, rfl⟩ := hd
  have hdifference := ofDegree_sub hc hd
  refine ⟨c.sub d, ?_, hdifference,
    phase_eq_of_coeff hdifference (by rw [size_sub, hp, hq, min_self]) ?_⟩
  · rw [Checked.sub, sameSizes_of hc hd]
    rfl
  · intro k hk
    rw [coeff_phase_sub rfl hc hd hk, coeff_sub (hk.trans_eq hp.symm) (hk.trans_eq hq.symm)]

theorem Carries.addScaled (hc : Carries s c p) (hd : Carries s d q) (factor : ℤ) :
    Carries s (c.addScaled d factor) (p.add (q.scale (BitVec.ofInt w factor))) := by
  have hp := hc.size_eq
  have hq := hd.size_eq
  obtain ⟨hc, rfl⟩ := hc
  obtain ⟨hd, rfl⟩ := hd
  have hsum := ofDegree_addScaled hc d factor
  refine ⟨hsum, phase_eq_of_coeff hsum (by rw [size_add, size_scale, hp, hq, min_self]) ?_⟩
  intro k hk
  rw [coeff_phase_addScaled rfl hc hd factor hk, coeff_add (hk.trans_eq hp.symm)
    (by rwa [size_scale, hq]), coeff_scale _ (hk.trans_eq hq.symm), Torus.scale]

theorem Carries.addConstant (hpos : 0 < s.degree) (hc : Carries s c p) (m : BitVec w) :
    ∃ r, Checked.addConstant c m = .ok r ∧ Carries s r (p.addConstant m) := by
  have hp := hc.size_eq
  obtain ⟨hc, rfl⟩ := hc
  have hsum := ofDegree_addConstant hc m
  refine ⟨c.addConstant m, ?_, hsum, phase_eq_of_coeff hsum (by rw [size_addConstant, hp]) ?_⟩
  · rw [Checked.addConstant, require_of (by rwa [hc.1])]
    rfl
  · intro k hk
    rw [coeff_phase_addConstant hc m hk, coeff_addConstant (hk.trans_eq hp.symm)]

theorem Carries.mulXPow (hpower : s.degree.isPowerOfTwo) (hc : Carries s c p) (k : ℤ) :
    ∃ r, Checked.mulXPow c k = .ok r ∧ Carries s r (p.turn k) := by
  have hp := hc.size_eq
  obtain ⟨hc, rfl⟩ := hc
  have hturn := ofDegree_mulXPow hc k
  refine ⟨c.mulXPow k, ?_, hturn, phase_eq_of_coeff hturn (by rw [size_turn, hp]) ?_⟩
  · have hpos : 0 < c.a.size := hc.2 ▸ Nat.pos_of_isPowerOfTwo hpower
    have hdegree : c.degree = (c.a.mulXPow k).size := hc.1.trans hturn.2.symm
    rw [Checked.mulXPow, degreeOk, require_of (by rwa [degree, hc.1]), Outcome.ok_bind,
      require_of ⟨hpos, by rw [hdegree, size_mulXPow]⟩, hdegree, ofFn_coeff]
    rfl
  · intro i hi
    rw [coeff_phase_mulXPow hc k hi, coeff_turn (hi.trans_eq hp.symm)]

theorem Carries.mulXPowSubOne (hpower : s.degree.isPowerOfTwo) (hc : Carries s c p) (k : ℤ) :
    ∃ r, Checked.mulXPowSubOne c k = .ok r ∧ Carries s r ((p.turn k).sub p) := by
  have hp := hc.size_eq
  obtain ⟨hc, rfl⟩ := hc
  have hdifference : (c.mulXPowSubOne k).OfDegree s.degree :=
    ofDegree_sub (ofDegree_mulXPow hc k) hc
  refine ⟨c.mulXPowSubOne k, ?_, hdifference,
    phase_eq_of_coeff hdifference (by rw [size_sub, size_turn, hp, min_self]) ?_⟩
  · rw [Checked.mulXPowSubOne, degreeOk, require_of (by rwa [degree, hc.1]), Outcome.ok_bind,
      require_of (show c.a.size = c.degree from hc.2.trans hc.1.symm)]
    rfl
  · intro i hi
    have hi' := hi.trans_eq hp.symm
    rw [coeff_phase_mulXPowSubOne rfl hc k hi, coeff_sub (by rwa [size_turn]) hi', coeff_turn hi']

/-- A coefficient is extracted with its own phase. -/
theorem Carries.sampleExtract (hc : Carries s c p) {k : ℕ} (hk : k < s.degree) :
    ∃ r, Checked.sampleExtract c k = .ok r ∧ Lwe.Checked.phase s.toLwe r = .ok (p.coeff k) := by
  obtain ⟨hc, rfl⟩ := hc
  refine ⟨c.sampleExtract k, ?_, Lwe.Checked.phase_eq_ok_iff.2
    ⟨ofDimension_sampleExtract hc, phase_sampleExtract rfl hc hk⟩⟩
  rw [Checked.sampleExtract, require_of (by rwa [degree, hc.1]), Outcome.ok_bind,
    require_of (by rw [degree, hc.1, hc.2])]
  rfl

end

theorem simulates_carries (hpower : s.degree.isPowerOfTwo) :
    (machine w).Simulates (meaning w) (Carries s) where
  unary operation a p hp := by
    cases operation with
    | addConstant m => exact hp.addConstant (Nat.pos_of_isPowerOfTwo hpower) m
    | mulXPow k => exact hp.mulXPow hpower k
    | mulXPowSubOne k => exact hp.mulXPowSubOne hpower k
  binary operation a b p q hp hq := by
    cases operation with
    | add => exact hp.add hq
    | sub => exact hp.sub hq
    | addScaled factor => exact ⟨a.addScaled b factor, rfl, hp.addScaled hq factor⟩

/-! ### The linear layer -/

/-- For words of any width, any secrets and any sources, an encryption has the message and the noise
that is drawn for its phase; this noise is what is added to any polynomial, so that it depends on its
source alone.  Every program of linear operations succeeds, and the phases of its results are those
of the program run on phases, also after the extraction of any coefficient.  Here the phase is that of
the schoolbook loop, and products with powers of `X` turn a polynomial. -/
theorem linear_layer (w : ℕ) :
    (∀ sigma d, noise sigma = .ok d → ∀ xe e xe', (Torus.noiseWord d w).run xe = .ok (e, xe') →
      (∀ x, (Torus.addNoise d #[x]).run xe = .ok (#[x + e], xe')) ∧
      ∀ (s : LweSecret) (old : Lwe w), old.OfDimension s.dimension → ∀ m xa,
        ∃ c xa', Lwe.Checked.encrypt old s m sigma xa xe = .ok (c, xa', xe') ∧
          Lwe.Checked.phase s c = .ok (m + e)) ∧
    (∀ sigma d, noise sigma = .ok d → ∀ n : ℕ, n.isPowerOfTwo → ∀ xe e xe',
      (TorusPoly.addNoise (Poly.zero n : TorusPoly w) d).run xe = .ok (e, xe') →
      (∀ p : TorusPoly w, p.size = n → (TorusPoly.addNoise p d).run xe = .ok (p.add e, xe')) ∧
      ∀ (s : GlweSecret) (old : Glwe w), s.degree = n → old.OfDegree n → ∀ m : TorusPoly w,
        m.size = n → ∀ xa, ∃ c xa', Glwe.Checked.encrypt old s m sigma xa xe = .ok (c, xa', xe') ∧
          Glwe.Checked.phase s c = .ok (m.add e)) ∧
    (∀ (s : LweSecret) (r : ℕ → Lwe w), (∀ i, (r i).OfDimension s.dimension) →
      ∀ program : List (Linear.Instruction (Lwe.Unary w) Lwe.Binary),
        ∃ r', (program.forM (Lwe.machine w).step).perform r = (.ok (), r') ∧
          ∀ i, Lwe.Checked.phase s (r' i) =
            .ok ((Lwe.meaning w).run program (fun i => (r i).phase s) i)) ∧
    (∀ (s : GlweSecret) (c : Glwe w), c.OfDegree s.degree →
      c.phase s = c.b.add (c.a.mulSmallTerms s.coeffs)) ∧
    (∀ (p : TorusPoly w) (k : ℤ), p.mulXPow k = p.turn k ∧ p.turn (k % (2 * p.size)) = p.turn k) ∧
    ∀ (s : GlweSecret) (r : ℕ → Glwe w), s.degree.isPowerOfTwo → (∀ i, (r i).OfDegree s.degree) →
      ∀ program : List (Linear.Instruction (Glwe.Unary w) Glwe.Binary),
        ∃ r', (program.forM (Glwe.machine w).step).perform r = (.ok (), r') ∧
          ∀ i, Glwe.Checked.phase s (r' i) =
              .ok ((Glwe.meaning w).run program (fun i => (r i).phase s) i) ∧
            ∀ j < s.degree, ∃ c, Glwe.Checked.sampleExtract (r' i) j = .ok c ∧
              Lwe.Checked.phase s.toLwe c =
                .ok (((Glwe.meaning w).run program (fun i => (r i).phase s) i).coeff j) := by
  refine ⟨fun sigma d hd xe e xe' he => ⟨fun x => ?_, fun s old hold m xa => ?_⟩,
    fun sigma d hd n hpower xe e xe' he => ⟨fun p hp => ?_, fun s old hs hold m hm xa => ?_⟩,
    fun s r hr program => ?_, fun s c hc => ?_, fun p k => ⟨mulXPow_eq_turn p k, turn_emod p k⟩,
    fun s r hpower hr program => ?_⟩
  · have hword : Torus.addNoise d #[x] = (fun e => #[x + e]) <$> Torus.noiseWord d w := by
      simp [Torus.addNoise, Torus.noiseWord]
    rw [hword, StateT.run_map, he]
    rfl
  · exact Lwe.Checked.exists_encrypt hd he hold m xa
  · subst hp
    rw [TorusPoly.addNoise_eq_map, StateT.run_map, he]
    rfl
  · subst hs
    exact Glwe.Checked.exists_encrypt hpower hd he hold hm xa
  · have hphase : ∀ i, Lwe.Checked.phase s (r i) = .ok ((r i).phase s) :=
      fun i => Lwe.Checked.phase_eq_ok_iff.2 ⟨hr i, rfl⟩
    exact (Lwe.machine w).perform_program (Lwe.simulates_phase s) hphase program
  · rw [phase, mulSmallTerms_eq_mulSmall hc.2 rfl]
  · obtain ⟨r', hrun, hr'⟩ := (Glwe.machine w).perform_program (Glwe.simulates_carries hpower)
      (fun i => ⟨hr i, rfl⟩) program
    refine ⟨r', hrun, fun i => ⟨?_, fun j hj => (hr' i).sampleExtract hj⟩⟩
    rw [Glwe.Checked.phase_of hpower (hr' i).1, (hr' i).2]

/-- A source of two words in turn. -/
def twoWords : Source := .ofWords fun i => if i % 2 = 0 then 0x12345678 else 0x90000000

theorem exists_noise_twoWords : ∃ d e xe p xe', noise 0.001 = .ok d ∧
    (Torus.noiseWord d 32).run twoWords = .ok (e, xe) ∧
    (TorusPoly.addNoise (Poly.zero 2 : TorusPoly 32) d).run twoWords = .ok (p, xe') := by
  have hrun : (do
      let d ← noise 0.001
      let e ← (Torus.noiseWord d 32).run twoWords
      let p ← (TorusPoly.addNoise (Poly.zero 2 : TorusPoly 32) d).run twoWords
      pure (e, p) : Outcome _).isOk = true := by decide +kernel
  obtain ⟨_, hrun⟩ := Outcome.exists_of_isOk hrun
  obtain ⟨d, hd, hrun⟩ := Outcome.bind_eq_ok_iff.1 hrun
  obtain ⟨⟨e, xe⟩, he, hrun⟩ := Outcome.bind_eq_ok_iff.1 hrun
  obtain ⟨⟨p, xe'⟩, hp, -⟩ := Outcome.bind_eq_ok_iff.1 hrun
  exact ⟨d, e, xe, p, xe', hd, he, hp⟩

/-- Encryptions with noise, and programs that shift, and turn backwards by more than a full turn. -/
theorem linear_layer_twoWords :
    (∃ e c xa xe, Lwe.Checked.encrypt (Lwe.trivial 2 0) ⟨#[1, -1]⟩ 5 0.001 twoWords twoWords =
        .ok (c, xa, xe) ∧ Lwe.Checked.phase ⟨#[1, -1]⟩ c = .ok (5 + e : BitVec 32)) ∧
    (∃ e c xa xe, Glwe.Checked.encrypt (Glwe.zero 2) ⟨#[1, -1]⟩ ⟨#[5, 0]⟩ 0.001 twoWords twoWords =
        .ok (c, xa, xe) ∧
      Glwe.Checked.phase ⟨#[1, -1]⟩ c = .ok (Poly.add ⟨#[5, 0]⟩ e : TorusPoly 32)) ∧
    (∃ r', ([.binary .add 1 0 0, .unary (.shiftLeft 2) 1 1, .unary .negate 1 1].forM
        (Lwe.machine 32).step).perform (fun _ => ⟨#[9, 4, 1]⟩) = (.ok (), r') ∧
      Lwe.Checked.phase ⟨#[1, -1]⟩ (r' 1) = .ok (-96)) ∧
    ∃ r', ([.unary (.mulXPow (-5)) 1 0, .binary (.addScaled (-2)) 1 1 0].forM
        (Glwe.machine 32).step).perform (fun _ => ⟨⟨#[3, 1]⟩, ⟨#[2, 0]⟩⟩) = (.ok (), r') ∧
      Glwe.Checked.phase ⟨#[1, -1]⟩ (r' 1) = .ok ⟨#[-11, -3]⟩ ∧
      ∃ c, Glwe.Checked.sampleExtract (r' 1) 1 = .ok c ∧
        Lwe.Checked.phase ⟨#[1, -1]⟩ c = .ok (-3) := by
  obtain ⟨d, e, xe, p, xe', hd, he, hp⟩ := exists_noise_twoWords
  obtain ⟨hlwe, hglwe, hwords, -, -, hpolys⟩ := linear_layer 32
  refine ⟨?_, ?_, ?_, ?_⟩
  · obtain ⟨c, xa', hrun⟩ := (hlwe 0.001 d hd twoWords e xe he).2 ⟨#[1, -1]⟩ (Lwe.trivial 2 0)
      rfl 5 twoWords
    exact ⟨e, c, xa', xe, hrun⟩
  · obtain ⟨c, xa', hrun⟩ := (hglwe 0.001 d hd 2 ⟨1, rfl⟩ twoWords p xe' hp).2 ⟨#[1, -1]⟩
      (Glwe.zero 2) rfl ⟨rfl, rfl⟩ ⟨#[5, 0]⟩ rfl twoWords
    exact ⟨p, c, xa', xe', hrun⟩
  · obtain ⟨r', hrun, hphase⟩ := hwords ⟨#[1, -1]⟩ (fun _ => ⟨#[9, 4, 1]⟩) (fun _ => rfl)
      [.binary .add 1 0 0, .unary (.shiftLeft 2) 1 1, .unary .negate 1 1]
    refine ⟨r', hrun, (hphase 1).trans ?_⟩
    decide +kernel
  · obtain ⟨r', hrun, hphase⟩ := hpolys ⟨#[1, -1]⟩ (fun _ => ⟨⟨#[3, 1]⟩, ⟨#[2, 0]⟩⟩) ⟨1, rfl⟩
      (fun _ => ⟨rfl, rfl⟩) [.unary (.mulXPow (-5)) 1 0, .binary (.addScaled (-2)) 1 1 0]
    obtain ⟨c, hc, hextract⟩ := (hphase 1).2 1 (by decide)
    refine ⟨r', hrun, (hphase 1).1.trans ?_, c, hc, hextract.trans ?_⟩
    all_goals decide +kernel

end Glwe

end CipherMonitor
