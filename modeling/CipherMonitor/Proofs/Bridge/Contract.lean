import CipherMonitor.Bridge.Conversion
import CipherMonitor.Proofs.Glwe.Phase
import CipherMonitor.Proofs.Outcome

/-!
# What automata rely on

Encrypted automata read gadget ciphertexts of bits and refresh their ring ciphertexts.  Both change
constant coefficients of phases by a bounded noise.

* `Glwe.constantPhase` — the constant coefficient of the phase.
* `PreparedGgsw.Encrypts` — products with the ciphertext are products with a bit, up to noise.
* `PreparedGgsw.Encrypts.selectChecked` — the choice between two ciphertexts.
* `SchemeBridge.Refreshes` — signs are rotated to fresh ring ciphertexts.
* `SchemeBridge.Refreshes.degreeOk`, `SchemeBridge.ofDegree_signRotate` — the ring of the result.
* `zeroBridge_refreshes`, `zeroBit_encrypts` — a bridge and a ciphertext without any noise.
-/

namespace CipherMonitor

open Torus

/-- The constant coefficient of the phase. -/
def Glwe.constantPhase (s : GlweSecret) (c : Glwe 32) : BitVec 32 := (c.phase s).coeff 0

namespace PreparedGgsw

/-- The product with a ring ciphertext has the constant phase of that ciphertext times the bit, up to
noise of at most `eps`. -/
def Encrypts (t : Fourier) (s : GlweSecret) (eps : ℕ) (c : PreparedGgsw) (bit : Bool) : Prop :=
  ∀ g : Glwe 32, g.OfDegree s.degree → ∃ r, c.externalProductChecked t g = .ok r ∧
    distance (r.constantPhase s) (if bit then g.constantPhase s else 0) ≤ eps

variable {t : Fourier} {s : GlweSecret} {eps n : ℕ} {c : PreparedGgsw} {bit : Bool}

theorem fits_eq_ok_iff {g : Glwe 32} :
    c.fits t g = .ok () ↔ t.n = g.degree ∧ c.rows ≠ [] ∧ c.degree = g.degree ∧
      c.gadget.base2k < 64 ∧ g.a.size ≤ g.degree := by
  simp [fits, degreeChecked, Outcome.bind_eq_ok_iff]

/-- A ciphertext of the degree needs no padding. -/
theorem externalProductChecked_eq {g : Glwe 32} (hg : g.OfDegree n) :
    c.externalProductChecked t g = c.fits t g >>= fun _ => pure (c.externalProduct t g) := by
  have hpad : Poly.ofFn g.degree g.a.coeff = g.a :=
    Poly.ext_coeff (by simp [Glwe.degree, hg.1, hg.2]) fun i hi => by
      rw [Poly.size_ofFn] at hi
      exact Poly.coeff_ofFn _ hi
  rw [externalProductChecked, hpad]

/-- The checks pass, and the product is that of the bit. -/
theorem Encrypts.externalProduct (h : c.Encrypts t s eps bit) {g : Glwe 32}
    (hg : g.OfDegree s.degree) : c.fits t g = .ok () ∧
      distance ((c.externalProduct t g).constantPhase s) (if bit then g.constantPhase s else 0) ≤
        eps := by
  obtain ⟨r, hr, hdist⟩ := h g hg
  rw [externalProductChecked_eq hg] at hr
  obtain ⟨⟨⟩, hfits, hr⟩ := Outcome.bind_eq_ok_iff.1 hr
  obtain rfl := Outcome.pure_eq_ok_iff.1 hr
  exact ⟨hfits, hdist⟩

/-- The tables and the bit have the degree of the secret. -/
theorem Encrypts.degree (h : c.Encrypts t s eps bit) :
    t.n = s.degree ∧ c.rows ≠ [] ∧ c.degree = s.degree := by
  have hzero : (Glwe.zero s.degree : Glwe 32).OfDegree s.degree := Glwe.ofDegree_zero _
  obtain ⟨ht, hrows, hc, -⟩ := fits_eq_ok_iff.1 (h.externalProduct hzero).1
  rw [Glwe.degree, hzero.1] at ht hc
  exact ⟨ht, hrows, hc⟩

end PreparedGgsw

namespace Glwe

variable {s : GlweSecret} {c d : Glwe 32}

section

variable (hpos : 0 < s.degree) (hc : c.OfDegree s.degree)

include hpos hc

theorem constantPhase_add (hd : d.OfDegree s.degree) :
    (c.add d).constantPhase s = c.constantPhase s + d.constantPhase s :=
  coeff_phase_add rfl hc hd hpos

theorem constantPhase_sub (hd : d.OfDegree s.degree) :
    (c.sub d).constantPhase s = c.constantPhase s - d.constantPhase s :=
  coeff_phase_sub rfl hc hd hpos

theorem constantPhase_addConstant (m : BitVec 32) :
    (c.addConstant m).constantPhase s = c.constantPhase s + m :=
  coeff_phase_addConstant hc m hpos

/-- The check of sample extraction passes, and the constant phase is extracted. -/
theorem sampleExtract_zero : Checked.sampleExtract c 0 = .ok (c.sampleExtract 0) ∧
    (c.sampleExtract 0).OfDimension s.degree ∧
    (c.sampleExtract 0).phase s.toLwe = c.constantPhase s := by
  have hdegree : c.degree = s.degree := hc.1
  refine ⟨?_, ofDimension_sampleExtract hc, phase_sampleExtract rfl hc hpos⟩
  rw [Checked.sampleExtract, require_of (by omega), require_of (by rw [hc.2]; omega)]
  rfl

end

theorem constantPhase_constant (hpos : 0 < s.degree) (m : BitVec 32) :
    (constant s.degree m).constantPhase s = m := coeff_phase_constant rfl m hpos

theorem constantPhase_zero (hpos : 0 < s.degree) :
    (zero s.degree : Glwe 32).constantPhase s = 0 := coeff_phase_zero rfl hpos

end Glwe

/-- The choice between two ciphertexts succeeds, with the constant phase of the chosen one up to
noise. -/
theorem PreparedGgsw.Encrypts.selectChecked {t : Fourier} {s : GlweSecret} {eps : ℕ}
    {c : PreparedGgsw} {bit : Bool} (h : c.Encrypts t s eps bit) (hpos : 0 < s.degree) {c1 c0 : Glwe 32}
    (h1 : c1.OfDegree s.degree) (h0 : c0.OfDegree s.degree) :
    ∃ r, c.selectChecked t c1 c0 = .ok r ∧ r.OfDegree s.degree ∧
      distance (r.constantPhase s) (if bit then c1.constantPhase s else c0.constantPhase s) ≤
        eps := by
  have hsub := Glwe.ofDegree_sub h1 h0
  have hproduct : (c.externalProduct t (c1.sub c0)).OfDegree s.degree :=
    h.degree.1 ▸ ofDegree_externalProduct t c _
  refine ⟨c.select t c1 c0, ?_, Glwe.ofDegree_add hproduct h0, ?_⟩
  · rw [PreparedGgsw.selectChecked, Glwe.sameSizes_of h1 h0, (h.externalProduct h1).1,
      require_of (h0.2.trans h.degree.1.symm)]
    rfl
  · have hdist := (h.externalProduct hsub).2
    rw [PreparedGgsw.select, Glwe.constantPhase_add hpos hproduct h0]
    rw [Glwe.constantPhase_sub hpos h1 h0] at hdist
    rw [← distance_add_right _ _ (c0.constantPhase s)] at hdist
    cases bit <;> simpa using hdist

namespace SchemeBridge

/-- Phases within `delta` of the word of a verdict are brought within `rho` of it. -/
def Refreshes (b : SchemeBridge) (s : GlweSecret) (delta rho : ℕ) : Prop :=
  ∀ (l : Lwe 32) (accepting : Bool), l.OfDimension s.degree →
    distance (l.phase s.toLwe) (signWord accepting) ≤ delta →
      ∃ r, b.signRotate l eighth = .ok r ∧
        distance (r.constantPhase s) (signWord accepting) ≤ rho

variable {b : SchemeBridge} {s : GlweSecret} {delta rho : ℕ} {l : Lwe 32} {r : Glwe 32}
  {mu : BitVec 32}

/-- What the checks of a successful rotation say about its keys. -/
theorem signRotate_ok (h : b.signRotate l mu = .ok r) :
    ∃ (k : KeyBundle) (body : ℕ) (mask : List ℕ), k.blindRotation.degree = b.tfhe.midDegree ∧
      (2 * b.tfhe.midDegree).isPowerOfTwo ∧
      (∀ x ∈ mask.zip k.blindRotation.keys, x.1 ≠ 0 → b.tables.n = b.tfhe.midDegree) ∧
      r = k.blindRotation.accumulate b.tables body mask
        (BlindRotationKey.constantTest b.tfhe.midDegree mu) := by
  obtain ⟨k, -, h⟩ := Outcome.bind_eq_ok_iff.1 h
  obtain ⟨fine, -, h⟩ := Outcome.bind_eq_ok_iff.1 h
  obtain ⟨-, -, h⟩ := Outcome.bind_eq_ok_iff.1 h
  obtain ⟨⟨⟩, hdegree, h⟩ := Outcome.bind_eq_ok_iff.1 h
  obtain ⟨body, hbody, h⟩ := Outcome.bind_eq_ok_iff.1 h
  obtain ⟨mask, -, h⟩ := Outcome.bind_eq_ok_iff.1 h
  obtain ⟨⟨⟩, hfits, h⟩ := Outcome.bind_eq_ok_iff.1 h
  rw [require_eq_ok_iff, BlindRotationKey.constantTest, Poly.size_replicate] at hdegree
  obtain ⟨⟨⟩, hpower, -⟩ := Outcome.bind_eq_ok_iff.1 hbody
  rw [require_eq_ok_iff, ← hdegree] at hpower
  refine ⟨k, body, mask, hdegree.symm, hpower, ?_, (Outcome.pure_eq_ok_iff.1 h).symm⟩
  intro x hx hne
  have hx := Outcome.forM_eq_ok_iff.1 hfits x hx
  simp only [hne, if_false] at hx
  rw [(PreparedGgsw.fits_eq_ok_iff.1 hx).1, Glwe.degree, (Glwe.ofDegree_zero _).1, hdegree]

/-- Rotation gives a ciphertext of the degree of the bridge. -/
theorem ofDegree_signRotate (h : b.signRotate l mu = .ok r) : r.OfDegree b.tfhe.midDegree := by
  obtain ⟨k, body, mask, -, -, htables, rfl⟩ := signRotate_ok h
  -- A step that turns by nothing leaves the accumulator alone, so only the others need the tables.
  have hloop : ∀ (steps : List (ℕ × PreparedGgsw)) (acc : Glwe 32),
      (∀ x ∈ steps, x.1 ≠ 0 → b.tables.n = b.tfhe.midDegree) → acc.OfDegree b.tfhe.midDegree →
      (steps.foldl (fun acc x => BlindRotationKey.step b.tables acc x.1 x.2) acc).OfDegree
        b.tfhe.midDegree := by
    intro steps
    induction steps with
    | nil => exact fun _ _ hacc => hacc
    | cons x steps ih =>
      intro acc hsteps hacc
      refine ih _ (fun y hy => hsteps y (List.mem_cons_of_mem _ hy)) ?_
      change (BlindRotationKey.step b.tables acc x.1 x.2).OfDegree _
      rw [BlindRotationKey.step]
      split_ifs with hx
      · exact hacc
      · have hn := hsteps x (List.mem_cons_self ..) hx
        exact Glwe.ofDegree_add hacc (hn ▸ PreparedGgsw.ofDegree_externalProduct _ _ _)
  refine hloop _ _ htables ?_
  simp [Glwe.OfDegree, Glwe.trivial, BlindRotationKey.constantTest]

/-- A bridge that refreshes has a ring degree. -/
theorem Refreshes.degreeOk (h : b.Refreshes s delta rho) :
    Poly.degreeOk b.tfhe.midDegree = .ok () ∧ 0 < b.tfhe.midDegree := by
  have htrivial : distance ((Lwe.trivial s.degree eighth).phase s.toLwe) (signWord true) ≤ delta := by
    rw [Lwe.phase_trivial]
    simp [signWord]
  -- Any rotation that succeeds has checked that twice the degree is a power of two.
  obtain ⟨r, hr, -⟩ := h _ true (Lwe.ofDimension_trivial s.degree eighth) htrivial
  obtain ⟨-, -, -, -, hpower, -⟩ := signRotate_ok hr
  obtain ⟨e, he⟩ := hpower
  cases e with
  | zero => omega
  | succ e =>
    have hdegree : b.tfhe.midDegree = 2 ^ e := by omega
    refine ⟨require_of ⟨e, hdegree⟩, ?_⟩
    exact hdegree ▸ Nat.two_pow_pos e

/-- Refreshing the constant coefficient of a ring ciphertext. -/
theorem Refreshes.signRotate (h : b.Refreshes s delta rho) (hs : s.degree = b.tfhe.midDegree)
    {accepting : Bool} (hl : l.OfDimension s.degree)
    (hdist : distance (l.phase s.toLwe) (signWord accepting) ≤ delta) :
    ∃ r, b.signRotate l eighth = .ok r ∧ r.OfDegree s.degree ∧
      distance (r.constantPhase s) (signWord accepting) ≤ rho := by
  obtain ⟨r, hr, hrho⟩ := h l accepting hl hdist
  exact ⟨r, hr, hs ▸ ofDegree_signRotate hr, hrho⟩

end SchemeBridge

/-! ### A bridge without noise -/

/-- The secret of degree four without any nonzero coefficient. -/
def zeroSecret : GlweSecret := ⟨#[0, 0, 0, 0]⟩

/-- The tables of degree four. -/
def tablesOfFour : Fourier where
  n := 4
  twistRe := ⟨#[1.0, 0.7071067811865476]⟩
  twistIm := ⟨#[0.0, 0.7071067811865475]⟩
  omegaRe := ⟨#[1.0, -1.0]⟩
  omegaIm := ⟨#[-0.0, -0.00000000000000012246467991473532]⟩
  reversal := #[0, 1]

/-- The keys between zero secrets, with a fine level of dimension zero. -/
def zeroKeys : KeyBundle where
  coarseToMid := ⟨[], ⟨1, 1⟩, 4⟩
  midToFine := ⟨[[], [], [], []], ⟨1, 1⟩, 0⟩
  blindRotation := ⟨[], 4⟩
  circuit := ⟨⟨[], ⟨1, 1⟩, .identity, 4⟩, ⟨[], ⟨1, 1⟩, .timesSecret, 4⟩, ⟨1, 1⟩⟩

/-- A bridge between zero secrets. -/
def zeroBridge : SchemeBridge where
  ckks := .small
  tfhe := { Tfhe.Parameters.small with midDegree := 4, fineDimension := 0 }
  config := {}
  tables := tablesOfFour
  keys := some zeroKeys

/-- The gadget ciphertext of zero whose rows are zero. -/
def zeroBit : PreparedGgsw where
  rows := List.replicate 2 (tablesOfFour.zero, tablesOfFour.zero)
  gadget := ⟨1, 1⟩
  degree := 4

theorem Lwe.dot_of_zero (mask : List (BitVec 32)) {s : List ℤ} (hs : ∀ d ∈ s, d = 0) :
    dot mask s = 0 := by
  induction mask generalizing s with
  | nil => simp [dot]
  | cons x mask ih =>
    cases s with
    | nil => simp [dot]
    | cons d s =>
      have hrest := ih fun e he => hs e (List.mem_cons_of_mem _ he)
      rw [dot] at hrest ⊢
      rw [List.zipWith_cons_cons, List.sum_cons, hrest, hs d (List.mem_cons_self ..), Torus.scale]
      simp

/-- Under a zero secret the phase is the body. -/
theorem phase_zeroSecret (l : Lwe 32) : l.phase zeroSecret.toLwe = l.body := by
  rw [Lwe.phase, Lwe.dot_of_zero _ (by simp [zeroSecret, GlweSecret.toLwe]), add_zero]

theorem Torus.ofWide_toWide (x : BitVec 32) : ofWide 32 (toWide x) = x := by
  have hx := x.isLt
  rw [ofWide, toWide, BitVec.toNat_ofNat]
  apply BitVec.eq_of_toNat_eq
  rw [BitVec.toNat_ofNat]
  omega

/-- A key without digits replaces nothing of the mask. -/
theorem zeroKeys_switch (l : Lwe 32) :
    zeroKeys.midToFine.switch l = Lwe.trivial 0 l.body := by
  have hloop : ∀ (rows : List (BitVec 32 × List (Lwe 32))) (sum : Lwe 32),
      (∀ x ∈ rows, x.2 = []) →
      rows.foldl (fun sum x => LweSwitchingKey.addRow sum
        (zeroKeys.midToFine.gadget.signedDigits x.1) x.2) sum = sum := by
    intro rows
    induction rows with
    | nil => exact fun _ _ => rfl
    | cons x rows ih =>
      intro sum hrows
      rw [List.foldl_cons, hrows x (List.mem_cons_self ..), LweSwitchingKey.addRow,
        List.zip_nil_right]
      exact ih sum fun y hy => hrows y (List.mem_cons_of_mem _ hy)
  have hrows : ∀ x ∈ l.mask.zip zeroKeys.midToFine.rows, x.2 = [] := by
    intro x hx
    have := (List.of_mem_zip (show (x.1, x.2) ∈ _ from hx)).2
    simpa [zeroKeys] using this
  rw [LweSwitchingKey.switch, Torus.ofWide_toWide]
  exact hloop _ _ hrows

theorem zeroKeys_switchChecked {l : Lwe 32} (hl : l.OfDimension 4) :
    zeroKeys.midToFine.switchChecked l = .ok (Lwe.trivial 0 l.body) := by
  have hdimension : Lwe.Checked.ofDimension l zeroKeys.midToFine.nIn = .ok () :=
    Lwe.Checked.ofDimension_eq_ok_iff.2 hl
  rw [LweSwitchingKey.switchChecked, hdimension, Outcome.ok_bind, zeroKeys_switch]
  rfl

/-- The rotation steps of a phase. -/
def rotationSteps (x : BitVec 32) : ℕ :=
  (toWide x + BitVec.ofNat 64 (2 ^ 60)).toNat / 2 ^ 61

theorem zeroBridge_signRotate {l : Lwe 32} (hl : l.OfDimension 4) (mu : BitVec 32) :
    zeroBridge.signRotate l mu = .ok (Glwe.trivial
      ((BlindRotationKey.constantTest 4 mu).mulXPow (-(rotationSteps l.body)))) := by
  -- The mask is gone, so the test polynomial is turned by the body alone.
  have hrotate : zeroKeys.blindRotation.rotate tablesOfFour (Lwe.trivial 0 l.body)
      (BlindRotationKey.constantTest 4 mu) = .ok (Glwe.trivial
        ((BlindRotationKey.constantTest 4 mu).mulXPow (-(rotationSteps l.body)))) := by
    rfl
  change (zeroKeys.midToFine.switchChecked l >>= fun fine => zeroKeys.blindRotation.rotate
    tablesOfFour fine (BlindRotationKey.constantTest 4 mu)) = _
  rw [zeroKeys_switchChecked hl, Outcome.ok_bind, hrotate]

/-- Phases close to a verdict are rotated by one step or by seven. -/
theorem rotationSteps_of_distance {x : BitVec 32} {accepting : Bool}
    (h : distance x (signWord accepting) ≤ 2 ^ 28 - 1) :
    rotationSteps x = if accepting then 1 else 7 := by
  have hx := x.isLt
  rw [distance, BitVec.toInt_sub, Int.bmod_def, BitVec.toInt_eq_toNat_cond] at h
  rw [rotationSteps, toWide, BitVec.toNat_add, BitVec.toNat_ofNat, BitVec.toNat_ofNat]
  cases accepting with
  | true =>
    have hword : (signWord true).toInt = 2 ^ 29 := by decide
    rw [hword] at h
    split_ifs at h <;> simp only [if_true] <;> omega
  | false =>
    have hword : (signWord false).toInt = -2 ^ 29 := by decide
    rw [hword] at h
    split_ifs at h <;> simp only [Bool.false_eq_true, if_false] <;> omega

/-- The bridge between zero secrets refreshes without noise. -/
theorem zeroBridge_refreshes : zeroBridge.Refreshes zeroSecret (2 ^ 28 - 1) 0 := by
  intro l accepting hl hdist
  rw [phase_zeroSecret] at hdist
  refine ⟨_, zeroBridge_signRotate hl eighth, ?_⟩
  rw [rotationSteps_of_distance hdist]
  cases accepting <;> decide +kernel

/-- Digits of one bit, times a row of zeros. -/
theorem addMul_zero (x y z w : ℤ) (hx : x = -1 ∨ x = 0) (hy : y = -1 ∨ y = 0)
    (hz : z = -1 ∨ z = 0) (hw : w = -1 ∨ w = 0) :
    tablesOfFour.zero.addMul (tablesOfFour.ofInts #[x, y, z, w]) tablesOfFour.zero =
      tablesOfFour.zero := by
  -- Sixteen products, evaluated one by one.
  have hdata : ∀ x ∈ [(-1 : ℤ), 0], ∀ y ∈ [(-1 : ℤ), 0], ∀ z ∈ [(-1 : ℤ), 0], ∀ w ∈ [(-1 : ℤ), 0],
      let product := tablesOfFour.zero.addMul (tablesOfFour.ofInts #[x, y, z, w]) tablesOfFour.zero
      product.re.data = tablesOfFour.zero.re.data ∧
        product.im.data = tablesOfFour.zero.im.data := by
    decide +kernel
  obtain ⟨hre, him⟩ := hdata x (by simpa using hx) y (by simpa using hy) z (by simpa using hz) w
    (by simpa using hw)
  exact congrArg₂ (fun re im => Spectrum.mk ⟨re⟩ ⟨im⟩) hre him

theorem digitRows_one_bit {p : TorusPoly 32} (hp : p.size = 4) :
    ∃ x y z w : ℤ, (⟨1, 1⟩ : Gadget).digitRows p.coeffs = [#[x, y, z, w]] ∧ (x = -1 ∨ x = 0) ∧
      (y = -1 ∨ y = 0) ∧ (z = -1 ∨ z = 0) ∧ (w = -1 ∨ w = 0) := by
  obtain ⟨⟨words⟩⟩ := p
  obtain ⟨x, y, z, w, rfl⟩ : ∃ x y z w, words = [x, y, z, w] := List.length_eq_four.1 hp
  have hdigit : ∀ x : BitVec 32, ((⟨1, 1⟩ : Gadget).signedDigits x).getD 0 0 = -1 ∨
      ((⟨1, 1⟩ : Gadget).signedDigits x).getD 0 0 = 0 := by
    intro x
    rw [Gadget.signedDigits]
    generalize (⟨1, 1⟩ : Gadget).rounded (toWide x) + (⟨1, 1⟩ : Gadget).offset = y
    have hlt : (⟨1, 1⟩ : Gadget).digit y 0 < 2 := Nat.mod_lt _ (by decide)
    simp only [List.range_one, List.map_cons, List.getD_cons_zero]
    omega
  refine ⟨_, _, _, _, ?_, hdigit x, hdigit y, hdigit z, hdigit w⟩
  simp [Gadget.digitRows]

/-- Products with the gadget ciphertext of zero are zero. -/
theorem zeroBit_externalProduct {g : Glwe 32} (hg : g.OfDegree 4) :
    zeroBit.externalProduct tablesOfFour g = Glwe.zero 4 := by
  obtain ⟨x, y, z, w, hbody, hx, hy, hz, hw⟩ := digitRows_one_bit hg.1
  obtain ⟨x', y', z', w', hmask, hx', hy', hz', hw'⟩ := digitRows_one_bit hg.2
  have hcombine : PreparedGgsw.combine tablesOfFour [(#[x, y, z, w], tablesOfFour.zero),
      (#[x', y', z', w'], tablesOfFour.zero)] = ⟨tablesOfFour.toWords 32 tablesOfFour.zero⟩ := by
    change (⟨tablesOfFour.toWords 32 ((tablesOfFour.zero.addMul (tablesOfFour.ofInts #[x, y, z, w])
      tablesOfFour.zero).addMul (tablesOfFour.ofInts #[x', y', z', w']) tablesOfFour.zero)⟩ :
        TorusPoly 32) = _
    rw [addMul_zero _ _ _ _ hx hy hz hw, addMul_zero _ _ _ _ hx' hy' hz' hw']
  have hzero : tablesOfFour.toWords 32 tablesOfFour.zero = #[0, 0, 0, 0] := by decide +kernel
  have hterms : zeroBit.terms g = [(#[x, y, z, w], (tablesOfFour.zero, tablesOfFour.zero)),
      (#[x', y', z', w'], (tablesOfFour.zero, tablesOfFour.zero))] := by
    rw [PreparedGgsw.terms]
    change (((⟨1, 1⟩ : Gadget).digitRows g.b.coeffs).zip _ |>.zip
      (((⟨1, 1⟩ : Gadget).digitRows g.a.coeffs).zip _)).flatMap _ = _
    rw [hbody, hmask]
    rfl
  rw [PreparedGgsw.externalProduct, hterms]
  change (⟨PreparedGgsw.combine tablesOfFour [_, _], PreparedGgsw.combine tablesOfFour [_, _]⟩ :
    Glwe 32) = _
  rw [hcombine, hzero]
  rfl

theorem zeroBit_externalProductChecked {g : Glwe 32} (hg : g.OfDegree 4) :
    zeroBit.externalProductChecked tablesOfFour g = .ok (Glwe.zero 4) := by
  have hfits : zeroBit.fits tablesOfFour g = .ok () :=
    PreparedGgsw.fits_eq_ok_iff.2 ⟨hg.1.symm, by simp [zeroBit], hg.1.symm, by decide,
      by rw [Glwe.degree, hg.1, hg.2]⟩
  rw [PreparedGgsw.externalProductChecked_eq hg, hfits, Outcome.ok_bind, zeroBit_externalProduct hg]
  rfl

theorem zeroBit_encrypts : zeroBit.Encrypts zeroBridge.tables zeroSecret 0 false := by
  intro g hg
  refine ⟨_, zeroBit_externalProductChecked hg, ?_⟩
  rw [if_neg Bool.false_ne_true]
  decide +kernel

end CipherMonitor
