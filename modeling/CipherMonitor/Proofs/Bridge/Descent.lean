import Mathlib.Tactic.IntervalCases
import CipherMonitor.Proofs.Bridge.Contract
import CipherMonitor.Proofs.Torus.Sign

/-!
# The sign of a coarse ciphertext

The descent reads the sign of a phase digit by digit.  Given bounds for the noise of its key switches
and of the bootstrap, the sign is right unless the phase is very close to `0` or `1/2`: every digit
above the lowest one divides the distance that is needed.

* `KeyBundle.Descends` — the bounds.
* `KeyBundle.Descends.digitToFine` — a digit with its carry, up to noise.
* `KeyBundle.Carries` — what is known about the carry of a digit.
* `KeyBundle.Descends.sign_of_digit`, `KeyBundle.Descends.climb` — the sign of one digit, and of all.
* `KeyBundle.decompose_sign` — the sign of the phase.
-/

namespace CipherMonitor

open Torus

open scoped NNReal

namespace KeyBundle

/-- The bounds that the descent relies on, as fractions of the torus: the key switches change phases by
at most `h₁` and `h₂`, and the bootstrap returns a word or its opposite, up to noise of `e`, where the
phase decides which one if it is farther than `h₃` from `0` and `1/2`. -/
structure Descends (k : KeyBundle) (t : Fourier) (coarse mid fine : LweSecret)
    (h₁ h₂ h₃ e : ℝ≥0) : Prop where
  coarseToMid : ∀ (c : Lwe 64) (x : BitVec 64), Lwe.Checked.phase coarse c = .ok x →
    ∃ r y, k.coarseToMid.switchChecked c = .ok r ∧ Lwe.Checked.phase mid r = .ok y ∧
      gap y (fraction x) ≤ h₁
  midToFine : ∀ (c : Lwe 32) (x : BitVec 32), Lwe.Checked.phase mid c = .ok x →
    ∃ r y, k.midToFine.switchChecked c = .ok r ∧ Lwe.Checked.phase fine r = .ok y ∧
      gap y (fraction x) ≤ h₂
  gate : ∀ (c : Lwe 32) (x mu : BitVec 32), Lwe.Checked.phase fine c = .ok x →
    ∃ r y, k.blindRotation.gate t c mu = .ok r ∧ Lwe.Checked.phase mid r = .ok y ∧
      (gap y (fraction mu) ≤ e ∨ gap y (-fraction mu) ≤ e) ∧
      (h₃ ≤ fraction x → fraction x < 1 / 2 - h₃ → gap y (fraction mu) ≤ e) ∧
      (1 / 2 + h₃ ≤ fraction x → fraction x < 1 - h₃ → gap y (-fraction mu) ≤ e)

variable {k : KeyBundle} {t : Fourier} {coarse mid fine : LweSecret} {h₁ h₂ h₃ e : ℝ≥0}
  {bits : ℕ} {bound : ℝ}

namespace Descends

/-- The bootstrap finds a sign. -/
theorem exists_sign (hk : k.Descends t coarse mid fine h₁ h₂ h₃ e) {c : Lwe 32} {x : BitVec 32}
    (hx : Lwe.Checked.phase fine c = .ok x) (mu : BitVec 32) :
    ∃ r y positive, k.blindRotation.gate t c mu = .ok r ∧ Lwe.Checked.phase mid r = .ok y ∧
      gap y (signed positive (fraction mu)) ≤ e ∧ Found h₃ x positive := by
  obtain ⟨r, y, hr, hy, hsome, hupper, hlower⟩ := hk.gate c x mu hx
  have hmargin : (0 : ℝ) ≤ h₃ := h₃.coe_nonneg
  by_cases hx : h₃ ≤ fraction x ∧ fraction x < 1 / 2 - h₃
  · exact ⟨r, y, true, hr, hy, hupper hx.1 hx.2, fun _ _ => rfl, by intros; linarith⟩
  by_cases hx' : 1 / 2 + h₃ ≤ fraction x ∧ fraction x < 1 - h₃
  · exact ⟨r, y, false, hr, hy, hlower hx'.1 hx'.2, by intros; linarith, fun _ _ => rfl⟩
  rcases hsome with hgap | hgap
  · exact ⟨r, y, true, hr, hy, hgap, fun _ _ => rfl, fun hlo hhi => absurd ⟨hlo, hhi⟩ hx'⟩
  · exact ⟨r, y, false, hr, hy, hgap, fun hlo hhi => absurd ⟨hlo, hhi⟩ hx, fun _ _ => rfl⟩

/-- A digit with its carry becomes a fine ciphertext; the offsets around the key switch cancel out. -/
theorem exists_digitToFine (hk : k.Descends t coarse mid fine h₁ h₂ h₃ e) (bits : ℕ)
    {digit carried : Lwe 32} (carry : Option (Lwe 32)) {x : BitVec 32}
    (hcarried : (match carry with
      | none => pure digit
      | some c => Lwe.Checked.add digit c) = .ok carried)
    (hx : Lwe.Checked.phase mid carried = .ok x) :
    ∃ r y, k.digitToFine bits digit carry = .ok r ∧ Lwe.Checked.phase fine r = .ok y ∧
      gap y (fraction x) ≤ h₂ := by
  obtain ⟨moved, hmoved, hphase⟩ := Lwe.Checked.exists_addConstant hx (-digitOffset bits)
  obtain ⟨switched, y, hswitched, hy, hgap⟩ := hk.midToFine moved _ hphase
  obtain ⟨r, hr, hphase⟩ := Lwe.Checked.exists_addConstant hy (digitOffset bits)
  refine ⟨r, _, ?_, hphase, ?_⟩
  · cases carry <;> dsimp only [digitToFine] at hcarried ⊢ <;>
      rw [hcarried, Outcome.ok_bind, hmoved, Outcome.ok_bind, hswitched, Outcome.ok_bind, hr]
  · rw [gap_fraction, map_add, map_neg] at hgap
    have hcancel : toCircle y - (toCircle x + -toCircle (digitOffset bits)) =
        toCircle y + toCircle (digitOffset bits) - toCircle x := by abel
    rwa [gap_fraction, map_add, ← hcancel]

end Descends

/-- The quarter of a digit unit as a number. -/
theorem fraction_digitCarry (hbits : bits ≤ 30) :
    fraction (digitCarry bits) = 1 / (4 * 2 ^ bits) := by
  have hlt : 2 ^ (30 - bits) < 2 ^ 32 := Nat.pow_lt_pow_right (by decide) (by omega)
  have hsplit : (2 : ℝ) ^ 32 = 2 ^ (30 - bits) * (4 * 2 ^ bits) := by
    rw [mul_left_comm, ← pow_add, Nat.sub_add_cancel hbits]
    norm_num
  rw [fraction, digitCarry, BitVec.toNat_ofNat, Nat.mod_eq_of_lt hlt, hsplit]
  push_cast
  field_simp

/-- The carry of the digit of a word: none, which limits the distance of wrong signs to `bound`, or the
sign of the digits below, whose distance counts for less by one digit. -/
inductive Carries (mid : LweSecret) (bits : ℕ) (e bound : ℝ) (word : BitVec 64) :
    Option (Lwe 32) → ℝ → Prop
  | none : Carries mid bits e bound word none bound
  | some {c : Lwe 32} {x : BitVec 32} {t : ℝ} {positive : Bool}
      (hx : Lwe.Checked.phase mid c = .ok x)
      (hgap : gap x (signed positive (fraction (digitCarry bits))) ≤ e)
      (hsign : SignUpTo t (fraction (shiftLeft word bits)) positive) (ht : 0 ≤ t) (hbound : t ≤ bound) :
      Carries mid bits e bound word (some c) (t / 2 ^ bits)

/-- The ciphertext of a digit carries the word up to noise. -/
def HoldsDigit (mid : LweSecret) (noise : ℝ) (digit : Lwe 32) (word : BitVec 64) : Prop :=
  ∃ x, Lwe.Checked.phase mid digit = .ok x ∧ gap x (fraction word) ≤ noise

section

variable (hk : k.Descends t coarse mid fine h₁ h₂ h₃ e) (hbits : 1 ≤ bits) (hbits' : bits ≤ 30)
  (hbound : bound = h₁ + h₂ + h₃ + e) (hroom : 2 ^ bits * bound + bound < 1 / 4)

include hk hbits hbits' hbound hroom

/-- The sign that is found for a digit with its carry. -/
theorem Descends.sign_of_digit {word : BitVec 64} {digit : Lwe 32} {carry : Option (Lwe 32)} {s : ℝ}
    (hdigit : HoldsDigit mid h₁ digit word) (hcarry : Carries mid bits e bound word carry s)
    (mu : BitVec 32) :
    ∃ l r y positive, k.digitToFine bits digit carry = .ok l ∧ k.blindRotation.gate t l mu = .ok r ∧
      Lwe.Checked.phase mid r = .ok y ∧ gap y (signed positive (fraction mu)) ≤ e ∧
      SignUpTo s (fraction word) positive := by
  obtain ⟨x, hx, hnear⟩ := hdigit
  have hmargin : (0 : ℝ) ≤ h₃ := h₃.coe_nonneg
  have hnoise : (0 : ℝ) ≤ e := e.coe_nonneg
  cases hcarry with
  | none =>
    obtain ⟨l, z, hl, hz, hfine⟩ := hk.exists_digitToFine bits none rfl hx
    obtain ⟨r, y, positive, hr, hy, hgap, hfound⟩ := hk.exists_sign hz mu
    have hz' : gap z (fraction word) ≤ h₂ + h₁ := (gap_triangle z x _).trans (add_le_add hfine hnear)
    exact ⟨l, r, y, positive, hl, hr, hy, hgap, (hfound.signUpTo hmargin hz').mono (by linarith)⟩
  | @some c x' s carrySign hx' hnear' hsign hs hs' =>
    obtain ⟨carried, hcarried, hphase⟩ := Lwe.Checked.exists_add hx hx'
    obtain ⟨l, z, hl, hz, hfine⟩ := hk.exists_digitToFine bits (some c) hcarried hphase
    obtain ⟨r, y, positive, hr, hy, hgap, hfound⟩ := hk.exists_sign hz mu
    have hz' : gap z (fraction word + signed carrySign (fraction (digitCarry bits))) ≤
        h₂ + (h₁ + e) :=
      (gap_triangle z (x + x') _).trans
        (add_le_add hfine ((gap_add x x' _ _).trans (add_le_add hnear hnear')))
    rw [fraction_digitCarry hbits'] at hz'
    have hroom' : 2 ^ bits * (h₂ + (h₁ + e) + h₃) + s < 1 / 4 := by
      have : (h₂ + (h₁ + e) + h₃ : ℝ) = bound := by rw [hbound]; ring
      rw [this]
      linarith
    exact ⟨l, r, y, positive, hl, hr, hy, hgap,
      hfound.signUpTo_of_carry hmargin hsign hbits hs hroom' hz'⟩

/-- Walking up `n` more digits divides the distance of wrong signs `n` times. -/
theorem Descends.climb {φ : BitVec 64} {n : ℕ} {digits : List (Lwe 32)} {carry : Option (Lwe 32)}
    {s : ℝ} (hdigits : List.Forall₂ (fun i digit =>
      HoldsDigit mid h₁ digit (shiftLeft φ (bits * (n - i)))) (List.range (n + 1)) digits)
    (hcarry : Carries mid bits e bound (shiftLeft φ (bits * n)) carry s) (hs : 0 ≤ s)
    (hs' : s ≤ bound) :
    ∃ r y positive, k.climb t bits carry digits = .ok r ∧ Lwe.Checked.phase mid r = .ok y ∧
      gap y (signed positive (1 / 8)) ≤ e ∧
      SignUpTo (s / (2 ^ bits) ^ n) (fraction φ) positive := by
  induction n generalizing digits carry s with
  | zero =>
    obtain ⟨digit, rest, hdigit, hrest, rfl⟩ := List.forall₂_cons_left_iff.1 hdigits
    obtain rfl := List.forall₂_nil_left_iff.1 hrest
    obtain ⟨l, r, y, positive, hl, hr, hy, hgap, hsign⟩ :=
      hk.sign_of_digit hbits hbits' hbound hroom hdigit hcarry eighth
    refine ⟨r, y, positive, ?_, hy, ?_, ?_⟩
    · rw [KeyBundle.climb, hl, Outcome.ok_bind, hr]
    · rwa [fraction_eighth] at hgap
    · simpa using hsign
  | succ n ih =>
    rw [List.range_succ_eq_map] at hdigits
    obtain ⟨digit, rest, hdigit, hrest, rfl⟩ := List.forall₂_cons_left_iff.1 hdigits
    rw [List.forall₂_map_left_iff] at hrest
    simp only [Nat.succ_eq_add_one, Nat.add_sub_add_right] at hrest
    obtain ⟨l, r, y, positive, hl, hr, hy, hgap, hsign⟩ :=
      hk.sign_of_digit hbits hbits' hbound hroom hdigit hcarry (digitCarry bits)
    -- The sign of this digit is the carry of the next one.
    have hnext : Carries mid bits e bound (shiftLeft φ (bits * n)) (some r) (s / 2 ^ bits) := by
      refine .some hy hgap ?_ hs hs'
      rwa [shiftLeft_shiftLeft, ← Nat.mul_succ]
    obtain ⟨r', y', positive', hr', hy', hgap', hsign'⟩ := ih hrest hnext (by positivity)
      ((div_le_self hs (one_le_pow₀ (by norm_num))).trans hs')
    refine ⟨r', y', positive', ?_, hy', hgap', ?_⟩
    · obtain ⟨next, more, -, -, rfl⟩ :=
        List.forall₂_cons_left_iff.1 (List.range_succ_eq_map ▸ hrest)
      rw [KeyBundle.climb, hl, Outcome.ok_bind, hr, Outcome.ok_bind, hr']
    · rwa [div_div, ← pow_succ'] at hsign'

end

/-- The digits of a phase can be computed, up to the noise of a key switch. -/
theorem Descends.exists_digits (hk : k.Descends t coarse mid fine h₁ h₂ h₃ e) {c : Lwe 64}
    {φ : BitVec 64} (hφ : Lwe.Checked.phase coarse c = .ok φ) (bits n : ℕ) :
    ∃ digits, ((List.range (n + 1)).mapM fun i => k.digitOf bits (n + 1) c (i + 1)) = .ok digits ∧
      List.Forall₂ (fun i digit => HoldsDigit mid h₁ digit (shiftLeft φ (bits * (n - i))))
        (List.range (n + 1)) digits := by
  refine Outcome.exists_mapM fun i _ => ?_
  obtain ⟨r, y, hr, hy, hgap⟩ := hk.coarseToMid _ _ (Lwe.Checked.phase_shiftLeft hφ (bits * (n - i)))
  refine ⟨r, ?_, y, hy, hgap⟩
  rw [digitOf, Nat.add_sub_add_right, hr]

/-- The digit decomposition of a phase is a ciphertext of `1/8` or `-1/8`, by the sign of the phase, as
soon as the phase is farther from `0` and `1/2` than the noise divided by all digits but one. -/
theorem decompose_sign (hk : k.Descends t coarse mid fine h₁ h₂ h₃ e) {bits digits : ℕ}
    (hbits : 1 ≤ bits) (hbits' : bits ≤ 30) (hdigits : 1 ≤ digits) (hwidth : bits * digits ≤ 32)
    {h : ℝ} (hh : h = h₁ + h₂ + h₃ + e) (hroom : h * (1 + 1 / 2 ^ bits) < 1 / 2 ^ (bits + 2))
    {c : Lwe 64} {φ : BitVec 64} (hφ : Lwe.Checked.phase coarse c = .ok φ)
    (hzero : 1 / 2 ^ (bits * (digits - 1)) * h < gap φ 0)
    (hhalf : 1 / 2 ^ (bits * (digits - 1)) * h < gap φ (1 / 2)) :
    ∃ r y, k.decompose t bits digits c = .ok r ∧ Lwe.Checked.phase mid r = .ok y ∧
      (fraction φ ∈ Set.Ioo 0 (1 / 2) → gap y (1 / 8) ≤ e) ∧
      (fraction φ ∈ Set.Ioo (1 / 2) 1 → gap y (-(1 / 8)) ≤ e) := by
  obtain ⟨n, rfl⟩ : ∃ n, digits = n + 1 := ⟨digits - 1, by omega⟩
  obtain ⟨ds, hds, hholds⟩ := hk.exists_digits hφ bits n
  have hpos : 0 ≤ h := by rw [hh]; positivity
  have hunit : (0 : ℝ) < 2 ^ bits := by positivity
  have hroom' : 2 ^ bits * h + h < 1 / 4 := by
    have := mul_lt_mul_of_pos_left hroom hunit
    rw [pow_add] at this
    field_simp at this
    linarith
  obtain ⟨r, y, positive, hr, hy, hgap, hsign⟩ :=
    hk.climb hbits hbits' hh hroom' hholds .none hpos le_rfl
  have hdistance : 1 / 2 ^ (bits * (n + 1 - 1)) * h = h / (2 ^ bits) ^ n := by
    rw [Nat.add_sub_cancel, ← pow_mul, one_div_mul_eq_div]
  obtain ⟨hpositive, hnegative⟩ := hsign.of_gap (hdistance ▸ hzero) (hdistance ▸ hhalf)
  refine ⟨r, y, ?_, hy, fun hφ => ?_, fun hφ => ?_⟩
  · rw [decompose, require_of hdigits, Outcome.ok_bind, require_of hwidth, Outcome.ok_bind,
      require_of hbits', Outcome.ok_bind, hds, Outcome.ok_bind, hr]
  · rwa [hpositive hφ, signed_true] at hgap
  · rwa [hnegative hφ, signed_false] at hgap

/-! ### Zero secrets -/

/-- The constant coefficient of the test polynomial after some rotation steps. -/
theorem coeff_constantTest (mu : BitVec 32) {steps : ℕ} (h : steps < 8) :
    ((BlindRotationKey.constantTest 4 mu).mulXPow (-steps)).coeff 0 =
      if steps < 4 then mu else -mu := by
  interval_cases steps <;> rfl

/-- The rotation steps of phases that are not within `1/16` of `0` and `1/2`. -/
theorem rotationSteps_of_fraction (x : BitVec 32) : rotationSteps x < 8 ∧
    (1 / 16 ≤ fraction x → fraction x < 1 / 2 - 1 / 16 → rotationSteps x < 4) ∧
    (1 / 2 + 1 / 16 ≤ fraction x → fraction x < 1 - 1 / 16 → ¬ rotationSteps x < 4) := by
  have hx := x.isLt
  have hsteps : rotationSteps x = (x.toNat * 2 ^ 32 + 2 ^ 60) % 2 ^ 64 / 2 ^ 61 := by
    rw [rotationSteps, toWide, BitVec.toNat_add, BitVec.toNat_ofNat, BitVec.toNat_ofNat]
    omega
  rw [hsteps]
  refine ⟨by omega, fun hlo hhi => ?_, fun hlo hhi => ?_⟩
  · have := (le_fraction_iff (x := x) (n := 2 ^ 28)).1 (by norm_num; linarith)
    have := (fraction_lt_iff (x := x) (n := 7 * 2 ^ 28)).1 (by norm_num; linarith)
    omega
  · have := (le_fraction_iff (x := x) (n := 9 * 2 ^ 28)).1 (by norm_num; linarith)
    have := (fraction_lt_iff (x := x) (n := 15 * 2 ^ 28)).1 (by norm_num; linarith)
    omega

theorem zeroKeys_coarseToMid (b : BitVec 64) :
    zeroKeys.coarseToMid.switchChecked (Lwe.trivial 0 b) =
      .ok (Lwe.trivial 4 (ofWide 32 (toWide b))) := rfl

theorem zeroKeys_gate (b mu : BitVec 32) :
    zeroKeys.blindRotation.gate tablesOfFour (Lwe.trivial 0 b) mu = .ok ((Glwe.trivial
      ((BlindRotationKey.constantTest 4 mu).mulXPow (-(rotationSteps b)))).sampleExtract 0) := rfl

theorem phase_sampleExtract_zeroSecret {test : TorusPoly 32} (h : test.size = 4) :
    Lwe.Checked.phase zeroSecret.toLwe ((Glwe.trivial test).sampleExtract 0) = .ok (test.coeff 0) := by
  have hdegree : (Glwe.trivial test).OfDegree 4 := ⟨h, by rw [Glwe.trivial, Poly.size_zero, h]⟩
  exact Lwe.Checked.phase_eq_ok_iff.2 ⟨Glwe.ofDimension_sampleExtract hdegree, phase_zeroSecret _⟩

/-- The phase after the bootstrap. -/
theorem phase_zeroKeys_gate (b mu : BitVec 32) : Lwe.Checked.phase zeroSecret.toLwe ((Glwe.trivial
    ((BlindRotationKey.constantTest 4 mu).mulXPow (-(rotationSteps b)))).sampleExtract 0) =
      .ok (if rotationSteps b < 4 then mu else -mu) := by
  rw [phase_sampleExtract_zeroSecret (Poly.size_mulXPow _ _),
    coeff_constantTest mu (rotationSteps_of_fraction b).1]

/-- The keys between zero secrets round to words of 32 bits, and phases to multiples of `1/8`. -/
theorem zeroKeys_descends :
    zeroKeys.Descends tablesOfFour ⟨#[]⟩ zeroSecret.toLwe ⟨#[]⟩ (1 / 2 ^ 33) 0 (1 / 16) 0 where
  coarseToMid c x hx := by
    obtain ⟨hc, rfl⟩ := Lwe.Checked.phase_eq_ok_iff.1 hx
    rw [Lwe.eq_trivial hc, Lwe.phase_trivial]
    refine ⟨_, _, zeroKeys_coarseToMid _, Lwe.Checked.phase_trivial zeroSecret.toLwe _, ?_⟩
    have hwide : toWide c.body = c.body := by
      apply BitVec.eq_of_toNat_eq
      rw [toWide, BitVec.toNat_ofNat]
      omega
    have hround := gap_ofWide_le (w := 32) (by decide) c.body
    rw [hwide]
    simpa using hround
  midToFine c x hx := by
    obtain ⟨hc, rfl⟩ := Lwe.Checked.phase_eq_ok_iff.1 hx
    rw [phase_zeroSecret]
    refine ⟨_, _, zeroKeys_switchChecked hc, Lwe.Checked.phase_trivial ⟨#[]⟩ _, ?_⟩
    simp
  gate c x mu hx := by
    obtain ⟨hc, rfl⟩ := Lwe.Checked.phase_eq_ok_iff.1 hx
    rw [Lwe.eq_trivial hc, Lwe.phase_trivial]
    obtain ⟨-, hupper, hlower⟩ := rotationSteps_of_fraction c.body
    refine ⟨_, _, zeroKeys_gate c.body mu, phase_zeroKeys_gate c.body mu, ?_, ?_, ?_⟩
    · split_ifs
      · exact .inl (by simp)
      · exact .inr (by simp)
    · intro hlo hhi
      rw [if_pos (hupper (by simpa using hlo) (by simpa using hhi))]
      simp
    · intro hlo hhi
      rw [if_neg (hlower (by simpa using hlo) (by simpa using hhi))]
      simp

/-- A phase of `1/32`, too close to `0` for a single bootstrap, and three digits of one bit. -/
theorem decompose_sign_zeroKeys :
    ∃ r y, zeroKeys.decompose tablesOfFour 1 3 (Lwe.trivial 0 (BitVec.ofNat 64 (2 ^ 59))) = .ok r ∧
      Lwe.Checked.phase zeroSecret.toLwe r = .ok y ∧ gap y (1 / 8) = 0 := by
  have hfraction : fraction (BitVec.ofNat 64 (2 ^ 59)) = 1 / 32 := by
    rw [fraction, show (BitVec.ofNat 64 (2 ^ 59)).toNat = 2 ^ 59 by decide]
    norm_num
  have hzero : gap (BitVec.ofNat 64 (2 ^ 59)) 0 = 1 / 32 := by
    rw [gap_eq, hfraction]
    norm_num
  have hhalf : gap (BitVec.ofNat 64 (2 ^ 59)) (1 / 2) = 15 / 32 := by
    rw [gap_eq, hfraction]
    norm_num
  obtain ⟨r, y, hr, hy, hupper, -⟩ := decompose_sign zeroKeys_descends (le_refl 1) (by decide)
    (by decide : 1 ≤ 3) (by decide) rfl (by norm_num)
    (Lwe.Checked.phase_trivial ⟨#[]⟩ (BitVec.ofNat 64 (2 ^ 59))) (by rw [hzero]; norm_num)
    (by rw [hhalf]; norm_num)
  refine ⟨r, y, hr, hy, le_antisymm ?_ (gap_nonneg _ _)⟩
  simpa using hupper (by rw [hfraction]; norm_num)

end KeyBundle

end CipherMonitor
