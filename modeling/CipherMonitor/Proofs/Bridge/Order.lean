import Mathlib.Algebra.Order.Round
import Mathlib.Data.Rat.Floor
import CipherMonitor.Proofs.Bridge.Reduction

/-!
# Signs and order of the words

A coefficient around zero is read as a signed word: its magnitude is rounded, so a coefficient and its
opposite are rounded alike, and positive words stop below `2 ^ 63`.  Every step of this is monotone and
keeps signs, so words are ordered as the coefficients are.

* `torusPlace` — a coefficient in units of 64 bits, before rounding.
* `torusUnits`, `toInt_torusWord` — the word of a coefficient as a signed number.
* `rescaleToTorus_eq_round` — magnitudes are rounded to the nearest number of units.
* `torusUnits_mono` — the order of words.
* `KeepsPlace`, `keepsPlace_torusUnits` — their signs and the error of rounding.
* `torusWord_keeps_order` — all of these for the words of two coefficients.
-/

namespace CipherMonitor

/-- How many units of 64 bits a coefficient modulo `2 ^ logQ` stands for. -/
def torusPlace (x : ℤ) (logQ : ℕ) : ℚ := x * 2 ^ 64 / 2 ^ logQ

/-- The magnitude rounded, with the sign of the coefficient; positive ones stop below `2 ^ 63`. -/
def torusUnits (x : ℤ) (logQ : ℕ) : ℤ :=
  if x < 0 then -rescaleToTorus (-x) logQ else min (rescaleToTorus x logQ) (2 ^ 63 - 1)

variable {logQ : ℕ} {c c' x y : ℤ}

theorem torusPlace_neg (x : ℤ) (logQ : ℕ) : torusPlace (-x) logQ = -torusPlace x logQ := by
  rw [torusPlace, torusPlace, Int.cast_neg, neg_mul, neg_div]

theorem rescaleToTorus_mono (h : x ≤ y) : rescaleToTorus x logQ ≤ rescaleToTorus y logQ :=
  Int.ediv_le_ediv (by positivity) (by omega)

theorem rescaleToTorus_nonneg (logQ : ℕ) (h : 0 ≤ x) : 0 ≤ rescaleToTorus x logQ :=
  Int.ediv_nonneg (by positivity) (by positivity)

/-- Words are ordered as the coefficients are. -/
theorem torusUnits_mono (h : x ≤ y) : torusUnits x logQ ≤ torusUnits y logQ := by
  rw [torusUnits, torusUnits]
  split_ifs with hx hy hy
  · exact neg_le_neg (rescaleToTorus_mono (neg_le_neg h))
  · have hnegative := rescaleToTorus_nonneg logQ (neg_nonneg.2 hx.le)
    have hpositive := rescaleToTorus_nonneg logQ (not_lt.1 hy)
    omega
  · omega
  · exact min_le_min_right _ (rescaleToTorus_mono h)

section Words

variable (hlog : 1 ≤ logQ)

include hlog

/-- Adding half of the modulus before dividing rounds to the nearest number of units, a half going
up. -/
theorem rescaleToTorus_eq_round (x : ℤ) : rescaleToTorus x logQ = round (torusPlace x logQ) := by
  have hdouble : (2 : ℚ) ^ logQ = 2 * 2 ^ (logQ - 1) := by exact_mod_cast two_pow_eq_double hlog
  have hhalf : torusPlace x logQ + 1 / 2 =
      ((x * 2 ^ 64 + 2 ^ (logQ - 1) : ℤ) : ℚ) / (2 ^ logQ : ℕ) := by
    rw [torusPlace]
    push_cast
    rw [hdouble]
    field_simp
    norm_num
  rw [round_eq, hhalf, Rat.floor_intCast_div_natCast, rescaleToTorus]
  push_cast
  rfl

/-- A reduced coefficient is below half of the modulus, or stands for a negative number. -/
theorem center_eq_ite (h0 : 0 ≤ c) (h1 : c < 2 ^ logQ) :
    center c logQ = if c < 2 ^ (logQ - 1) then c else c - 2 ^ logQ := by
  have hdouble := two_pow_eq_double hlog
  have hreduced : keepBits c logQ = c := Int.emod_eq_of_lt h0 h1
  have hcenter : center c logQ = c.bmod (2 ^ logQ) := by rw [← center_keepBits hlog, hreduced]
  rw [hcenter, Int.bmod_def, Nat.cast_pow, Nat.cast_ofNat, Int.emod_eq_of_lt h0 h1]
  split_ifs <;> omega

/-- The signed number of a word. -/
theorem toInt_torusWord (h0 : 0 ≤ c) (h1 : c < 2 ^ logQ) :
    (torusWord c logQ).toInt = torusUnits (center c logQ) logQ := by
  have hdouble := two_pow_eq_double hlog
  rw [torusWord, center_eq_ite hlog h0 h1, torusUnits]
  by_cases hupper : 2 ^ (logQ - 1) ≤ c
  · obtain ⟨hlo, hhi⟩ := rescaleToTorus_mem hlog (x := 2 ^ logQ - c) (by omega) (by omega)
    rw [if_pos hupper, if_neg hupper.not_gt, if_pos (by omega), neg_sub, saturate_of_mem hlo hhi,
      min_eq_left hhi, ← BitVec.ofInt_neg, BitVec.toInt_ofInt]
    exact Int.bmod_eq_of_le (by omega) (by omega)
  · obtain ⟨hlo, hhi⟩ := rescaleToTorus_mem hlog h0 (by omega)
    rw [if_neg hupper, if_pos (not_le.1 hupper), if_neg h0.not_gt, saturate_of_mem hlo hhi,
      BitVec.toInt_ofInt]
    exact Int.bmod_eq_of_le (by omega) (by omega)

end Words

/-! ### Signs and the error of rounding -/

/-- What the number of units `v` of a word keeps of a coefficient `x` around zero. -/
structure KeepsPlace (logQ : ℕ) (x v : ℤ) : Prop where
  nonneg : 0 ≤ x → 0 ≤ v
  nonpos : x < 0 → v ≤ 0
  /-- Half a unit below zero is not rounded to zero. -/
  neg : torusPlace x logQ ≤ -1 / 2 → v < 0
  /-- A positive word that would be rounded to `2 ^ 63` stops before it. -/
  stopped : 0 < x → round (torusPlace x logQ) = 2 ^ 63 → v = 2 ^ 63 - 1
  /-- All others are off by half a unit at most. -/
  near : ¬ (0 < x ∧ round (torusPlace x logQ) = 2 ^ 63) → |v - torusPlace x logQ| ≤ 1 / 2
  /-- Moduli of 64 bits at most leave nothing to be rounded. -/
  exact : logQ ≤ 64 → v = x * 2 ^ (64 - logQ)

section Places

variable (hlog : 1 ≤ logQ)

include hlog

/-- A negative coefficient is rounded as its opposite is. -/
theorem keepsPlace_of_neg (hx : x < 0) : KeepsPlace logQ x (-rescaleToTorus (-x) logQ) := by
  have hround := rescaleToTorus_eq_round hlog (-x)
  have hnonneg := rescaleToTorus_nonneg logQ (neg_nonneg.2 hx.le)
  refine ⟨fun h => by omega, fun _ => by omega, fun h => ?_, fun h => by omega, fun _ => ?_,
    fun hsmall => ?_⟩
  · have hunit : 1 ≤ round (torusPlace (-x) logQ) := by
      rw [round_eq, Int.le_floor, torusPlace_neg]
      push_cast
      linarith
    omega
  · have hopposite : ((-rescaleToTorus (-x) logQ : ℤ) : ℚ) - torusPlace x logQ =
        torusPlace (-x) logQ - rescaleToTorus (-x) logQ := by
      rw [torusPlace_neg, Int.cast_neg]
      ring
    rw [hopposite, hround]
    exact abs_sub_round _
  · rw [rescaleToTorus_eq hlog hsmall, neg_mul, neg_neg]

/-- A coefficient that is not negative stays below half of the circle. -/
theorem keepsPlace_of_nonneg (h0 : 0 ≤ x) (h1 : x < 2 ^ (logQ - 1)) :
    KeepsPlace logQ x (min (rescaleToTorus x logQ) (2 ^ 63 - 1)) := by
  have hround := rescaleToTorus_eq_round hlog x
  have hnonneg := rescaleToTorus_nonneg logQ h0
  have hmem := (rescaleToTorus_mem hlog h0 h1.le).2
  refine ⟨fun _ => by omega, fun h => by omega, fun h => ?_, fun _ h => ?_, fun h => ?_,
    fun hsmall => ?_⟩
  · have hplace : 0 ≤ torusPlace x logQ := by
      have : (0 : ℚ) ≤ x := by exact_mod_cast h0
      rw [torusPlace]
      positivity
    linarith
  · rw [hround, h]
    rfl
  · have hkept : rescaleToTorus x logQ ≠ 2 ^ 63 := by
      intro hreached
      rcases h0.eq_or_lt with rfl | hpos
      · rw [hround, torusPlace, Int.cast_zero, zero_mul, zero_div, round_zero] at hreached
        omega
      · exact h ⟨hpos, hround ▸ hreached⟩
    rw [min_eq_left (by omega), hround, abs_sub_comm]
    exact abs_sub_round _
  · have hunits : (2 : ℤ) ^ 63 = 2 ^ (logQ - 1) * 2 ^ (64 - logQ) := by
      rw [← pow_add]
      congr 1
      omega
    have hbelow : x * 2 ^ (64 - logQ) < 2 ^ 63 := by
      rw [hunits]
      exact mul_lt_mul_of_pos_right h1 (by positivity)
    rw [rescaleToTorus_eq hlog hsmall, min_eq_left (by omega)]

theorem keepsPlace_torusUnits (h : x < 2 ^ (logQ - 1)) :
    KeepsPlace logQ x (torusUnits x logQ) := by
  rw [torusUnits]
  split_ifs with hx
  · exact keepsPlace_of_neg hlog hx
  · exact keepsPlace_of_nonneg hlog (not_lt.1 hx) h

end Places

/-- Coefficients are read as words that have their signs, are off by half a unit at most, except
where a positive word stops below `2 ^ 63`, and are ordered as the coefficients around zero are. -/
theorem torusWord_keeps_order (hlog : 1 ≤ logQ) (hc : c ∈ Set.Ico 0 (2 ^ logQ))
    (hc' : c' ∈ Set.Ico 0 (2 ^ logQ)) :
    center c logQ = (if c < 2 ^ (logQ - 1) then c else c - 2 ^ logQ) ∧
      ∃ w w', torusWordChecked c logQ = .ok w ∧ torusWordChecked c' logQ = .ok w' ∧
        KeepsPlace logQ (center c logQ) w.toInt ∧
        (center c logQ ≤ center c' logQ → w.toInt ≤ w'.toInt) := by
  have hchecked : ∀ c, torusWordChecked c logQ = .ok (torusWord c logQ) := fun c => by
    rw [torusWordChecked, require_of (Nat.zero_lt_of_lt hlog)]
    rfl
  have hbelow := (center_mem hlog hc.1 hc.2).2
  refine ⟨center_eq_ite hlog hc.1 hc.2, _, _, hchecked c, hchecked c', ?_, fun hle => ?_⟩
  · rw [toInt_torusWord hlog hc.1 hc.2]
    exact keepsPlace_torusUnits hlog hbelow
  · rw [toInt_torusWord hlog hc.1 hc.2, toInt_torusWord hlog hc'.1 hc'.2]
    exact torusUnits_mono hle

/-- The least and the greatest coefficient of 70 bits; the greatest one would be rounded to half of
the circle. -/
theorem torusWord_keeps_order_seventyBits :
    (2 ^ 69 : ℤ) ∈ Set.Ico 0 (2 ^ 70) ∧ (2 ^ 69 - 1 : ℤ) ∈ Set.Ico 0 (2 ^ 70) ∧
      (∃ w w', torusWordChecked (2 ^ 69) 70 = .ok w ∧ torusWordChecked (2 ^ 69 - 1) 70 = .ok w' ∧
        w.toInt < 0 ∧ w.toInt ≤ w'.toInt) ∧
      ∃ w, torusWordChecked (2 ^ 69 - 1) 70 = .ok w ∧ w.toInt = 2 ^ 63 - 1 := by
  have hleast : (2 ^ 69 : ℤ) ∈ Set.Ico 0 (2 ^ 70) := ⟨by decide, by decide⟩
  have hgreatest : (2 ^ 69 - 1 : ℤ) ∈ Set.Ico 0 (2 ^ 70) := ⟨by decide, by decide⟩
  have hlow : center (2 ^ 69) 70 = -2 ^ 69 := by decide
  have hhigh : center (2 ^ 69 - 1) 70 = 2 ^ 69 - 1 := by decide
  refine ⟨hleast, hgreatest, ?_, ?_⟩
  · obtain ⟨-, w, w', hw, hw', hkeeps, horder⟩ :=
      torusWord_keeps_order (show 1 ≤ 70 by decide) hleast hgreatest
    refine ⟨w, w', hw, hw', hkeeps.neg ?_, horder (by rw [hlow, hhigh]; decide)⟩
    rw [hlow, torusPlace]
    norm_num
  · obtain ⟨-, w, -, hw, -, hkeeps, -⟩ :=
      torusWord_keeps_order (show 1 ≤ 70 by decide) hgreatest hleast
    refine ⟨w, hw, hkeeps.stopped (by rw [hhigh]; decide) ?_⟩
    rw [hhigh, torusPlace, round_eq]
    norm_num

end CipherMonitor
