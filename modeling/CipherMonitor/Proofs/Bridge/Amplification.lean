import Mathlib.Algebra.Order.Round
import Mathlib.Data.Rat.Floor
import Mathlib.RingTheory.Int.Basic
import Mathlib.Tactic.Linarith
import Mathlib.Tactic.NormNum
import Mathlib.Tactic.Ring
import CipherMonitor.Bridge.Amplification
import CipherMonitor.Proofs.Poly.Residue

/-!
# Signs of amplified values

A coefficient is multiplied by the amplification factor and reduced modulo the modulus.  In exact
arithmetic its sign survives exactly when the largest bounded coefficient stays below half of the
modulus.  The margin sees to that for large factors; it is smaller than the rounding of the factors
two, three and four.

* `exactFactor` — the factor, computed with rational numbers.
* `exactFactor_mul_le` — how far rounding can lift the largest coefficient.
* `exactFactor_mul_floor_lt` — the factors that keep all coefficients below half of the modulus.
* `sign_amplified_iff` — when signs survive.
* `sign_amplified_flips` — a value at its reference whose sign does not.
-/

namespace CipherMonitor

/-- The amplification factor in exact arithmetic, where the margin is nine tenths. -/
def exactFactor (logQ : ℕ) (scale reference : ℚ) : ℤ :=
  factorIn round (2 ^ logQ) (9 / 10) scale reference

section

variable {logQ : ℕ} {scale reference : ℚ}

/-- Nine tenths of what half of the modulus holds of the largest coefficient, rounded. -/
theorem exactFactor_eq_max (hlog : 1 ≤ logQ) :
    exactFactor logQ scale reference =
      max 1 (round (9 / 10 * (2 ^ (logQ - 1) / (reference * scale)))) := by
  have hdouble : (2 : ℚ) ^ logQ = 2 * 2 ^ (logQ - 1) := by exact_mod_cast two_pow_eq_double hlog
  have hshare : (2 : ℚ) ^ logQ * (9 / 10) / (2 * reference * scale) =
      9 / 10 * (2 ^ (logQ - 1) / (reference * scale)) := by
    rw [hdouble, mul_assoc 2 reference, mul_assoc 2, mul_div_mul_left _ _ two_ne_zero]
    ring
  rw [exactFactor, factorIn, hshare]
  split_ifs <;> omega

theorem one_le_exactFactor (hlog : 1 ≤ logQ) : 1 ≤ exactFactor logQ scale reference := by
  rw [exactFactor_eq_max hlog]
  exact le_max_left _ _

variable (hlog : 1 ≤ logQ) (hpos : 0 < reference * scale)

include hlog hpos

/-- A factor above one is at most half a unit above nine tenths of the room. -/
theorem exactFactor_mul_le (h : 1 < exactFactor logQ scale reference) :
    exactFactor logQ scale reference * (reference * scale) ≤
      9 / 10 * 2 ^ (logQ - 1) + reference * scale / 2 := by
  rw [exactFactor_eq_max hlog] at h ⊢
  rw [max_eq_right (by omega)]
  have hround := round_le_add_half (9 / 10 * ((2 : ℚ) ^ (logQ - 1) / (reference * scale)))
  have hroom : (2 : ℚ) ^ (logQ - 1) / (reference * scale) * (reference * scale) = 2 ^ (logQ - 1) :=
    div_mul_cancel₀ _ hpos.ne'
  calc (round (9 / 10 * ((2 : ℚ) ^ (logQ - 1) / (reference * scale))) : ℚ) * (reference * scale)
      ≤ (9 / 10 * (2 ^ (logQ - 1) / (reference * scale)) + 1 / 2) * (reference * scale) :=
        mul_le_mul_of_nonneg_right hround hpos.le
    _ = 9 / 10 * 2 ^ (logQ - 1) + reference * scale / 2 := by
        rw [add_mul, mul_assoc, hroom]
        ring

variable (hbound : reference * scale < 2 ^ (logQ - 1))

include hbound

/-- Factors from five on leave room for their rounding, and one is not rounded up. -/
theorem exactFactor_mul_floor_lt
    (h : exactFactor logQ scale reference < 2 ∨ 4 < exactFactor logQ scale reference) :
    exactFactor logQ scale reference * ⌊reference * scale⌋ < 2 ^ (logQ - 1) := by
  have hone : 1 ≤ exactFactor logQ scale reference := one_le_exactFactor hlog
  have hfloor : (⌊reference * scale⌋ : ℚ) ≤ reference * scale := Int.floor_le _
  rcases h with h | h
  · have hfactor : exactFactor logQ scale reference = 1 := by omega
    rw [hfactor, one_mul]
    exact_mod_cast hfloor.trans_lt hbound
  have hlift := exactFactor_mul_le hlog hpos (by omega)
  generalize exactFactor logQ scale reference = f at h hlift ⊢
  generalize ⌊reference * scale⌋ = n at hfloor ⊢
  have hfive : (5 : ℚ) ≤ f := by exact_mod_cast h
  have hle : (f : ℚ) * n ≤ 2 ^ (logQ - 1) := by nlinarith
  refine lt_of_le_of_ne (by exact_mod_cast hle) fun hfull => ?_
  -- Only the factor five can fill all of the room, but it divides no power of two.
  have hfull' : (f : ℚ) * n = 2 ^ (logQ - 1) := by exact_mod_cast hfull
  have hn : (0 : ℚ) < n := by
    have : (0 : ℚ) < 2 ^ (logQ - 1) := by positivity
    nlinarith
  have hfactor : (f : ℚ) ≤ 5 := by
    refine le_of_mul_le_mul_right ?_ hn
    nlinarith
  obtain rfl : f = 5 := le_antisymm (by exact_mod_cast hfactor) h
  have hdvd : (5 : ℤ) ∣ 2 ^ (logQ - 1) := ⟨n, hfull.symm⟩
  exact absurd (Int.Prime.dvd_pow' Nat.prime_five hdvd) (by decide)

/-- No coefficient is lifted past the whole modulus. -/
theorem exactFactor_mul_floor_lt_modulus :
    exactFactor logQ scale reference * ⌊reference * scale⌋ < 2 ^ logQ := by
  have hone : 1 ≤ exactFactor logQ scale reference := one_le_exactFactor hlog
  have hdouble : (2 : ℚ) ^ logQ = 2 * 2 ^ (logQ - 1) := by exact_mod_cast two_pow_eq_double hlog
  have hhalf : (0 : ℚ) < 2 ^ (logQ - 1) := by positivity
  have hfloor : (exactFactor logQ scale reference : ℚ) * ⌊reference * scale⌋ ≤
      exactFactor logQ scale reference * (reference * scale) := by
    have : (0 : ℚ) ≤ exactFactor logQ scale reference := by exact_mod_cast hone.trans' zero_le_one
    exact mul_le_mul_of_nonneg_left (Int.floor_le _) this
  suffices h : (exactFactor logQ scale reference : ℚ) * (reference * scale) < 2 ^ logQ by
    exact_mod_cast hfloor.trans_lt h
  rcases hone.eq_or_lt with h | h
  · rw [← h, Int.cast_one, one_mul]
    linarith
  · have := exactFactor_mul_le hlog hpos h
    linarith

/-- A largest coefficient that reaches half of the modulus changes its sign. -/
theorem center_amplified_neg
    (h : 2 ^ (logQ - 1) ≤ exactFactor logQ scale reference * ⌊reference * scale⌋) :
    center (keepBits (exactFactor logQ scale reference * ⌊reference * scale⌋) logQ) logQ < 0 := by
  have hhalf : (0 : ℤ) < 2 ^ (logQ - 1) := by positivity
  have hdouble := two_pow_eq_double hlog
  have hlt := exactFactor_mul_floor_lt_modulus hlog hpos hbound
  rw [center_keepBits hlog, Int.bmod_def, Nat.cast_pow, Nat.cast_ofNat,
    Int.emod_eq_of_lt (by omega) hlt, if_neg (by omega)]
  omega

end

/-- When the largest coefficient stays below half of the modulus, all of them do. -/
theorem abs_exactFactor_mul_lt {logQ : ℕ} {scale reference : ℚ} (hlog : 1 ≤ logQ)
    (h : exactFactor logQ scale reference * ⌊reference * scale⌋ < 2 ^ (logQ - 1)) {x : ℤ}
    (hx : |(x : ℚ)| ≤ reference * scale) :
    |exactFactor logQ scale reference * x| < 2 ^ (logQ - 1) := by
  have hone : 1 ≤ exactFactor logQ scale reference := one_le_exactFactor hlog
  have hx' : |x| ≤ ⌊reference * scale⌋ := Int.le_floor.2 (by exact_mod_cast hx)
  rw [abs_mul, abs_of_pos (by omega)]
  exact (mul_le_mul_of_nonneg_left hx' (by omega)).trans_lt h

/-- Bounded coefficients stay below half of the modulus, and keep their signs, exactly when the largest
of them stays below; only the factors two, three and four can lift it too far. -/
theorem sign_amplified_iff {logQ : ℕ} {scale reference : ℚ} (hlog : 1 ≤ logQ) (hscale : 0 < scale)
    (hreference : 0 < reference) (hbound : reference * scale < 2 ^ (logQ - 1)) :
    ((∀ x : ℤ, |(x : ℚ)| ≤ reference * scale →
        |exactFactor logQ scale reference * x| < 2 ^ (logQ - 1)) ↔
      exactFactor logQ scale reference * ⌊reference * scale⌋ < 2 ^ (logQ - 1)) ∧
    ((∀ x : ℤ, |(x : ℚ)| ≤ reference * scale →
        (center (keepBits (exactFactor logQ scale reference * x) logQ) logQ).sign = x.sign) ↔
      exactFactor logQ scale reference * ⌊reference * scale⌋ < 2 ^ (logQ - 1)) ∧
    (exactFactor logQ scale reference < 2 ∨ 4 < exactFactor logQ scale reference →
      exactFactor logQ scale reference * ⌊reference * scale⌋ < 2 ^ (logQ - 1)) := by
  have hpos : 0 < reference * scale := mul_pos hreference hscale
  have hone : 1 ≤ exactFactor logQ scale reference := one_le_exactFactor hlog
  have hlargest : |(⌊reference * scale⌋ : ℚ)| ≤ reference * scale := by
    rw [abs_of_nonneg (by exact_mod_cast Int.floor_nonneg.2 hpos.le)]
    exact Int.floor_le _
  refine ⟨⟨fun h => ?_, fun h _ => abs_exactFactor_mul_lt hlog h⟩, ⟨fun h => ?_, fun h x hx => ?_⟩,
    exactFactor_mul_floor_lt hlog hpos hbound⟩
  · exact (le_abs_self _).trans_lt (h _ hlargest)
  · by_contra hge
    have hhalf : (0 : ℤ) < 2 ^ (logQ - 1) := by positivity
    have hn : 0 < ⌊reference * scale⌋ :=
      pos_of_mul_pos_right (hhalf.trans_le (not_lt.1 hge)) (hone.trans' zero_le_one)
    have hsign := h _ hlargest
    rw [Int.sign_eq_one_of_pos hn, Int.sign_eq_one_iff_pos] at hsign
    exact absurd (center_amplified_neg hlog hpos hbound (not_lt.1 hge)) hsign.not_gt
  · obtain ⟨hlo, hhi⟩ := abs_lt.1 (abs_exactFactor_mul_lt hlog h hx)
    rw [center_keepBits_of_lt hlog _ hlo.le hhi, Int.sign_mul, Int.sign_eq_one_of_pos (by omega),
      one_mul]

/-- The factor of a reference of `200` with words of 60 bits. -/
theorem exactFactor_two_hundred : exactFactor 60 (2 ^ 40) 200 = 2359 := by
  have hround : round (9 / 10 * ((2 : ℚ) ^ (60 - 1) / (200 * 2 ^ 40))) = 2359 := by
    rw [round_eq_iff]
    norm_num
  rw [exactFactor_eq_max (by decide), hround]
  rfl

/-- All values up to a reference of `200` keep their signs. -/
theorem sign_amplified_two_hundred : (200 : ℚ) * 2 ^ 40 < 2 ^ (60 - 1) ∧
    ∀ x : ℤ, |(x : ℚ)| ≤ 200 * 2 ^ 40 → (center (keepBits (2359 * x) 60) 60).sign = x.sign := by
  have hbound : (200 : ℚ) * 2 ^ 40 < 2 ^ (60 - 1) := by norm_num
  obtain ⟨-, hsign, hlarge⟩ := sign_amplified_iff (by decide : 1 ≤ 60) (by norm_num)
    (by norm_num) hbound
  rw [exactFactor_two_hundred] at hsign hlarge
  exact ⟨hbound, hsign.2 (hlarge (.inr (by decide)))⟩

/-- The factor of a reference of `300000` is rounded from `1.57` to two, and a value at its reference
leaves the positive half of the residues. -/
theorem sign_amplified_flips :
    let x : ℤ := 300000 * 2 ^ 40
    (300000 : ℚ) * 2 ^ 40 < 2 ^ (60 - 1) ∧ |(x : ℚ)| ≤ 300000 * 2 ^ 40 ∧ 0 < x ∧
      ¬ |exactFactor 60 (2 ^ 40) 300000 * x| < 2 ^ (60 - 1) ∧
      center (keepBits (exactFactor 60 (2 ^ 40) 300000 * x) 60) 60 < 0 := by
  have hround : round (9 / 10 * ((2 : ℚ) ^ (60 - 1) / (300000 * 2 ^ 40))) = 2 := by
    rw [round_eq_iff]
    norm_num
  have hfactor : exactFactor 60 (2 ^ 40) 300000 = 2 := by
    rw [exactFactor_eq_max (by decide), hround]
    rfl
  rw [hfactor]
  refine ⟨by norm_num, by norm_num, by decide, by decide, by decide⟩

end CipherMonitor
