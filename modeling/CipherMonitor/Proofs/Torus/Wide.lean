import Mathlib.Data.Int.ModEq
import Mathlib.Tactic.Linarith
import Mathlib.Tactic.Positivity
import CipherMonitor.Proofs.Torus

/-!
# Embedding into the 64-bit torus

A word of fewer bits stands for a multiple of a larger unit, so sums and multiples are the same in the
64-bit torus, and distances are so many times larger.  Rounding back is off by half a unit, and not at
all for words that had their place already.

* `Torus.toWide_add`, `Torus.toWide_scale` — sums and multiples of embedded words.
* `Torus.distance_toWide` — distances of embedded words.
* `Torus.distance_toWide_ofWide_le`, `Torus.toWide_ofWide_toWide` — rounding.
-/

namespace CipherMonitor.Torus

variable {w v : ℕ}

theorem natCast_toNat_ofInt (w : ℕ) (n : ℤ) :
    ((BitVec.ofInt w n).toNat : ℤ) = n % (2 ^ w : ℕ) := by
  have hpos : (0 : ℤ) < (2 ^ w : ℕ) := by positivity
  rw [BitVec.toNat_ofInt, Int.toNat_of_nonneg (Int.emod_nonneg _ hpos.ne')]

theorem toWide_ofInt (hw : w ≤ 64) (n : ℤ) :
    toWide (BitVec.ofInt w n) = BitVec.ofInt 64 (n * 2 ^ (64 - w)) := by
  have hunit : (2 ^ 64 : ℕ) = ((2 ^ w : ℕ) : ℤ) * 2 ^ (64 - w) := by
    rw [Nat.cast_pow, Nat.cast_pow, Nat.cast_ofNat, ← pow_add, Nat.add_sub_cancel' hw]
  have hcast : (((BitVec.ofInt w n).toNat * 2 ^ (64 - w) : ℕ) : ℤ) ≡ n * 2 ^ (64 - w)
      [ZMOD (2 ^ 64 : ℕ)] := by
    rw [Nat.cast_mul, natCast_toNat_ofInt, Nat.cast_pow 2 (64 - w), Nat.cast_ofNat, hunit]
    exact Int.ModEq.mul_right' (Int.mod_modEq n _)
  apply BitVec.eq_of_toNat_eq
  rw [toWide, ← BitVec.ofInt_natCast, BitVec.toNat_ofInt, hcast, BitVec.toNat_ofInt]

/-- An embedded word is the number of units times the unit. -/
theorem toWide_eq (hw : w ≤ 64) (x : BitVec w) :
    toWide x = BitVec.ofInt 64 (x.toInt * 2 ^ (64 - w)) := by
  rw [← toWide_ofInt hw, BitVec.ofInt_toInt]

@[simp] theorem toWide_zero : toWide 0#w = 0#64 := by simp [toWide]

theorem toWide_add (hw : w ≤ 64) (x y : BitVec w) : toWide (x + y) = toWide x + toWide y := by
  rw [toWide_eq hw x, toWide_eq hw y, ← BitVec.ofInt_add, ← add_mul, ← toWide_ofInt hw,
    BitVec.ofInt_add, BitVec.ofInt_toInt, BitVec.ofInt_toInt]

theorem toWide_scale (hw : w ≤ 64) (x : BitVec w) (d : ℤ) :
    toWide (scale x d) = scale (toWide x) d := by
  rw [scale, scale, toWide_eq hw x, ← BitVec.ofInt_mul, ← mul_assoc, ← toWide_ofInt hw,
    BitVec.ofInt_mul, BitVec.ofInt_toInt]

@[simp] theorem toWide_toWide (x : BitVec w) : toWide (toWide x) = toWide x := by
  rw [toWide, Nat.sub_self, pow_zero, mul_one, BitVec.ofNat_toNat, BitVec.setWidth_eq]

/-- Distances are multiples of the unit, too. -/
theorem distance_toWide (hw : w ≤ 64) (x y : BitVec w) :
    distance (toWide x) (toWide y) = distance x y * 2 ^ (64 - w) := by
  have hsub : toWide x - toWide y = BitVec.ofInt 64 ((x - y).toInt * 2 ^ (64 - w)) := by
    rw [sub_eq_iff_eq_add, ← toWide_eq hw, ← toWide_add hw, sub_add_cancel]
  have hunit : (2 ^ 64 : ℕ) = (2 : ℤ) ^ w * 2 ^ (64 - w) := by
    rw [Nat.cast_pow, Nat.cast_ofNat, ← pow_add, Nat.add_sub_cancel' hw]
  have hpos : (0 : ℤ) < 2 ^ (64 - w) := by positivity
  have hlo := BitVec.le_two_mul_toInt (x := x - y)
  have hhi := BitVec.two_mul_toInt_lt (x := x - y)
  rw [distance, hsub, BitVec.toInt_ofInt, distance, Int.bmod_eq_of_le_mul_two,
    Int.natAbs_mul, Int.natAbs_pow]
  · rfl
  · rw [hunit]
    nlinarith
  · rw [hunit]
    nlinarith

/-! ### Rounding back -/

/-- The half unit that rounding adds does not reach the next one. -/
theorem half_unit_lt (hw : w ≤ 64) : 2 ^ 64 / 2 ^ (w + 1) < 2 ^ (64 - w) := by
  have hunit : 2 ^ 64 = 2 ^ w * 2 ^ (64 - w) := by rw [← pow_add, Nat.add_sub_cancel' hw]
  rw [hunit, pow_succ, Nat.mul_div_mul_left _ _ (by positivity)]
  exact Nat.div_lt_self (by positivity) (by decide)

theorem toWide_ofWide (hw : w ≤ 64) (x : BitVec 64) : toWide (ofWide w x) =
    BitVec.ofInt 64 (((x.toNat + 2 ^ 64 / 2 ^ (w + 1)) / 2 ^ (64 - w) : ℕ) * 2 ^ (64 - w)) := by
  rw [ofWide, ← BitVec.ofInt_natCast, toWide_ofInt hw]

theorem ofInt_toNat (x : BitVec w) : BitVec.ofInt w x.toNat = x := by
  rw [BitVec.ofInt_natCast, BitVec.ofNat_toNat, BitVec.setWidth_eq]

/-- Rounding to `w` bits is off by half a unit at most. -/
theorem distance_toWide_ofWide_le (hw : w < 64) (x : BitVec 64) :
    distance (toWide (ofWide w x)) x ≤ 2 ^ (63 - w) := by
  obtain ⟨d, hd⟩ : ∃ d, w + (d + 1) = 64 := ⟨63 - w, by omega⟩
  have hhalf : 2 ^ 64 / 2 ^ (w + 1) = 2 ^ d := by
    rw [Nat.pow_div (by omega) (by decide), show 64 - (w + 1) = d by omega]
  have hlo := Nat.div_mul_le_self (x.toNat + 2 ^ d) (2 ^ (d + 1))
  have hhi := Nat.lt_div_mul_add (a := x.toNat + 2 ^ d) (b := 2 ^ (d + 1)) (by positivity)
  rw [toWide_ofWide hw.le, hhalf, show 64 - w = d + 1 by omega, show 63 - w = d by omega]
  generalize (x.toNat + 2 ^ d) / 2 ^ (d + 1) = n at hlo hhi ⊢
  have hdifference : BitVec.ofInt 64 (n * 2 ^ (d + 1)) - x =
      BitVec.ofInt 64 (n * 2 ^ (d + 1) - x.toNat) := by
    rw [sub_eq_iff_eq_add, ← ofInt_toNat x, ← BitVec.ofInt_add, ofInt_toNat, sub_add_cancel]
  rw [distance, hdifference]
  refine (natAbs_toInt_ofInt_le _ _).trans ?_
  rw [pow_succ'] at hlo hhi ⊢
  zify at hlo hhi ⊢
  exact abs_le.2 ⟨by linarith, by linarith⟩

/-- A word that has its place among the multiples of the unit keeps it. -/
theorem toWide_ofWide_toWide (hv : v ≤ w) (hw : w ≤ 64) (x : BitVec v) :
    toWide (ofWide w (toWide x)) = toWide x := by
  have hplace : (toWide x).toNat = x.toNat * 2 ^ (w - v) * 2 ^ (64 - w) := by
    rw [toNat_toWide (hv.trans hw), mul_assoc, ← pow_add]
    congr 2
    omega
  rw [toWide_ofWide hw, hplace, Nat.add_comm, Nat.add_mul_div_right _ _ (by positivity),
    Nat.div_eq_of_lt (half_unit_lt hw), Nat.zero_add, ← ofInt_toNat (toWide x), hplace]
  push_cast
  rfl

end CipherMonitor.Torus
