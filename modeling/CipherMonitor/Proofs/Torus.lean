import Mathlib.Algebra.BigOperators.Group.Finset.Basic
import Mathlib.Algebra.Order.BigOperators.Group.Finset
import Mathlib.Data.BitVec
import Mathlib.Tactic.Ring
import CipherMonitor.Lwe.Basic

/-!
# Distances on the torus

* `Torus.distance` — how far apart two words are, the shorter way around the torus.
* `Torus.distance_triangle`, `Torus.distance_add`, `Torus.distance_sum` — distances of sums.
* `Torus.scale_add`, `Torus.scale_scale`, `Torus.distance_scale_le` — multiples of words.
* `Torus.shiftLeft_eq_mul`, `Torus.shiftLeft_shiftLeft` — shifts as products.
* `Torus.signWord` — the words of the two verdicts.
* `Lwe.bit_of_distance` — a phase close to the word of a verdict has its bit.
-/

namespace CipherMonitor

namespace Torus

variable {w : ℕ}

/-- The magnitude of the difference, as a number around zero. -/
def distance (x y : BitVec w) : ℕ := (x - y).toInt.natAbs

theorem natAbs_bmod_le (x : ℤ) (m : ℕ) : (x.bmod m).natAbs ≤ x.natAbs := by
  rcases Nat.eq_zero_or_pos m with rfl | hm
  · simp [Int.bmod]
  have hlo := Int.le_bmod (x := x) hm
  have hhi := Int.bmod_lt (x := x) hm
  -- Numbers outside the range are farther from zero than any number inside.
  by_cases h : -((m : ℤ) / 2) ≤ x ∧ x < ((m : ℤ) + 1) / 2
  · rw [Int.bmod_eq_of_le h.1 h.2]
  · omega

theorem natAbs_toInt_neg_le (x : BitVec w) : (-x).toInt.natAbs ≤ x.toInt.natAbs := by
  rw [BitVec.toInt_neg, ← Int.natAbs_neg x.toInt]
  exact natAbs_bmod_le _ _

theorem natAbs_toInt_add_le (x y : BitVec w) :
    (x + y).toInt.natAbs ≤ x.toInt.natAbs + y.toInt.natAbs := by
  rw [BitVec.toInt_add]
  exact (natAbs_bmod_le _ _).trans (Int.natAbs_add_le _ _)

@[simp] theorem distance_self (x : BitVec w) : distance x x = 0 := by simp [distance]

theorem distance_comm (x y : BitVec w) : distance x y = distance y x := by
  have h : ∀ x y : BitVec w, distance x y ≤ distance y x := by
    intro x y
    rw [distance, distance, ← neg_sub y x]
    exact natAbs_toInt_neg_le _
  exact le_antisymm (h x y) (h y x)

theorem distance_triangle (x y z : BitVec w) : distance x z ≤ distance x y + distance y z := by
  rw [distance, ← sub_add_sub_cancel x y z]
  exact natAbs_toInt_add_le _ _

theorem distance_add (x y x' y' : BitVec w) :
    distance (x + y) (x' + y') ≤ distance x x' + distance y y' := by
  rw [distance, add_sub_add_comm]
  exact natAbs_toInt_add_le _ _

@[simp] theorem distance_add_right (x y z : BitVec w) :
    distance (x + z) (y + z) = distance x y := by
  rw [distance, distance, add_sub_add_right_eq_sub]

theorem distance_sub_left (x y z : BitVec w) : distance (z - x) (z - y) = distance x y := by
  rw [distance_comm x y, distance, distance, sub_sub_sub_cancel_left]

@[simp] theorem distance_neg (x y : BitVec w) : distance (-x) (-y) = distance x y := by
  rw [← zero_sub, ← zero_sub, distance_sub_left]

@[simp] theorem distance_add_left (x y z : BitVec w) :
    distance (z + x) (z + y) = distance x y := by
  rw [add_comm z, add_comm z, distance_add_right]

theorem distance_sum {ι : Type} (l : Finset ι) (f g : ι → BitVec w) :
    distance (∑ i ∈ l, f i) (∑ i ∈ l, g i) ≤ ∑ i ∈ l, distance (f i) (g i) := by
  classical
  induction l using Finset.induction_on with
  | empty => simp
  | insert i l hi ih =>
    rw [Finset.sum_insert hi, Finset.sum_insert hi, Finset.sum_insert hi]
    exact (distance_add _ _ _ _).trans (Nat.add_le_add_left ih _)

theorem natAbs_toInt_ofInt_le (w : ℕ) (r : ℤ) : (BitVec.ofInt w r).toInt.natAbs ≤ r.natAbs := by
  rw [BitVec.toInt_ofInt]
  exact natAbs_bmod_le _ _

/-- A multiple multiplies the distance. -/
theorem distance_scale_le (x y : BitVec w) (d : ℤ) :
    distance (scale x d) (scale y d) ≤ d.natAbs * distance x y := by
  have hdifference : scale x d - scale y d = BitVec.ofInt w (d * (x - y).toInt) := by
    rw [BitVec.ofInt_mul, BitVec.ofInt_toInt, scale, scale, mul_sub]
  rw [distance, hdifference, distance, ← Int.natAbs_mul]
  exact natAbs_toInt_ofInt_le w _

theorem distance_ite (c : Prop) [Decidable c] (x y : BitVec w) :
    distance (if c then x else 0) (if c then y else 0) = if c then distance x y else 0 := by
  split_ifs <;> simp

theorem toNat_toWide (hw : w ≤ 64) (x : BitVec w) : (toWide x).toNat = x.toNat * 2 ^ (64 - w) := by
  have hunit : 2 ^ 64 = 2 ^ w * 2 ^ (64 - w) := by rw [← pow_add, Nat.add_sub_cancel' hw]
  rw [toWide, BitVec.toNat_ofNat, Nat.mod_eq_of_lt]
  rw [hunit]
  exact Nat.mul_lt_mul_of_pos_right x.isLt (Nat.two_pow_pos _)

/-! ### Multiples and shifts -/

@[simp] theorem scale_zero (x : BitVec w) : scale x 0 = 0 := by simp [scale]

@[simp] theorem scale_one (x : BitVec w) : scale x 1 = x := by
  rw [scale, ← Int.cast_one]
  exact one_mul x

@[simp] theorem scale_neg_one (x : BitVec w) : scale x (-1) = -x := by
  rw [scale, show BitVec.ofInt w (-1) = -1 from BitVec.ofInt_neg, neg_one_mul]

theorem scale_add (x y : BitVec w) (d : ℤ) : scale (x + y) d = scale x d + scale y d := mul_add _ _ _

theorem scale_scale (x : BitVec w) (c d : ℤ) : scale (scale x c) d = scale x (c * d) := by
  rw [scale, scale, scale, mul_comm c, BitVec.ofInt_mul, mul_assoc]

/-- The machine's shift would do for every number of bits. -/
theorem shiftLeft_eq_hShiftLeft (x : BitVec w) (bits : ℕ) : shiftLeft x bits = x <<< bits := by
  rw [shiftLeft]
  split_ifs with h
  · exact (BitVec.shiftLeft_eq_zero h).symm
  · rfl

theorem shiftLeft_eq_ofNat (x : BitVec w) (bits : ℕ) :
    shiftLeft x bits = BitVec.ofNat w (x.toNat * 2 ^ bits) := by
  apply BitVec.eq_of_toNat_eq
  rw [shiftLeft, BitVec.toNat_ofNat]
  split_ifs with h
  · rw [Nat.mod_eq_zero_of_dvd ((pow_dvd_pow 2 h).mul_left _)]
    rfl
  · rw [BitVec.toNat_shiftLeft, Nat.shiftLeft_eq]

/-- Shifting is multiplication by a power of two. -/
theorem shiftLeft_eq_mul (x : BitVec w) (bits : ℕ) :
    shiftLeft x bits = x * BitVec.ofNat w (2 ^ bits) := by
  rw [shiftLeft_eq_ofNat, BitVec.ofNat_mul, BitVec.ofNat_toNat, BitVec.setWidth_eq]

theorem shiftLeft_eq_scale (x : BitVec w) (bits : ℕ) : shiftLeft x bits = scale x (2 ^ bits : ℕ) := by
  rw [shiftLeft_eq_mul, scale, BitVec.ofInt_natCast, mul_comm]

theorem shiftLeft_shiftLeft (x : BitVec w) (a b : ℕ) :
    shiftLeft (shiftLeft x a) b = shiftLeft x (a + b) := by
  rw [shiftLeft_eq_mul, shiftLeft_eq_mul, shiftLeft_eq_mul, pow_add, BitVec.ofNat_mul, mul_assoc]

@[simp] theorem shiftLeft_zero (x : BitVec w) : shiftLeft x 0 = x := by
  rw [shiftLeft_eq_ofNat, pow_zero, mul_one, BitVec.ofNat_toNat, BitVec.setWidth_eq]

/-! ### Verdicts -/

/-- The word of an accepting verdict, and that of a rejecting one. -/
def signWord (accepting : Bool) : BitVec 32 := if accepting then eighth else -eighth

end Torus

open Torus

/-- A phase less than `1/8` away from the word of a verdict has the bit of the verdict. -/
theorem Lwe.bit_of_distance {x : BitVec 32} {accepting : Bool}
    (h : distance x (signWord accepting) < 2 ^ 29) : Lwe.bit x = accepting := by
  have hlo := BitVec.le_toInt x
  have hhi := BitVec.toInt_lt (x := x)
  rw [distance, BitVec.toInt_sub, Int.bmod_def] at h
  cases accepting with
  | true =>
    have hword : (signWord true).toInt = 2 ^ 29 := by decide
    rw [hword] at h
    simp only [Lwe.bit, decide_eq_true_eq]
    split_ifs at h <;> omega
  | false =>
    have hword : (signWord false).toInt = -2 ^ 29 := by decide
    rw [hword] at h
    simp only [Lwe.bit, decide_eq_false_iff_not]
    split_ifs at h <;> omega

end CipherMonitor
