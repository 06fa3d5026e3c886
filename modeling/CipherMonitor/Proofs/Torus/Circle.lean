import Mathlib.Analysis.Normed.Group.AddCircle
import Mathlib.Tactic.Linarith
import CipherMonitor.Proofs.Torus

/-!
# Words as points of the circle

A word of `w` bits stands for the point `x / 2 ^ w` of the circle `ℝ / ℤ`, where words of different
widths and real numbers can be compared.

* `Torus.fraction`, `Torus.toCircle` — the number in `[0, 1)`, and the point; sums of words are sums of
  points.
* `Torus.gap` — the distance of a word from a real number, the shorter way around the circle.
* `Torus.gap_ofNat_le`, `Torus.gap_ofWide_le` — the word of a number, and a rounded word.
* `Torus.exists_abs_sub_le`, `Torus.fraction_eq` — a word close to a number stands for a number close to
  it, which is the fraction if it is in `[0, 1)`.
* `Torus.exists_shiftLeft` — shifting drops an integer part.
* `Torus.exists_modSwitch` — the number of steps of a coarser circle.
* `Torus.gap_scale_le`, `Torus.gap_sum_le` — distances of multiples and of sums.
* `Torus.toCircle_eq_toInt`, `Torus.toInt_sign_of_gap` — words as signed numbers.
-/

namespace CipherMonitor.Torus

variable {w v : ℕ} {x y : BitVec w} {r s h : ℝ}

/-- The real number in `[0, 1)` that a word stands for. -/
noncomputable def fraction (x : BitVec w) : ℝ := x.toNat / 2 ^ w

theorem fraction_nonneg (x : BitVec w) : 0 ≤ fraction x := by
  unfold fraction
  positivity

theorem fraction_lt_one (x : BitVec w) : fraction x < 1 := by
  rw [fraction, div_lt_one (by positivity)]
  exact_mod_cast x.isLt

theorem le_fraction_iff {n : ℕ} : (n : ℝ) / 2 ^ w ≤ fraction x ↔ n ≤ x.toNat := by
  rw [fraction, div_le_div_iff_of_pos_right (by positivity), Nat.cast_le]

theorem fraction_lt_iff {n : ℕ} : fraction x < (n : ℝ) / 2 ^ w ↔ x.toNat < n := by
  rw [fraction, div_lt_div_iff_of_pos_right (by positivity), Nat.cast_lt]

theorem fraction_eighth : fraction eighth = 1 / 8 := by
  have : eighth.toNat = 2 ^ 29 := by decide
  rw [fraction, this]
  norm_num

/-- A number of any size is an integer part and the fraction of its word. -/
theorem div_eq_add_fraction (w n : ℕ) :
    (n : ℝ) / 2 ^ w = (n / 2 ^ w : ℕ) + fraction (BitVec.ofNat w n) := by
  have hsplit : (n : ℝ) = 2 ^ w * (n / 2 ^ w : ℕ) + (n % 2 ^ w : ℕ) := by
    exact_mod_cast (Nat.div_add_mod n (2 ^ w)).symm
  rw [fraction, BitVec.toNat_ofNat, eq_comm, ← eq_sub_iff_add_eq', div_sub' (by positivity),
    div_left_inj' (by positivity), eq_sub_iff_add_eq', ← hsplit]

theorem fraction_add_fraction (x y : BitVec w) :
    ∃ n : ℕ, fraction x + fraction y = n + fraction (x + y) := by
  refine ⟨(x.toNat + y.toNat) / 2 ^ w, ?_⟩
  rw [BitVec.add_def, ← div_eq_add_fraction, fraction, fraction, ← add_div, Nat.cast_add]

/-- Integers are the zero of the circle. -/
@[simp] theorem coe_intCast (n : ℤ) : ((n : ℝ) : UnitAddCircle) = 0 := by
  rw [AddCircle.coe_eq_zero_iff]
  exact ⟨n, by simp⟩

/-- The point of a word. -/
noncomputable def toCircle : BitVec w →+ UnitAddCircle where
  toFun x := (fraction x : UnitAddCircle)
  map_zero' := by simp [fraction]
  map_add' x y := by
    obtain ⟨n, hn⟩ := fraction_add_fraction x y
    rw [← AddCircle.coe_add, hn, AddCircle.coe_add, ← Int.cast_natCast, coe_intCast, zero_add]

theorem toCircle_apply (x : BitVec w) : toCircle x = (fraction x : UnitAddCircle) := rfl

/-- The distance of a word from a real number on the circle. -/
noncomputable def gap (x : BitVec w) (r : ℝ) : ℝ := ‖toCircle x - (r : UnitAddCircle)‖

/-- The distance is the one from the nearest integer. -/
theorem gap_eq (x : BitVec w) (r : ℝ) : gap x r = |fraction x - r - round (fraction x - r)| := by
  rw [gap, toCircle_apply, ← AddCircle.coe_sub, UnitAddCircle.norm_eq]

theorem gap_nonneg (x : BitVec w) (r : ℝ) : 0 ≤ gap x r := norm_nonneg _

theorem gap_le (x : BitVec w) (r : ℝ) (n : ℤ) : gap x r ≤ |fraction x - r - n| :=
  (gap_eq x r).trans_le (round_le _ n)

/-- The word of a number of any size. -/
theorem gap_ofNat_le (w n : ℕ) (r : ℝ) : gap (BitVec.ofNat w n) r ≤ |(n : ℝ) / 2 ^ w - r| := by
  refine (gap_le _ r (-(n / 2 ^ w : ℕ))).trans_eq ?_
  rw [Int.cast_neg, Int.cast_natCast, div_eq_add_fraction]
  congr 1
  ring

/-- Rounding to `w` bits is off by half a unit at most. -/
theorem gap_ofWide_le (hw : w < 64) (x : BitVec 64) :
    gap (ofWide w x) (fraction x) ≤ 1 / 2 ^ (w + 1) := by
  obtain ⟨d, hd⟩ : ∃ d, w + (d + 1) = 64 := ⟨63 - w, by omega⟩
  have hhalf : 2 ^ 64 / 2 ^ (w + 1) = 2 ^ d := by
    rw [Nat.pow_div (by omega) (by decide), show 64 - (w + 1) = d by omega]
  have hunit : (2 : ℝ) ^ 64 = 2 ^ w * (2 * 2 ^ d) := by rw [← hd, pow_add, pow_succ' 2 d]
  rw [ofWide, hhalf, show 64 - w = d + 1 by omega]
  refine (gap_ofNat_le w _ _).trans ?_
  have hlo := Nat.div_mul_le_self (x.toNat + 2 ^ d) (2 ^ (d + 1))
  have hhi := Nat.lt_div_mul_add (a := x.toNat + 2 ^ d) (b := 2 ^ (d + 1)) (by positivity)
  generalize (x.toNat + 2 ^ d) / 2 ^ (d + 1) = n at hlo hhi ⊢
  rw [pow_succ'] at hlo hhi
  have hlo' : (n : ℝ) * (2 * 2 ^ d) ≤ x.toNat + 2 ^ d := by exact_mod_cast hlo
  have hhi' : (x.toNat : ℝ) + 2 ^ d < n * (2 * 2 ^ d) + 2 * 2 ^ d := by exact_mod_cast hhi
  have hsplit : (n : ℝ) / 2 ^ w - fraction x = (n * (2 * 2 ^ d) - x.toNat) / 2 ^ 64 := by
    rw [fraction, hunit]
    field_simp
  have hbound : (1 : ℝ) / 2 ^ (w + 1) = 2 ^ d / 2 ^ 64 := by
    rw [hunit, pow_succ']
    field_simp
  rw [hsplit, hbound, abs_div, abs_of_pos (by positivity : (0 : ℝ) < 2 ^ 64)]
  gcongr
  exact abs_le.2 ⟨by linarith, by linarith⟩

/-- Distances between words. -/
theorem gap_fraction (x : BitVec w) (y : BitVec v) :
    gap x (fraction y) = ‖toCircle x - toCircle y‖ := rfl

@[simp] theorem gap_self (x : BitVec w) : gap x (fraction x) = 0 := by
  rw [gap_fraction, sub_self, norm_zero]

@[simp] theorem gap_neg (x : BitVec w) : gap (-x) (-fraction x) = 0 := by
  rw [gap, AddCircle.coe_neg, ← toCircle_apply, map_neg, sub_self, norm_zero]

theorem gap_triangle (x : BitVec w) (y : BitVec v) (r : ℝ) :
    gap x r ≤ gap x (fraction y) + gap y r := norm_sub_le_norm_sub_add_norm_sub ..

theorem gap_fraction_comm (x : BitVec w) (y : BitVec v) :
    gap x (fraction y) = gap y (fraction x) := norm_sub_rev _ _

/-- A word of fewer bits is at the same place. -/
theorem fraction_toWide (hw : w ≤ 64) (x : BitVec w) : fraction (toWide x) = fraction x := by
  have hunit : (2 : ℝ) ^ 64 = 2 ^ w * 2 ^ (64 - w) := by rw [← pow_add, Nat.add_sub_cancel' hw]
  rw [fraction, fraction, toNat_toWide hw, hunit, Nat.cast_mul, Nat.cast_pow, Nat.cast_ofNat,
    mul_div_mul_right _ _ (by positivity)]

/-- Counting steps is rounding to a word that has the steps as its units. -/
theorem modSwitch_eq {bits : ℕ} (h0 : 0 < bits) (h1 : bits < 64) (x : BitVec w) :
    modSwitch x (2 ^ bits) = .ok (ofWide bits (toWide x)).toNat := by
  obtain ⟨d, hd⟩ : ∃ d, bits + (d + 1) = 64 := ⟨63 - bits, by omega⟩
  have hhalf : 2 ^ 64 / 2 ^ (bits + 1) = 2 ^ d := by
    rw [Nat.pow_div (by omega) (by decide), show 64 - (bits + 1) = d by omega]
  have hunit : 2 ^ 64 = 2 ^ (d + 1) * 2 ^ bits := by rw [← hd, ← pow_add, Nat.add_comm]
  have hsmall : 2 ^ d < 2 ^ 64 := Nat.pow_lt_pow_right (by decide) (by omega)
  rw [modSwitch, require_of ⟨bits, rfl⟩]
  simp only [Nat.log2_two_pow]
  rw [require_of (by omega), show 64 - bits = d + 1 by omega, Nat.add_sub_cancel, BitVec.toNat_add,
    BitVec.toNat_ofNat, Nat.mod_eq_of_lt hsmall, hunit, Nat.mod_mul_right_div_self, ofWide,
    BitVec.toNat_ofNat, hhalf, show 64 - bits = d + 1 by omega]
  rfl

/-- The number of steps is within half a step. -/
theorem exists_modSwitch {bits : ℕ} (h0 : 0 < bits) (h1 : bits < 64) (hw : w ≤ 64) (x : BitVec w) :
    ∃ r, modSwitch x (2 ^ bits) = .ok r ∧ r < 2 ^ bits ∧ gap x (r / 2 ^ bits) ≤ 1 / 2 ^ (bits + 1) := by
  refine ⟨_, modSwitch_eq h0 h1 x, BitVec.isLt _, ?_⟩
  have hround := gap_ofWide_le h1 (toWide x)
  rw [fraction_toWide hw, gap_fraction_comm] at hround
  exact hround

theorem gap_add (x y : BitVec w) (r s : ℝ) : gap (x + y) (r + s) ≤ gap x r + gap y s := by
  rw [gap, map_add, AddCircle.coe_add, add_sub_add_comm]
  exact norm_add_le _ _

theorem gap_neg_neg (x : BitVec w) (r : ℝ) : gap (-x) (-r) = gap x r := by
  rw [gap, map_neg, AddCircle.coe_neg, ← neg_sub', norm_neg, gap]

/-- A multiple of a word multiplies the distance. -/
theorem gap_scale_le (x : BitVec w) (k : ℤ) (r : ℝ) :
    gap (scale x k) (k * r) ≤ |(k : ℝ)| * gap x r := by
  have hword : scale x k = k • x := by rw [scale, zsmul_eq_mul]; rfl
  rw [gap, hword, map_zsmul, ← zsmul_eq_mul, AddCircle.coe_zsmul, ← zsmul_sub, gap,
    ← Int.norm_eq_abs]
  exact norm_zsmul_le k _

theorem gap_sum_le {ι : Type} (l : Finset ι) (f : ι → BitVec w) (g : ι → ℝ) :
    gap (∑ i ∈ l, f i) (∑ i ∈ l, g i) ≤ ∑ i ∈ l, gap (f i) (g i) := by
  classical
  induction l using Finset.induction_on with
  | empty => exact (norm_eq_zero.2 (by rw [Finset.sum_empty, Finset.sum_empty, map_zero,
      AddCircle.coe_zero, sub_zero])).le
  | insert i l hi ih =>
    rw [Finset.sum_insert hi, Finset.sum_insert hi, Finset.sum_insert hi]
    exact (gap_add _ _ _ _).trans (add_le_add_right ih _)

/-- Only the number modulo one matters. -/
theorem gap_add_intCast (x : BitVec w) (r : ℝ) (n : ℤ) : gap x (r + n) = gap x r := by
  rw [gap, AddCircle.coe_add, coe_intCast, add_zero, gap]

/-- Numerators of one residue are one point. -/
theorem gap_div_eq_of_modEq {a b : ℤ} {m : ℕ} (h : a ≡ b [ZMOD 2 ^ m]) (x : BitVec w) :
    gap x (a / 2 ^ m) = gap x (b / 2 ^ m) := by
  obtain ⟨n, hn⟩ := h.symm.dvd
  have hsplit : (a : ℝ) / 2 ^ m = b / 2 ^ m + n := by
    have : (a : ℝ) = b + 2 ^ m * n := by exact_mod_cast eq_add_of_sub_eq' hn
    rw [this]
    field_simp
  rw [hsplit, gap_add_intCast]

/-- A word close to a number stands for a number close to it. -/
theorem exists_abs_sub_le (hx : gap x r ≤ h) :
    ∃ s : ℝ, toCircle x = (s : UnitAddCircle) ∧ |s - r| ≤ h := by
  refine ⟨fraction x - round (fraction x - r), ?_, ?_⟩
  · rw [AddCircle.coe_sub, coe_intCast, sub_zero, toCircle_apply]
  · rwa [sub_right_comm, ← gap_eq]

/-- The fraction is the only number in `[0, 1)` that a word stands for. -/
theorem fraction_eq (hs : toCircle x = (s : UnitAddCircle)) (h0 : 0 ≤ s) (h1 : s < 1) :
    fraction x = s := by
  refine (AddCircle.coe_eq_coe_iff_of_mem_Ico (p := 1) (a := 0) ⟨fraction_nonneg x, ?_⟩ ⟨h0, ?_⟩).1 hs
  · simpa using fraction_lt_one x
  · simpa using h1

/-- Shifting multiplies by a power of two and drops the integer part. -/
theorem exists_shiftLeft (x : BitVec w) (bits : ℕ) :
    ∃ m : ℕ, 2 ^ bits * fraction x = m + fraction (shiftLeft x bits) := by
  refine ⟨x.toNat * 2 ^ bits / 2 ^ w, ?_⟩
  rw [shiftLeft_eq_ofNat, ← div_eq_add_fraction, fraction, Nat.cast_mul, Nat.cast_pow,
    Nat.cast_ofNat]
  ring

/-! ### Words as signed numbers -/

/-- The word of an integer. -/
theorem toCircle_ofInt (w : ℕ) (n : ℤ) :
    toCircle (BitVec.ofInt w n) = ((n / 2 ^ w : ℝ) : UnitAddCircle) := by
  have hmod : ((BitVec.ofInt w n).toNat : ℤ) = n % 2 ^ w := by
    rw [BitVec.toNat_ofInt, Int.toNat_of_nonneg (Int.emod_nonneg _ (by positivity))]
    push_cast
    rfl
  have hsplit : (n : ℝ) / 2 ^ w = fraction (BitVec.ofInt w n) + (n / 2 ^ w : ℤ) := by
    have : (n : ℝ) = 2 ^ w * (n / 2 ^ w : ℤ) + ((BitVec.ofInt w n).toNat : ℤ) := by
      rw [hmod]
      exact_mod_cast (Int.mul_ediv_add_emod n (2 ^ w)).symm
    rw [fraction, this]
    push_cast
    field_simp
    ring
  rw [hsplit, AddCircle.coe_add, coe_intCast, add_zero, toCircle_apply]

theorem gap_ofInt_le (w : ℕ) (n : ℤ) (r : ℝ) : gap (BitVec.ofInt w n) r ≤ |(n : ℝ) / 2 ^ w - r| := by
  rw [gap, toCircle_ofInt, ← AddCircle.coe_sub, UnitAddCircle.norm_eq]
  simpa using round_le ((n : ℝ) / 2 ^ w - r) 0

theorem toCircle_eq_toInt (x : BitVec w) : toCircle x = ((x.toInt / 2 ^ w : ℝ) : UnitAddCircle) := by
  rw [← toCircle_ofInt, BitVec.ofInt_toInt]

theorem toCircle_injective : Function.Injective (toCircle : BitVec w → UnitAddCircle) := by
  intro x y h
  have hfraction : fraction x = fraction y :=
    fraction_eq (h.trans (toCircle_apply y)) (fraction_nonneg y) (fraction_lt_one y)
  rw [fraction, fraction, div_left_inj' (by positivity)] at hfraction
  exact BitVec.eq_of_toNat_eq (by exact_mod_cast hfraction)

/-- A word without distance from the number of an integer is its word. -/
theorem eq_ofInt_of_gap_eq_zero {n : ℤ} (h : gap x (n / 2 ^ w) = 0) : x = BitVec.ofInt w n := by
  refine toCircle_injective ?_
  rwa [toCircle_ofInt, ← sub_eq_zero, ← norm_eq_zero]

/-- A word close to a number that is neither small nor close to `1/2` has the sign of the number. -/
theorem toInt_sign_of_gap {δ : ℝ} (h : gap x r ≤ δ) (hlo : δ < |r|) (hhi : |r| < 1 / 2 - δ) :
    (0 < r → 0 < x.toInt) ∧ (r < 0 → x.toInt < 0) := by
  have hunit : (0 : ℝ) < 2 ^ w := by positivity
  have hword : -1 / 2 ≤ (x.toInt : ℝ) / 2 ^ w ∧ (x.toInt : ℝ) / 2 ^ w < 1 / 2 := by
    have hmin : -(2 : ℝ) ^ w ≤ 2 * x.toInt := by exact_mod_cast BitVec.le_two_mul_toInt (x := x)
    have hmax : 2 * (x.toInt : ℝ) < 2 ^ w := by exact_mod_cast BitVec.two_mul_toInt_lt (x := x)
    rw [le_div_iff₀ hunit, div_lt_iff₀ hunit]
    exact ⟨by linarith, by linarith⟩
  rw [gap, toCircle_eq_toInt, ← AddCircle.coe_sub, UnitAddCircle.norm_eq, abs_le] at h
  obtain ⟨hr, hr'⟩ := abs_le.1 hhi.le
  obtain ⟨hbelow, habove⟩ := abs_lt.1 hhi
  -- Word and number are less than one turn apart, so no turn is needed between them.
  have hturn : round ((x.toInt : ℝ) / 2 ^ w - r) = 0 := by
    generalize round ((x.toInt : ℝ) / 2 ^ w - r) = k at h ⊢
    by_contra hk
    rcases lt_or_gt_of_ne hk with hk | hk
    · have : (k : ℝ) ≤ -1 := by exact_mod_cast Int.le_sub_one_of_lt hk
      linarith
    · have : (1 : ℝ) ≤ k := by exact_mod_cast hk
      linarith
  rw [hturn, Int.cast_zero, sub_zero] at h
  constructor
  · intro hpos
    rw [abs_of_pos hpos] at hlo
    have : 0 < (x.toInt : ℝ) / 2 ^ w := by linarith
    exact_mod_cast (div_pos_iff_of_pos_right hunit).1 this
  · intro hneg
    rw [abs_of_neg hneg] at hlo
    have : (x.toInt : ℝ) / 2 ^ w < 0 := by linarith
    rw [div_lt_iff₀ hunit, zero_mul] at this
    exact_mod_cast this

end CipherMonitor.Torus
