import Mathlib.Algebra.BigOperators.Intervals
import Mathlib.Algebra.BigOperators.Ring.Finset
import Mathlib.Algebra.Order.Ring.Abs
import Mathlib.Data.Int.ModEq
import Mathlib.Data.Nat.Cast.Order.Field
import Mathlib.Tactic.FieldSimp
import Mathlib.Tactic.Linarith
import CipherMonitor.Gadget
import CipherMonitor.Proofs.Torus.Wide

/-!
# Digits give back the word

The digits of a word are cut from it after half of the last weight was added, so their combination with
the weights is the word rounded to the last weight.  The signed digits are those of a word that has half
of the base added in every place.

* `Gadget.weight_eq`, `Gadget.recompose_signedDigits` — weights as powers of two, recomposition as an
  integer.
* `Gadget.sum_digit` — unsigned digits of a number give back its upper bits.
* `Gadget.addedFrom` — what is added to a word before its signed digits are cut from it.
* `Gadget.sum_signedDigit` — the first signed digits give back the upper bits of the sum.
* `Gadget.exists_recompose`, `Gadget.distance_recompose_le` — how far the recomposed word is off.
* `Gadget.natAbs_signedDigit_le` — the size of a digit.
* `Gadget.distance_row_le` — the combination of digits with noisy multiples of the weights.
* `Gadget.half_base_le`, `Gadget.half_last_weight_le` — the two parts of such bounds as fractions.
* `Gadget.distance_wide_row_le` — the same for digits of a word of another width.
-/

namespace CipherMonitor.Gadget

open Finset Torus

variable {g : Gadget} {w v : ℕ}

/-- No digit reaches below a later one. -/
theorem bits_le {i k : ℕ} (hi : i < k) (hk : k * g.base2k ≤ w) : (i + 1) * g.base2k ≤ w :=
  (Nat.mul_le_mul_right _ (Nat.succ_le_of_lt hi)).trans hk

theorem rows_mul (g : Gadget) : g.rows * g.base2k = g.precision := Nat.mul_comm _ _

theorem place_le_precision {i : ℕ} (hi : i < g.rows) : (i + 1) * g.base2k ≤ g.precision :=
  bits_le hi g.rows_mul.le

/-- Within the word, the weight of a digit is a power of two. -/
theorem weight_eq (hw : w ≤ 64) {i : ℕ} (h : (i + 1) * g.base2k ≤ w) :
    g.weight w i = BitVec.ofNat w (2 ^ (w - (i + 1) * g.base2k)) := by
  obtain ⟨p, hp⟩ : ∃ p, p + (i + 1) * g.base2k = w := ⟨w - (i + 1) * g.base2k, by omega⟩
  obtain ⟨d, hd⟩ : ∃ d, w + d = 64 := ⟨64 - w, by omega⟩
  have hunit : 2 ^ 64 = 2 ^ w * 2 ^ d := by rw [← hd, pow_add]
  have hhalf : 2 ^ 64 / 2 ^ (w + 1) < 2 ^ d := by
    rw [show d = 64 - w by omega]
    exact half_unit_lt hw
  rw [weight, if_neg (by omega), place, show 64 - (i + 1) * g.base2k = p + d by omega,
    show w - (i + 1) * g.base2k = p by omega, ofWide, show 64 - w = d by omega, BitVec.toNat_ofNat]
  apply BitVec.eq_of_toNat_eq
  generalize 2 ^ 64 / 2 ^ (w + 1) = half at hhalf
  rw [BitVec.toNat_ofNat, BitVec.toNat_ofNat, hunit, pow_add, Nat.mul_mod_mul_right, Nat.add_comm,
    Nat.add_mul_div_right _ _ (by positivity), Nat.div_eq_of_lt hhalf, Nat.zero_add, Nat.mod_mod]

/-- Digit `i` of the word is the multiple of its weight. -/
theorem scale_weight (hw : w ≤ 64) {i : ℕ} (h : (i + 1) * g.base2k ≤ w) (d : ℤ) :
    scale (g.weight w i) d = BitVec.ofInt w (d * 2 ^ (w - (i + 1) * g.base2k)) := by
  rw [weight_eq hw h, scale, BitVec.ofInt_mul]
  congr 1

/-! ### Digits of a number -/

theorem digit_lt (g : Gadget) (x : BitVec 64) (i : ℕ) : g.digit x i < 2 ^ g.base2k :=
  Nat.mod_lt _ (by positivity)

/-- The digits of a number below `2 ^ 64` give back its upper bits. -/
theorem sum_digit (x base : ℕ) {rows : ℕ} (h : rows * base ≤ 64) :
    (∑ i ∈ range rows, x / 2 ^ (64 - (i + 1) * base) % 2 ^ base * 2 ^ (64 - (i + 1) * base)) +
      x % 2 ^ (64 - rows * base) = x % 2 ^ 64 := by
  induction rows with
  | zero => simp
  | succ rows ih =>
    have hle : rows * base ≤ 64 := (Nat.mul_le_mul_right base rows.le_succ).trans h
    have hsplit : 64 - rows * base = (64 - (rows + 1) * base) + base := by
      rw [Nat.add_one_mul] at h ⊢
      omega
    rw [← ih hle, sum_range_succ, hsplit, pow_add, Nat.mod_mul]
    ring

theorem offset_eq (g : Gadget) : g.offset =
    BitVec.ofNat 64 (∑ i ∈ range g.rows, 2 ^ g.base2k / 2 * 2 ^ g.place i) := by
  rw [offset]
  induction g.rows with
  | zero => rfl
  | succ rows ih => rw [List.range_succ, List.foldl_append, ih, sum_range_succ, BitVec.ofNat_add]; rfl

/-- Half of the base in the first places has no part below them. -/
theorem dvd_offset (g : Gadget) (k : ℕ) :
    2 ^ (64 - k * g.base2k) ∣ ∑ i ∈ range k, 2 ^ g.base2k / 2 * 2 ^ g.place i := by
  refine dvd_sum fun i hi => (pow_dvd_pow 2 ?_).mul_left _
  have : (i + 1) * g.base2k ≤ k * g.base2k := bits_le (mem_range.1 hi) le_rfl
  rw [place]
  omega

/-! ### What is added to a word -/

/-- Half of the last weight. -/
def rounding (g : Gadget) : ℕ := if 64 ≤ g.precision then 0 else 2 ^ (63 - g.precision)

theorem rounded_eq (g : Gadget) (x : BitVec 64) : g.rounded x = x + BitVec.ofNat 64 g.rounding := by
  rw [rounded, rounding]
  split_ifs
  · exact (BitVec.add_zero x).symm
  · rfl

/-- What is added to a word from digit `j` on: half of the base in every place, and half of the last
weight. -/
def addedFrom (g : Gadget) (j : ℕ) : ℕ :=
  ∑ i ∈ Ico j g.rows, 2 ^ g.base2k / 2 * 2 ^ g.place i + g.rounding

@[simp] theorem addedFrom_rows (g : Gadget) : g.addedFrom g.rows = g.rounding := by
  simp [addedFrom]

theorem sum_add_addedFrom {j : ℕ} (hj : j ≤ g.rows) :
    ∑ i ∈ range j, 2 ^ g.base2k / 2 * 2 ^ g.place i + g.addedFrom j = g.addedFrom 0 := by
  rw [addedFrom, addedFrom, ← add_assoc, sum_range_add_sum_Ico _ hj, range_eq_Ico]

theorem toNat_shifted (g : Gadget) (x : BitVec 64) :
    (g.rounded x + g.offset).toNat = (x.toNat + g.addedFrom 0) % 2 ^ 64 := by
  rw [rounded_eq, offset_eq, add_assoc, ← BitVec.ofNat_add, BitVec.toNat_add, BitVec.toNat_ofNat,
    Nat.add_mod_mod, addedFrom, ← range_eq_Ico, Nat.add_comm g.rounding]

/-! ### Signed digits -/

/-- Signed digit `i` of a word. -/
def signedDigit (g : Gadget) (a : BitVec w) (i : ℕ) : ℤ :=
  g.digit (g.rounded (toWide a) + g.offset) i - (2 ^ g.base2k / 2 : ℕ)

theorem signedDigits_eq (g : Gadget) (a : BitVec w) :
    g.signedDigits a = (List.range g.rows).map (g.signedDigit a) := rfl

theorem two_pow_base (hbase : 1 ≤ g.base2k) : 2 ^ g.base2k = 2 * 2 ^ (g.base2k - 1) := by
  rw [← pow_succ', Nat.sub_add_cancel hbase]

/-- A digit is half of the base at most. -/
theorem natAbs_signedDigit_le (g : Gadget) (a : BitVec w) (i : ℕ) :
    (g.signedDigit a i).natAbs ≤ 2 ^ g.base2k / 2 := by
  have hlt := g.digit_lt (g.rounded (toWide a) + g.offset) i
  rw [signedDigit]
  rcases Nat.eq_zero_or_pos g.base2k with h | h
  · rw [h] at hlt ⊢
    omega
  · have hdouble := two_pow_base h
    omega

/-- The first signed digits of a word give back its upper bits, with the carry of what is added below
them: what the offset adds to the digits themselves is taken away again. -/
theorem sum_signedDigit {k : ℕ} (hk : k ≤ g.rows) (h : k * g.base2k ≤ 64) (a : BitVec w) :
    ∑ i ∈ range k, g.signedDigit a i * 2 ^ g.place i ≡ ((toWide a).toNat + g.addedFrom k : ℕ) -
      (((toWide a).toNat + g.addedFrom k) % 2 ^ (64 - k * g.base2k) : ℕ) [ZMOD 2 ^ 64] := by
  have hdvd := dvd_offset g k
  have hsplit := sum_add_addedFrom hk
  set offset := ∑ i ∈ range k, 2 ^ g.base2k / 2 * 2 ^ g.place i with hoffset
  set y := (toWide a).toNat + g.addedFrom k with hy
  have hx : (toWide a).toNat + g.addedFrom 0 = y + offset := by omega
  -- Whole turns have no part below the last digit either.
  have hlow : (y + offset) % 2 ^ 64 % 2 ^ (64 - k * g.base2k) = y % 2 ^ (64 - k * g.base2k) := by
    rw [Nat.mod_mod_of_dvd _ (pow_dvd_pow 2 (Nat.sub_le _ _)), Nat.add_mod,
      Nat.mod_eq_zero_of_dvd hdvd, Nat.add_zero, Nat.mod_mod]
  have hdigits : ((∑ i ∈ range k, (y + offset) % 2 ^ 64 / 2 ^ g.place i % 2 ^ g.base2k *
      2 ^ g.place i : ℕ) : ℤ) + (y % 2 ^ (64 - k * g.base2k) : ℕ) = ((y + offset) % 2 ^ 64 : ℕ) := by
    have := sum_digit ((y + offset) % 2 ^ 64) g.base2k h
    rw [hlow, Nat.mod_mod] at this
    exact_mod_cast this
  have hsum : ∑ i ∈ range k, g.signedDigit a i * 2 ^ g.place i =
      ((∑ i ∈ range k, (y + offset) % 2 ^ 64 / 2 ^ g.place i % 2 ^ g.base2k * 2 ^ g.place i : ℕ) :
        ℤ) - offset := by
    simp only [signedDigit, digit, toNat_shifted, hx, sub_mul, sum_sub_distrib, hoffset]
    push_cast
    rfl
  have hturn : (((y + offset) % 2 ^ 64 : ℕ) : ℤ) ≡ y + offset [ZMOD 2 ^ 64] := by
    push_cast
    exact Int.mod_modEq _ _
  have hback := (hturn.sub_right (y % 2 ^ (64 - k * g.base2k) : ℕ)).sub_right (offset : ℤ)
  rw [hsum, eq_sub_of_add_eq hdigits]
  rwa [add_sub_right_comm, add_sub_cancel_right] at hback

/-! ### Recomposition -/

theorem recompose_map_range (g : Gadget) (w rows : ℕ) (f : ℕ → ℤ) :
    g.recompose w ((List.range rows).map f) = ∑ i ∈ range rows, scale (g.weight w i) (f i) := by
  induction rows with
  | zero => rfl
  | succ rows ih =>
    rw [recompose] at ih ⊢
    rw [sum_range_succ, ← ih, List.range_succ, List.map_append, List.zipIdx_append, List.map_append,
      List.sum_append]
    simp

theorem ofInt_sum {ι : Type} (l : Finset ι) (f : ι → ℤ) (w : ℕ) :
    BitVec.ofInt w (∑ i ∈ l, f i) = ∑ i ∈ l, BitVec.ofInt w (f i) := by
  classical
  induction l using Finset.induction_on with
  | empty => rfl
  | insert i l hi ih => rw [sum_insert hi, sum_insert hi, BitVec.ofInt_add, ih]

/-- The first digits have their weights within the word, and those below it count nothing. -/
theorem recompose_range (hw : w ≤ 64) {k : ℕ} (hk : k ≤ g.rows) (hin : k * g.base2k ≤ w)
    (hout : ∀ i, k ≤ i → i < g.rows → w < (i + 1) * g.base2k) (f : ℕ → ℤ) :
    g.recompose w ((List.range g.rows).map f) =
      BitVec.ofInt w (∑ i ∈ range k, f i * 2 ^ (w - (i + 1) * g.base2k)) := by
  have hbelow : ∀ i ∈ range g.rows, i ∉ range k → scale (g.weight w i) (f i) = 0 := by
    intro i hi hik
    rw [mem_range] at hi hik
    rw [weight, if_pos (hout i (not_lt.1 hik) hi), scale, mul_zero]
  rw [recompose_map_range, ofInt_sum, ← sum_subset (range_subset_range.2 hk) hbelow]
  exact sum_congr rfl fun i hi => scale_weight hw (bits_le (mem_range.1 hi) hin) _

/-- The word of the digits. -/
theorem recompose_signedDigits (hw : w ≤ 64) (h : g.precision ≤ w) (a : BitVec v) :
    g.recompose w (g.signedDigits a) =
      BitVec.ofInt w (∑ i ∈ range g.rows, g.signedDigit a i * 2 ^ (w - (i + 1) * g.base2k)) := by
  rw [← g.rows_mul] at h
  exact recompose_range hw le_rfl h (fun i hle hlt => absurd hlt hle.not_gt) _

/-- What is cut off the rounded word lies around half of the last weight. -/
theorem low_sub_rounding (h : g.precision ≤ 64) {low : ℤ} (h0 : 0 ≤ low)
    (h1 : low < 2 ^ (64 - g.precision)) :
    -2 ^ 64 ≤ 2 ^ (g.precision + 1) * (low - g.rounding) ∧
      2 ^ (g.precision + 1) * (low - g.rounding) < 2 ^ 64 := by
  rw [rounding]
  split_ifs with hfull
  · rw [show 64 - g.precision = 0 by omega, pow_zero] at h1
    obtain rfl : low = 0 := by omega
    simp
  · obtain ⟨d, hd⟩ : ∃ d, g.precision + 1 + d = 64 := ⟨63 - g.precision, by omega⟩
    have hunit : (2 : ℤ) ^ 64 = 2 ^ (g.precision + 1) * 2 ^ d := by rw [← pow_add, hd]
    rw [show 64 - g.precision = d + 1 by omega, pow_succ] at h1
    rw [show 63 - g.precision = d by omega, hunit]
    push_cast
    have hpos : (0 : ℤ) < 2 ^ (g.precision + 1) := by positivity
    constructor <;> nlinarith

/-- Digits of the 64-bit torus are multiples of the unit of `w` bits. -/
theorem sum_mul_place (hw : w ≤ 64) {k : ℕ} (hk : k * g.base2k ≤ w) (f : ℕ → ℤ) :
    ∑ i ∈ range k, f i * 2 ^ g.place i =
      (∑ i ∈ range k, f i * 2 ^ (w - (i + 1) * g.base2k)) * 2 ^ (64 - w) := by
  rw [sum_mul]
  refine sum_congr rfl fun i hi => ?_
  have := bits_le (mem_range.1 hi) hk
  rw [mul_assoc, ← pow_add, place]
  congr 2
  omega

/-- A word is any number and what it is more than that, whole turns left aside. -/
theorem eq_ofInt_add (a : BitVec w) (n k : ℤ) :
    a = BitVec.ofInt w n + BitVec.ofInt w (a.toNat - n - k * 2 ^ w) := by
  have hword : n + (a.toNat - n - k * 2 ^ w) = a.toNat + (2 ^ w : ℕ) * (-k) := by
    push_cast
    ring
  have ha : (a.toNat : ℤ) < (2 ^ w : ℕ) := by exact_mod_cast a.isLt
  apply BitVec.eq_of_toNat_eq
  rw [← BitVec.ofInt_add, hword, BitVec.toNat_ofInt, Int.add_mul_emod_self_left,
    Int.emod_eq_of_lt (Int.natCast_nonneg _) ha, Int.toNat_natCast]

/-- Digits give back the upper bits of a word to which something was added.  In units of `w` bits the
word is more than them by what was cut off, less what was added. -/
theorem exists_remainder (hw : w ≤ 64) {k : ℕ} (hk : k * g.base2k ≤ w) (a : BitVec w) {f : ℕ → ℤ}
    {added : ℕ} (hsum : ∑ i ∈ range k, f i * 2 ^ g.place i ≡ ((toWide a).toNat + added : ℕ) -
      (((toWide a).toNat + added) % 2 ^ (64 - k * g.base2k) : ℕ) [ZMOD 2 ^ 64]) :
    ∃ low r : ℤ, 0 ≤ low ∧ low < 2 ^ (64 - k * g.base2k) ∧ r * 2 ^ (64 - w) = low - added ∧
      a = BitVec.ofInt w (∑ i ∈ range k, f i * 2 ^ (w - (i + 1) * g.base2k)) +
        BitVec.ofInt w r := by
  have hunit : (2 : ℤ) ^ 64 = 2 ^ w * 2 ^ (64 - w) := by rw [← pow_add, Nat.add_sub_cancel' hw]
  rw [sum_mul_place hw hk] at hsum
  obtain ⟨turns, hturns⟩ := hsum.dvd
  refine ⟨(((toWide a).toNat + added) % 2 ^ (64 - k * g.base2k) : ℕ), _, Int.natCast_nonneg _, ?_,
    ?_, eq_ofInt_add a _ turns⟩
  · exact_mod_cast Nat.mod_lt _ (by positivity)
  · rw [Nat.cast_add, toNat_toWide hw, Nat.cast_mul, Nat.cast_pow, Nat.cast_ofNat, hunit] at hturns
    rw [toNat_toWide hw]
    linarith

/-- A word is its recomposed digits and less than half of the last weight, if the digits give back the
upper bits of the rounded word. -/
theorem exists_recompose_of_sum (hw : w ≤ 64) (h : g.precision ≤ w) (a : BitVec w) {f : ℕ → ℤ}
    (hsum : ∑ i ∈ range g.rows, f i * 2 ^ g.place i ≡ ((toWide a).toNat + g.rounding : ℕ) -
      (((toWide a).toNat + g.rounding) % 2 ^ (64 - g.precision) : ℕ) [ZMOD 2 ^ 64]) :
    ∃ r : ℤ, a = g.recompose w ((List.range g.rows).map f) + BitVec.ofInt w r ∧
      -2 ^ w ≤ 2 ^ (g.precision + 1) * r ∧ 2 ^ (g.precision + 1) * r < 2 ^ w := by
  have hrows : g.rows * g.base2k ≤ w := g.rows_mul.trans_le h
  have hunit : (2 : ℤ) ^ 64 = 2 ^ w * 2 ^ (64 - w) := by rw [← pow_add, Nat.add_sub_cancel' hw]
  have hpos : (0 : ℤ) < 2 ^ (64 - w) := by positivity
  rw [← g.rows_mul] at hsum
  obtain ⟨low, r, h0, h1, hr, ha⟩ := exists_remainder hw hrows a hsum
  rw [g.rows_mul] at h1
  obtain ⟨hlo, hhi⟩ := low_sub_rounding (h.trans hw) h0 h1
  rw [hunit, ← hr, ← mul_assoc] at hlo hhi
  refine ⟨r, ?_, ?_, lt_of_mul_lt_mul_right hhi hpos.le⟩
  · rw [recompose_range hw le_rfl hrows fun i hle hlt => absurd hlt hle.not_gt]
    exact ha
  · refine le_of_mul_le_mul_right ?_ hpos
    rwa [neg_mul]

/-- A word is its recomposed digits and less than half of the last weight, which is nothing when the
digits cover the word. -/
theorem exists_recompose (hw : w ≤ 64) (h : g.precision ≤ w) (a : BitVec w) :
    ∃ r : ℤ, a = g.recompose w (g.signedDigits a) + BitVec.ofInt w r ∧
      -2 ^ w ≤ 2 ^ (g.precision + 1) * r ∧ 2 ^ (g.precision + 1) * r < 2 ^ w := by
  have hsum := sum_signedDigit le_rfl (g.rows_mul.trans_le (h.trans hw)) a
  rw [addedFrom_rows, g.rows_mul] at hsum
  exact exists_recompose_of_sum hw h a hsum

/-- Recomposition is off by half of the last weight at most. -/
theorem distance_recompose_le (hw : w ≤ 64) (h : g.precision ≤ w) (a : BitVec w) :
    distance (g.recompose w (g.signedDigits a)) a ≤ 2 ^ w / 2 ^ (g.precision + 1) := by
  obtain ⟨r, ha, hlo, hhi⟩ := exists_recompose hw h a
  have hr : r.natAbs * 2 ^ (g.precision + 1) ≤ 2 ^ w := by
    have habs : |2 ^ (g.precision + 1) * r| ≤ 2 ^ w := abs_le.2 ⟨hlo, hhi.le⟩
    rw [abs_mul, abs_of_pos (by positivity), Int.abs_eq_natAbs, mul_comm] at habs
    exact_mod_cast habs
  rw [distance_comm, distance]
  nth_rewrite 1 [ha]
  rw [add_sub_cancel_left]
  exact (natAbs_toInt_ofInt_le w r).trans ((Nat.le_div_iff_mul_le (by positivity)).2 hr)

/-! ### Combinations with noisy weights -/

/-- Combining words that are close to others, with digits of at most `size`. -/
theorem distance_combine_le {size noise : ℕ} {ys ms : List (BitVec w)}
    (h : List.Forall₂ (fun y m => distance y m ≤ noise) ys ms) {digits : List ℤ}
    (hdigits : ∀ d ∈ digits, d.natAbs ≤ size) :
    distance (List.zipWith (fun d y => scale y d) digits ys).sum
        (List.zipWith (fun d m => scale m d) digits ms).sum ≤ ys.length * (size * noise) := by
  induction h generalizing digits with
  | nil => simp
  | @cons y m ys ms hy _ ih =>
    cases digits with
    | nil => simp
    | cons d digits =>
      have hrest := ih fun e he => hdigits e (List.mem_cons_of_mem _ he)
      have hterm : distance (scale y d) (scale m d) ≤ size * noise :=
        (distance_scale_le y m d).trans (Nat.mul_le_mul (hdigits d (List.mem_cons_self ..)) hy)
      rw [List.zipWith_cons_cons, List.zipWith_cons_cons, List.sum_cons, List.sum_cons,
        List.length_cons, Nat.add_one_mul, Nat.add_comm]
      exact (distance_add _ _ _ _).trans (by omega)

/-- The multiples of all weights, as a row of a switching key carries them. -/
def multiples (g : Gadget) (w : ℕ) (c : ℤ) : List (BitVec w) :=
  (List.range g.rows).map fun i => scale (g.weight w i) c

@[simp] theorem length_multiples (g : Gadget) (w : ℕ) (c : ℤ) : (g.multiples w c).length = g.rows := by
  simp [multiples]

/-- Combined with multiples of the weights, digits give back the multiple of the word. -/
theorem combine_multiples (g : Gadget) (a : BitVec v) (c : ℤ) :
    (List.zipWith (fun d m => scale m d) (g.signedDigits a) (g.multiples w c)).sum =
      scale (g.recompose w (g.signedDigits a)) c := by
  rw [signedDigits_eq, recompose_map_range, multiples, List.zipWith_map, List.zipWith_self]
  change ∑ i ∈ range g.rows, scale (scale (g.weight w i) c) (g.signedDigit a i) = _
  simp only [scale, mul_sum]
  exact sum_congr rfl fun i _ => mul_left_comm _ _ _

/-- The combination of a noisy row with the digits of a word. -/
theorem distance_combine_row_le {noise : ℕ} {ys : List (BitVec w)} {c : ℤ}
    (h : List.Forall₂ (fun y m => distance y m ≤ noise) ys (g.multiples w c)) (a : BitVec v) :
    distance (List.zipWith (fun d y => scale y d) (g.signedDigits a) ys).sum
        (scale (g.recompose w (g.signedDigits a)) c) ≤ g.rows * (2 ^ g.base2k / 2 * noise) := by
  have hdigits : ∀ d ∈ g.signedDigits a, d.natAbs ≤ 2 ^ g.base2k / 2 := by
    rw [signedDigits_eq]
    exact List.forall_mem_map.2 fun i _ => natAbs_signedDigit_le g a i
  have hnoise := distance_combine_le h hdigits
  rwa [h.length_eq, length_multiples, combine_multiples] at hnoise

/-- Combined with a noisy row, digits give back the multiple of the word. -/
theorem distance_row_le {noise : ℕ} {ys : List (BitVec w)} {c : ℤ} (hw : w ≤ 64) (hp : g.precision ≤ w)
    (h : List.Forall₂ (fun y m => distance y m ≤ noise) ys (g.multiples w c)) (a : BitVec w) :
    distance (List.zipWith (fun d y => scale y d) (g.signedDigits a) ys).sum (scale a c) ≤
      g.rows * (2 ^ g.base2k / 2 * noise) + c.natAbs * (2 ^ w / 2 ^ (g.precision + 1)) := by
  refine (distance_triangle _ _ _).trans (Nat.add_le_add (distance_combine_row_le h a) ?_)
  exact (distance_scale_le _ _ c).trans
    (Nat.mul_le_mul_left _ (distance_recompose_le hw hp a))

/-! ### Bounds as fractions -/

theorem half_base_le (g : Gadget) : ((2 ^ g.base2k / 2 : ℕ) : ℚ) ≤ 2 ^ g.base2k / 2 := by
  exact_mod_cast Nat.cast_div_le

theorem half_last_weight_le (g : Gadget) :
    ((2 ^ 32 / 2 ^ (g.precision + 1) : ℕ) : ℚ) ≤ 2 ^ 31 / 2 ^ g.precision := by
  refine Nat.cast_div_le.trans_eq ?_
  push_cast
  rw [pow_succ _ g.precision]
  field_simp
  norm_num

/-! ### Digits of words of another width -/

@[simp] theorem signedDigits_toWide (g : Gadget) (a : BitVec w) :
    g.signedDigits (toWide a) = g.signedDigits a := by
  simp [signedDigits]

/-- Digits that fit a word stand for the same place in the 64-bit torus. -/
theorem toWide_recompose (hw : w ≤ 64) (h : g.precision ≤ w) (a : BitVec v) :
    toWide (g.recompose w (g.signedDigits a)) = g.recompose 64 (g.signedDigits a) := by
  have hrows : g.rows * g.base2k ≤ w := g.rows_mul.trans_le h
  rw [recompose_signedDigits hw h, recompose_signedDigits (le_refl 64) (h.trans hw), toWide_ofInt hw,
    ← sum_mul_place hw hrows]
  rfl

/-- A row of words of `w` bits with the digits of a word of another width, in the 64-bit torus. -/
theorem distance_wide_row_le {noise : ℕ} {ys : List (BitVec w)} {c : ℤ} (hw : w ≤ 64)
    (hp : g.precision ≤ w) (h : List.Forall₂ (fun y m => distance y m ≤ noise) ys (g.multiples w c))
    (a : BitVec v) :
    distance (toWide (List.zipWith (fun d y => scale y d) (g.signedDigits a) ys).sum)
        (scale (toWide a) c) ≤
      g.rows * (2 ^ g.base2k / 2 * noise) * 2 ^ (64 - w) +
        c.natAbs * (2 ^ 64 / 2 ^ (g.precision + 1)) := by
  have hnoise := Nat.mul_le_mul_right (2 ^ (64 - w)) (distance_combine_row_le h a)
  rw [← distance_toWide hw, toWide_scale hw, toWide_recompose hw hp] at hnoise
  have hrounding := distance_recompose_le (le_refl 64) (hp.trans hw) (toWide a)
  rw [signedDigits_toWide] at hrounding
  exact (distance_triangle _ _ _).trans (Nat.add_le_add hnoise
    ((distance_scale_le _ _ c).trans (Nat.mul_le_mul_left _ hrounding)))

end CipherMonitor.Gadget
