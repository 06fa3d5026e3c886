import CipherMonitor.Proofs.Gadget
import CipherMonitor.Proofs.Outcome

/-!
# Both decompositions of a word

Digits below `2 ^ base2k`, or balanced ones, are cut from a machine word, and both give back the word
rounded to the last weight.  Every word, every base below `2 ^ 64` and every number of digits that fit
the word are covered, those that cover it completely included.

* `Gadget.decomposable_of` — gadgets whose shifts stay within a machine word.
* `Gadget.signedDigit_range`, `Gadget.unsignedDigit_lt` — the ranges of digits.
* `Gadget.Recomposes`, `Gadget.recomposes_of_eq_add` — half of the last weight at most is lost.
* `Gadget.addedFrom_lt` — what is added to a word from a digit on stays below the digit before.
* `Gadget.signedDigits_zero` — so zero has digits zero.
* `Gadget.decompose_recompose` — both decompositions of words, and the one of polynomials.
-/

namespace CipherMonitor.Gadget

open Finset Torus

variable {g : Gadget} {w : ℕ}

/-! ### Shifts of machine words -/

theorem make_eq_ok_iff {base2k rows : ℕ} :
    make base2k rows = .ok g ↔ 1 ≤ base2k ∧ base2k * rows ≤ 64 ∧ { base2k, rows } = g := by
  unfold make
  simp only [Outcome.bind_eq_ok_iff, require_eq_ok_iff, Outcome.pure_eq_ok_iff, exists_const]
  constructor
  · rintro ⟨hbase, -, hp, hg⟩
    exact ⟨hbase, hp, hg⟩
  · rintro ⟨hbase, hp, hg⟩
    exact ⟨hbase, by omega, hp, hg⟩

theorem decomposable_of (hbase : 1 ≤ g.base2k) (hlt : g.base2k < 64) (hp : g.precision ≤ 64) :
    g.decomposable = .ok () := by
  unfold decomposable
  rw [require_of hlt, Outcome.ok_bind]
  refine require_of fun i hi => ?_
  have hdigit : 1 ≤ (i + 1) * g.base2k := Nat.mul_pos i.succ_pos hbase
  have hplace := (place_le_precision hi).trans hp
  rw [place]
  omega

section

variable (h : g.decomposable = .ok ())

include h

theorem decomposeSigned_eq (a : BitVec w) : g.decomposeSigned a = .ok (g.signedDigits a) := by
  rw [decomposeSigned, h, Outcome.ok_bind]
  rfl

theorem decomposeUnsigned_eq (a : BitVec w) :
    g.decomposeUnsigned a = .ok (g.unsignedDigits a) := by
  rw [decomposeUnsigned, h, Outcome.ok_bind]
  rfl

theorem decomposePoly_eq (words : Array (BitVec w)) :
    g.decomposePoly words = .ok (g.digitRows words) := by
  have hwords : g.decomposeSigned (w := w) = fun a => pure (g.signedDigits a) :=
    funext (decomposeSigned_eq h)
  rw [decomposePoly, hwords, Array.mapM_pure, pure_bind]
  rfl

end

/-! ### Ranges of digits -/

theorem half_base (hbase : 1 ≤ g.base2k) : 2 ^ g.base2k / 2 = 2 ^ (g.base2k - 1) := by
  rw [two_pow_base hbase, Nat.mul_div_cancel_left _ Nat.two_pos]

theorem signedDigit_range (hbase : 1 ≤ g.base2k) (a : BitVec w) (i : ℕ) :
    -2 ^ (g.base2k - 1) ≤ g.signedDigit a i ∧ g.signedDigit a i < 2 ^ (g.base2k - 1) := by
  have hlt := g.digit_lt (g.rounded (toWide a) + g.offset) i
  rw [two_pow_base hbase] at hlt
  rw [signedDigit, half_base hbase]
  generalize g.digit (g.rounded (toWide a) + g.offset) i = d at hlt ⊢
  push_cast
  zify at hlt
  constructor <;> linarith

/-- Unsigned digit `i` of a word. -/
def unsignedDigit (g : Gadget) (a : BitVec w) (i : ℕ) : ℕ := g.digit (g.rounded (toWide a)) i

theorem unsignedDigits_eq (g : Gadget) (a : BitVec w) :
    g.unsignedDigits a = (List.range g.rows).map (g.unsignedDigit a) := rfl

theorem unsignedDigit_lt (g : Gadget) (a : BitVec w) (i : ℕ) :
    g.unsignedDigit a i < 2 ^ g.base2k := g.digit_lt _ i

/-- Unsigned digits give back the upper bits of the rounded word. -/
theorem sum_unsignedDigit (h : g.precision ≤ 64) (a : BitVec w) :
    ∑ i ∈ range g.rows, (g.unsignedDigit a i : ℤ) * 2 ^ g.place i ≡
      ((toWide a).toNat + g.rounding : ℕ) -
        (((toWide a).toNat + g.rounding) % 2 ^ (64 - g.precision) : ℕ) [ZMOD 2 ^ 64] := by
  have hx : (g.rounded (toWide a)).toNat = ((toWide a).toNat + g.rounding) % 2 ^ 64 := by
    rw [rounded_eq, BitVec.toNat_add, BitVec.toNat_ofNat, Nat.add_mod_mod]
  generalize (toWide a).toNat + g.rounding = y at hx ⊢
  have hdigits := sum_digit (y % 2 ^ 64) g.base2k (g.rows_mul.trans_le h)
  rw [g.rows_mul, Nat.mod_mod, Nat.mod_mod_of_dvd _ (pow_dvd_pow 2 (Nat.sub_le _ _))] at hdigits
  have hsum : ∑ i ∈ range g.rows, (g.unsignedDigit a i : ℤ) * 2 ^ g.place i =
      (y % 2 ^ 64 : ℕ) - (y % 2 ^ (64 - g.precision) : ℕ) := by
    refine eq_sub_of_add_eq ?_
    simp only [unsignedDigit, digit, hx]
    exact_mod_cast hdigits
  rw [hsum]
  refine Int.ModEq.sub_right _ ?_
  push_cast
  exact Int.mod_modEq _ _

/-! ### Recomposition -/

/-- Digits give back a word, up to half of the last weight if that is not the last bit. -/
structure Recomposes (g : Gadget) (a : BitVec w) (digits : List ℤ) : Prop where
  of_eq : g.precision = w → g.recompose w digits = a
  of_lt : g.precision < w →
    -2 ^ (w - 1 - g.precision) ≤ (a - g.recompose w digits).toInt ∧
      (a - g.recompose w digits).toInt < 2 ^ (w - 1 - g.precision)

theorem toInt_sub_of_eq_add {a x : BitVec w} {r : ℤ} (ha : a = x + BitVec.ofInt w r)
    (hlo : -2 ^ w ≤ 2 * r) (hhi : 2 * r < 2 ^ w) : (a - x).toInt = r := by
  rw [ha, add_sub_cancel_left, BitVec.toInt_ofInt]
  refine Int.bmod_eq_of_le_mul_two ?_ ?_
  · push_cast
    linarith
  · push_cast
    linarith

theorem recomposes_of_eq_add (h : g.precision ≤ w) {a : BitVec w} {digits : List ℤ} {r : ℤ}
    (ha : a = g.recompose w digits + BitVec.ofInt w r) (hlo : -2 ^ w ≤ 2 ^ (g.precision + 1) * r)
    (hhi : 2 ^ (g.precision + 1) * r < 2 ^ w) : g.Recomposes a digits := by
  obtain ⟨d, hd⟩ : ∃ d, g.precision + d = w := ⟨w - g.precision, by omega⟩
  have hunit : (2 : ℤ) ^ w = 2 ^ g.precision * 2 ^ d := by rw [← pow_add, hd]
  have hpos : (0 : ℤ) < 2 ^ g.precision := by positivity
  rw [hunit, pow_succ, mul_assoc] at hlo hhi
  rw [← mul_neg] at hlo
  have hlo := le_of_mul_le_mul_left hlo hpos
  have hhi := lt_of_mul_lt_mul_left hhi hpos.le
  constructor
  · intro heq
    obtain rfl : d = 0 := by omega
    obtain rfl : r = 0 := by omega
    rw [ha]
    exact (BitVec.add_zero _).symm
  · intro hlt
    obtain ⟨e, rfl⟩ : ∃ e, d = e + 1 := ⟨d - 1, by omega⟩
    have hwide : (2 : ℤ) ^ (e + 1) ≤ 2 ^ w := pow_le_pow_right₀ one_le_two (by omega)
    rw [toInt_sub_of_eq_add ha (by linarith) (by linarith), show w - 1 - g.precision = e by omega]
    rw [pow_succ] at hlo hhi
    constructor <;> linarith

theorem recomposes_signedDigits (hw : w ≤ 64) (h : g.precision ≤ w) (a : BitVec w) :
    g.Recomposes a (g.signedDigits a) := by
  obtain ⟨r, ha, hlo, hhi⟩ := exists_recompose hw h a
  exact recomposes_of_eq_add h ha hlo hhi

theorem recomposes_unsignedDigits (hw : w ≤ 64) (h : g.precision ≤ w) (a : BitVec w) :
    g.Recomposes a ((g.unsignedDigits a).map Int.ofNat) := by
  rw [unsignedDigits_eq, List.map_map]
  obtain ⟨r, ha, hlo, hhi⟩ := exists_recompose_of_sum hw h a (sum_unsignedDigit (h.trans hw) a)
  exact recomposes_of_eq_add h ha hlo hhi

/-! ### Digits of zero -/

theorem addedFrom_of_lt {j : ℕ} (hj : j < g.rows) :
    g.addedFrom j = 2 ^ g.base2k / 2 * 2 ^ g.place j + g.addedFrom (j + 1) := by
  rw [addedFrom, sum_eq_sum_Ico_succ_bot hj, add_assoc]
  rfl

/-- The bits below a digit are its own ones and those below it. -/
theorem two_pow_below {j : ℕ} (hj : j < g.rows) (hp : g.precision ≤ 64) :
    2 ^ (64 - j * g.base2k) = 2 ^ g.base2k * 2 ^ g.place j := by
  have hplace := (place_le_precision hj).trans hp
  rw [Nat.add_one_mul] at hplace
  rw [← pow_add, place, Nat.add_one_mul]
  congr 1
  omega

theorem rounding_lt (g : Gadget) : g.rounding < 2 ^ (64 - g.precision) := by
  rw [rounding]
  split_ifs
  · positivity
  · exact Nat.pow_lt_pow_right Nat.one_lt_two (by omega)

/-- What is added from a digit on does not reach the digit before. -/
theorem addedFrom_lt (hbase : 1 ≤ g.base2k) (hp : g.precision ≤ 64) {j : ℕ} (hj : j ≤ g.rows) :
    g.addedFrom j < 2 ^ (64 - j * g.base2k) := by
  induction hj using Nat.decreasingInduction with
  | self =>
    rw [addedFrom_rows, g.rows_mul]
    exact g.rounding_lt
  | of_succ j hj ih =>
    have hhalf : 2 ^ (g.base2k - 1) + 1 ≤ 2 ^ g.base2k := by
      rw [two_pow_base hbase]
      have := Nat.two_pow_pos (g.base2k - 1)
      omega
    calc g.addedFrom j
        = 2 ^ (g.base2k - 1) * 2 ^ g.place j + g.addedFrom (j + 1) := by
          rw [addedFrom_of_lt hj, half_base hbase]
      _ < 2 ^ (g.base2k - 1) * 2 ^ g.place j + 2 ^ g.place j := Nat.add_lt_add_left ih _
      _ = (2 ^ (g.base2k - 1) + 1) * 2 ^ g.place j := (Nat.succ_mul _ _).symm
      _ ≤ 2 ^ g.base2k * 2 ^ g.place j := Nat.mul_le_mul_right _ hhalf
      _ = 2 ^ (64 - j * g.base2k) := (two_pow_below hj hp).symm

/-- What is added to a word has half of the base in every place. -/
theorem digit_addedFrom (hbase : 1 ≤ g.base2k) (hp : g.precision ≤ 64) {i : ℕ} (hi : i < g.rows) :
    g.addedFrom 0 / 2 ^ g.place i % 2 ^ g.base2k = 2 ^ g.base2k / 2 := by
  obtain ⟨upper, hupper⟩ := dvd_offset g i
  have hbelow : g.addedFrom (i + 1) < 2 ^ g.place i := addedFrom_lt hbase hp hi
  have hhalf : 2 ^ g.base2k / 2 < 2 ^ g.base2k := Nat.div_lt_self (by positivity) Nat.one_lt_two
  rw [two_pow_below hi hp] at hupper
  have hsplit : g.addedFrom 0 =
      2 ^ g.place i * (2 ^ g.base2k * upper + 2 ^ g.base2k / 2) + g.addedFrom (i + 1) := by
    rw [← sum_add_addedFrom hi.le, hupper, addedFrom_of_lt hi]
    ring
  rw [hsplit, Nat.mul_add_div (by positivity), Nat.div_eq_of_lt hbelow, Nat.add_zero,
    Nat.mul_add_mod, Nat.mod_eq_of_lt hhalf]

theorem signedDigits_zero (hbase : 1 ≤ g.base2k) (hp : g.precision ≤ 64) :
    g.signedDigits (0 : BitVec w) = List.replicate g.rows 0 := by
  have hword : g.addedFrom 0 < 2 ^ 64 := by
    simpa using addedFrom_lt hbase hp (Nat.zero_le g.rows)
  rw [signedDigits_eq, List.eq_replicate_iff]
  refine ⟨by simp, List.forall_mem_map.2 fun i hi => ?_⟩
  have hdigit := digit_addedFrom hbase hp (List.mem_range.1 hi)
  have hzero : (toWide (0 : BitVec w)).toNat = 0 := congrArg BitVec.toNat toWide_zero
  rw [signedDigit, digit, toNat_shifted, hzero, Nat.zero_add, Nat.mod_eq_of_lt hword, hdigit,
    sub_self]

/-! ### All digits -/

/-- Digit `i` of word `j` stands in row `i` at place `j`. -/
theorem getElem?_digitRows (g : Gadget) {words : Array (BitVec w)} {j : ℕ} {a : BitVec w}
    (ha : words[j]? = some a) (i : ℕ) :
    (g.digitRows words)[i]?.bind (·[j]?) = (g.signedDigits a)[i]? := by
  rw [digitRows, signedDigits_eq]
  by_cases hi : i < g.rows
  · simp [hi, ha, signedDigits_eq]
  · simp [hi]

/-- Every base below `2 ^ 64` and every number of digits that fit a word of at most 64 bits are
accepted.  Every word has signed digits from minus half of the base to below half of the base, and
unsigned ones below the base; both give back the word up to half of the last weight, and exactly when
they cover the word.  Zero has signed digits zero, and the rows of a polynomial hold the signed digits
of its words. -/
theorem decompose_recompose (hbase : 1 ≤ g.base2k) (hlt : g.base2k ≤ 63) (hw : w ≤ 64)
    (h : g.precision ≤ w) :
    make g.base2k g.rows = .ok g ∧
    (∀ a : BitVec w, ∃ signed unsigned,
      g.decomposeSigned a = .ok signed ∧ g.decomposeUnsigned a = .ok unsigned ∧
      signed.length = g.rows ∧ unsigned.length = g.rows ∧
      (∀ d ∈ signed, -2 ^ (g.base2k - 1) ≤ d ∧ d < 2 ^ (g.base2k - 1)) ∧
      (∀ d ∈ unsigned, d < 2 ^ g.base2k) ∧
      g.Recomposes a signed ∧ g.Recomposes a (unsigned.map Int.ofNat)) ∧
    g.decomposeSigned (0 : BitVec w) = .ok (List.replicate g.rows 0) ∧
    ∀ words : Array (BitVec w), ∃ table, g.decomposePoly words = .ok table ∧
      table.length = g.rows ∧ (∀ row ∈ table, row.size = words.size) ∧
      ∀ (j : ℕ) a digits, words[j]? = some a → g.decomposeSigned a = .ok digits →
        ∀ i : ℕ, table[i]?.bind (·[j]?) = digits[i]? := by
  have hdecomposable := decomposable_of hbase (Nat.lt_succ_of_le hlt) (h.trans hw)
  refine ⟨make_eq_ok_iff.2 ⟨hbase, h.trans hw, rfl⟩, fun a => ?_, ?_, fun words => ?_⟩
  · refine ⟨g.signedDigits a, g.unsignedDigits a, decomposeSigned_eq hdecomposable a,
      decomposeUnsigned_eq hdecomposable a, by simp [signedDigits_eq], by simp [unsignedDigits_eq],
      ?_, ?_, recomposes_signedDigits hw h a, recomposes_unsignedDigits hw h a⟩
    · rw [signedDigits_eq]
      exact List.forall_mem_map.2 fun i _ => signedDigit_range hbase a i
    · rw [unsignedDigits_eq]
      exact List.forall_mem_map.2 fun i _ => unsignedDigit_lt g a i
  · rw [decomposeSigned_eq hdecomposable, signedDigits_zero hbase (h.trans hw)]
  · refine ⟨g.digitRows words, decomposePoly_eq hdecomposable words, by simp [digitRows],
      by simp [digitRows], fun j a digits ha hdigits i => ?_⟩
    rw [decomposeSigned_eq hdecomposable] at hdigits
    obtain rfl := Except.ok.inj hdigits
    exact getElem?_digitRows g ha i

/-- Three digits of six bits, and what they leave of a word of 32 bits. -/
theorem decompose_recompose_sixBits : ∃ unsigned,
    decomposeSigned { base2k := 6, rows := 3 } (0x89ABCDEF : BitVec 32) = .ok [-30, 27, -17] ∧
    decomposeUnsigned { base2k := 6, rows := 3 } (0x89ABCDEF : BitVec 32) = .ok unsigned ∧
    (∀ d ∈ unsigned, d < 64) ∧
    -2 ^ 13 ≤ (0x89ABCDEF - recompose { base2k := 6, rows := 3 } 32 [-30, 27, -17]).toInt ∧
    (0x89ABCDEF - recompose { base2k := 6, rows := 3 } 32 [-30, 27, -17]).toInt < 2 ^ 13 := by
  have hdigits : decomposeSigned { base2k := 6, rows := 3 } (0x89ABCDEF : BitVec 32) =
      .ok [-30, 27, -17] := by
    decide +kernel
  obtain ⟨-, hwords, -, -⟩ := @decompose_recompose { base2k := 6, rows := 3 } 32 (by decide)
    (by decide) (by decide) (by decide)
  obtain ⟨signed, unsigned, hsigned, hunsigned, -, -, -, hlt, hrecomposes, -⟩ := hwords 0x89ABCDEF
  obtain rfl : signed = [-30, 27, -17] := Except.ok.inj (hsigned.symm.trans hdigits)
  exact ⟨unsigned, hdigits, hunsigned, hlt, hrecomposes.of_lt (by decide)⟩

end CipherMonitor.Gadget
