import CipherMonitor.Proofs.Gadget.Decomposition

/-!
# Gadgets that are wider than the word

A gadget may cover more bits than a word has.  Digits that reach below the last bit have weight zero,
also the one that crosses it, so what the others leave of a word is rounded away: the word comes back
when it is a multiple of the last weight within it, and always if the digits end with the word.

* `Gadget.weightChecked_of` — the weights of all digits are words.
* `Gadget.exists_addedFrom` — half of the weight before, and less than a digit more.
* `Gadget.exists_recompose_wide` — the word and the rounded one.
* `Gadget.recompose_eq_iff` — which words come back.
* `Gadget.decompose_of_make` — every accepted gadget.
-/

namespace CipherMonitor.Gadget

open Finset Torus

variable {g : Gadget} {w : ℕ}

theorem weightChecked_of (hbase : 1 ≤ g.base2k) (hp : g.precision ≤ 64) {i : ℕ} (hi : i < g.rows)
    (w : ℕ) : g.weightChecked w i = .ok (g.weight w i) := by
  have hdigit : 1 ≤ (i + 1) * g.base2k := Nat.mul_pos i.succ_pos hbase
  have hwidth := (place_le_precision hi).trans hp
  have hshift : g.place i < 64 := by
    rw [place]
    omega
  unfold weightChecked
  rw [require_of (by omega), Outcome.ok_bind, require_of (.inr ⟨hwidth, hshift⟩), Outcome.ok_bind]
  rfl

/-! ### What is cut off -/

/-- What is added from a digit on is half of the weight before, and less than the digit's own weight. -/
theorem exists_addedFrom (hbase : 1 ≤ g.base2k) (hp : g.precision ≤ 64) {j : ℕ} (hj : j ≤ g.rows)
    (hlt : j * g.base2k < 64) : ∃ rest < 2 ^ (64 - (j + 1) * g.base2k),
      g.addedFrom j = 2 ^ (63 - j * g.base2k) + rest := by
  rcases hj.eq_or_lt with rfl | hj
  · refine ⟨0, by positivity, ?_⟩
    rw [g.rows_mul] at hlt
    rw [addedFrom_rows, rounding, if_neg (by omega), g.rows_mul, Nat.add_zero]
  · refine ⟨g.addedFrom (j + 1), addedFrom_lt hbase hp hj, ?_⟩
    have hplace := (place_le_precision hj).trans hp
    rw [Nat.add_one_mul] at hplace
    rw [addedFrom_of_lt hj, half_base hbase, ← pow_add, place, Nat.add_one_mul]
    congr 2
    omega

/-- What is cut off below digit `k`, against what was added from it on: less than half of the weight
before on one side, and less than a unit of `w` bits more than this half on the other. -/
theorem low_sub_addedFrom (hbase : 1 ≤ g.base2k) (hp : g.precision ≤ 64) {k : ℕ} (hk : k ≤ g.rows)
    (hin : k * g.base2k ≤ 64) (hnext : w < (k + 1) * g.base2k) {low : ℤ} (h0 : 0 ≤ low)
    (h1 : low < 2 ^ (64 - k * g.base2k)) :
    -(2 ^ (64 - k * g.base2k) + 2 ^ (64 - w)) < 2 * (low - g.addedFrom k) ∧
      2 * (low - g.addedFrom k) < 2 ^ (64 - k * g.base2k) := by
  have hunit : (0 : ℤ) < 2 ^ (64 - w) := by positivity
  rcases hin.eq_or_lt with hfull | hlt
  · -- Nothing is added below digits of all 64 bits.
    have hrows : k = g.rows := by
      refine le_antisymm hk (Nat.le_of_mul_le_mul_right ?_ hbase)
      rw [hfull, g.rows_mul]
      exact hp
    have hnone : g.addedFrom k = 0 := by
      rw [hrows, addedFrom_rows, rounding, if_pos (by rw [← g.rows_mul, ← hrows, hfull])]
    rw [hfull, Nat.sub_self, pow_zero] at h1 ⊢
    obtain rfl : low = 0 := by omega
    rw [hnone, Nat.cast_zero, sub_zero, mul_zero]
    exact ⟨by linarith, one_pos⟩
  · obtain ⟨rest, hrest, hadded⟩ := exists_addedFrom hbase hp hk hlt
    have hdouble : (2 : ℤ) ^ (64 - k * g.base2k) = 2 * 2 ^ (63 - k * g.base2k) := by
      rw [← pow_succ']
      congr 1
      omega
    have hbelow : 2 * rest < 2 ^ (64 - w) := by
      by_cases hw : w < 64
      · have hle : 2 ^ (64 - (k + 1) * g.base2k) ≤ 2 ^ (63 - w) :=
          Nat.pow_le_pow_right Nat.two_pos (by omega)
        rw [show 64 - w = 63 - w + 1 by omega, pow_succ']
        omega
      · rw [show 64 - (k + 1) * g.base2k = 0 by omega, pow_zero] at hrest
        have := Nat.two_pow_pos (64 - w)
        omega
    zify at hbelow
    rw [hadded, hdouble]
    rw [hdouble] at h1
    push_cast
    constructor <;> linarith

/-! ### The digits within the word -/

theorem dvd_toNat_ofInt {m : ℕ} (hm : m ≤ w) (n : ℤ) :
    2 ^ m ∣ (BitVec.ofInt w n).toNat ↔ (2 : ℤ) ^ m ∣ n := by
  have hdvd : (2 : ℤ) ^ m ∣ (2 ^ w : ℕ) := by
    push_cast
    exact pow_dvd_pow 2 hm
  rw [← Int.natCast_dvd_natCast, natCast_toNat_ofInt, Nat.cast_pow, Nat.cast_ofNat,
    Int.dvd_iff_emod_eq_zero, Int.emod_emod_of_dvd n hdvd, ← Int.dvd_iff_emod_eq_zero]

/-- The digits of a gadget that covers the word stand for a multiple of the last weight within it, and
leave half of this weight at most. -/
theorem exists_recompose_wide (hbase : 1 ≤ g.base2k) (hp : g.precision ≤ 64) (hw : w ≤ 64)
    (h : w ≤ g.precision) (a : BitVec w) : ∃ upper r : ℤ,
      g.recompose w (g.signedDigits a) = BitVec.ofInt w upper ∧ 2 ^ (w % g.base2k) ∣ upper ∧
      a = g.recompose w (g.signedDigits a) + BitVec.ofInt w r ∧
      -2 ^ (w % g.base2k) ≤ 2 * r ∧ 2 * r < 2 ^ (w % g.base2k) := by
  have hk : w / g.base2k ≤ g.rows := Nat.div_le_of_le_mul h
  have hin : w / g.base2k * g.base2k ≤ w := Nat.div_mul_le_self w g.base2k
  have hnext : w < (w / g.base2k + 1) * g.base2k := Nat.lt_mul_of_div_lt (Nat.lt_succ_self _) hbase
  have hrest : w % g.base2k = w - w / g.base2k * g.base2k := Nat.mod_eq_sub_div_mul
  rw [hrest]
  generalize w / g.base2k = k at hk hin hnext ⊢
  have hrecompose := recompose_range hw hk hin (f := g.signedDigit a) fun i hi _ =>
    hnext.trans_le (Nat.mul_le_mul_right _ (Nat.succ_le_succ hi))
  obtain ⟨low, r, h0, h1, hr, ha⟩ :=
    exists_remainder hw hin a (sum_signedDigit hk (hin.trans hw) a)
  obtain ⟨hlo, hhi⟩ := low_sub_addedFrom hbase hp hk (hin.trans hw) hnext h0 h1
  have hunit : (2 : ℤ) ^ (64 - k * g.base2k) = 2 ^ (w - k * g.base2k) * 2 ^ (64 - w) := by
    rw [← pow_add]
    congr 1
    omega
  have hpos : (0 : ℤ) < 2 ^ (64 - w) := by positivity
  rw [hunit, ← hr, ← mul_assoc] at hlo hhi
  rw [← add_one_mul, ← neg_mul] at hlo
  have hlo := lt_of_mul_lt_mul_right hlo hpos.le
  refine ⟨_, r, hrecompose, dvd_sum fun i hi => ?_, ?_, by omega, lt_of_mul_lt_mul_right hhi hpos.le⟩
  · have : (i + 1) * g.base2k ≤ k * g.base2k := bits_le (mem_range.1 hi) le_rfl
    exact (pow_dvd_pow 2 (by omega)).mul_left _
  · rw [signedDigits_eq, hrecompose]
    exact ha

/-- A word comes back when it is a multiple of the last weight within it. -/
theorem recompose_eq_iff (hbase : 1 ≤ g.base2k) (hp : g.precision ≤ 64) (hw : w ≤ 64)
    (h : w ≤ g.precision) (a : BitVec w) :
    g.recompose w (g.signedDigits a) = a ↔ 2 ^ (w % g.base2k) ∣ a.toNat := by
  obtain ⟨upper, r, hrecompose, hupper, ha, hlo, hhi⟩ := exists_recompose_wide hbase hp hw h a
  have hm : w % g.base2k ≤ w := Nat.mod_le _ _
  rw [hrecompose] at ha ⊢
  constructor
  · intro heq
    rw [← heq]
    exact (dvd_toNat_ofInt hm upper).2 hupper
  · intro hdvd
    rw [ha, ← BitVec.ofInt_add, dvd_toNat_ofInt hm] at hdvd
    obtain ⟨c, rfl⟩ := (Int.dvd_add_right hupper).1 hdvd
    have hpos : (0 : ℤ) < 2 ^ (w % g.base2k) := by positivity
    have hc : c = 0 := by
      have hlower : -1 ≤ 2 * c := le_of_mul_le_mul_left (by linarith) hpos
      have hupper : 2 * c < 1 := lt_of_mul_lt_mul_left (by linarith) hpos.le
      omega
    rw [ha, hc, mul_zero]
    exact (BitVec.add_zero _).symm

/-- The weights of every accepted gadget are words, and for every base below `2 ^ 64` every word has
signed and unsigned digits.  If they cover the word, then the signed ones give back the nearest multiple
of the last weight within it, the upper one of two.  This is the word itself when it is such a multiple,
so it always is when the word has a whole number of digits, and for words of 64 bits. -/
theorem decompose_of_make {base2k rows : ℕ} (hg : make base2k rows = .ok g) (hw : w ≤ 64) :
    (∀ i < rows, g.weightChecked w i = .ok (g.weight w i)) ∧
    (base2k < 64 → ∀ a : BitVec w, ∃ signed unsigned,
      g.decomposeSigned a = .ok signed ∧ g.decomposeUnsigned a = .ok unsigned ∧
      signed.length = rows ∧ unsigned.length = rows ∧
      (w ≤ base2k * rows →
        2 ^ (w % base2k) ∣ (g.recompose w signed).toNat ∧
        -2 ^ (w % base2k) ≤ 2 * (a - g.recompose w signed).toInt ∧
        2 * (a - g.recompose w signed).toInt < 2 ^ (w % base2k) ∧
        (g.recompose w signed = a ↔ 2 ^ (w % base2k) ∣ a.toNat) ∧
        (base2k ∣ w ∨ w = 64 → g.recompose w signed = a))) := by
  obtain ⟨hbase, hprecision, rfl⟩ := make_eq_ok_iff.1 hg
  have hp : precision { base2k, rows } ≤ 64 := hprecision
  refine ⟨fun i hi => weightChecked_of hbase hp hi w, fun hlt a => ?_⟩
  have hdecomposable : decomposable { base2k, rows } = .ok () := decomposable_of hbase hlt hp
  refine ⟨_, _, decomposeSigned_eq hdecomposable a, decomposeUnsigned_eq hdecomposable a,
    by simp [signedDigits_eq], by simp [unsignedDigits_eq], fun h => ?_⟩
  obtain ⟨upper, r, hrecompose, hupper, ha, hlo, hhi⟩ := exists_recompose_wide hbase hp hw h a
  have hm : w % base2k ≤ w := Nat.mod_le _ _
  have hwide : (2 : ℤ) ^ (w % base2k) ≤ 2 ^ w := pow_le_pow_right₀ one_le_two hm
  have hiff := recompose_eq_iff hbase hp hw h a
  dsimp only at hupper hlo hhi hiff
  refine ⟨?_, ?_, ?_, hiff, fun hwhole => hiff.2 ?_⟩
  · rw [hrecompose]
    exact (dvd_toNat_ofInt hm upper).2 hupper
  · rwa [toInt_sub_of_eq_add ha (by linarith) (by linarith)]
  · rwa [toInt_sub_of_eq_add ha (by linarith) (by linarith)]
  · have hdvd : base2k ∣ w := by
      rcases hwhole with hdvd | rfl
      · exact hdvd
      · exact ⟨rows, le_antisymm h hp⟩
    rw [Nat.mod_eq_zero_of_dvd hdvd, pow_zero]
    exact one_dvd _

/-- The fifth of seven-bit digits crosses the end of a word of 32 bits, and the others give back a
multiple of sixteen. -/
theorem decompose_of_make_sevenBits : ∃ signed,
    make 7 5 = .ok { base2k := 7, rows := 5 } ∧
    decomposeSigned { base2k := 7, rows := 5 } (0x89ABCDE0 : BitVec 32) = .ok signed ∧
    signed.length = 5 ∧
    recompose { base2k := 7, rows := 5 } 32 signed = (0x89ABCDE0 : BitVec 32) := by
  have hg : make 7 5 = .ok { base2k := 7, rows := 5 } := by decide
  obtain ⟨signed, unsigned, hsigned, -, hlength, -, hwide⟩ :=
    (decompose_of_make hg (show 32 ≤ 64 by decide)).2 (by decide) (0x89ABCDE0 : BitVec 32)
  obtain ⟨-, -, -, hiff, -⟩ := hwide (by decide)
  exact ⟨signed, hg, hsigned, hlength, hiff.2 (by decide)⟩

/-- The digits cover more than 32 bits, but all of one unit is in the digit of weight zero. -/
theorem recompose_unit_ne : make 7 5 = .ok { base2k := 7, rows := 5 } ∧ 32 ≤ 7 * 5 ∧
    decomposeSigned { base2k := 7, rows := 5 } (1 : BitVec 32) = .ok [0, 0, 0, 0, 8] ∧
    recompose { base2k := 7, rows := 5 } 32 [0, 0, 0, 0, 8] ≠ (1 : BitVec 32) := by
  decide +kernel

end CipherMonitor.Gadget
