import Mathlib
import CipherMonitor.Number

/-!
# Products with factors of at least one

A product of doubles is the exact product, shifted to the exponent that its size asks for and rounded.
For a factor of at least one it is no smaller than the other factor.

* `Binary64.Canonical` — mantissa and exponent of a number as it is stored.
* `Binary64.pack_subnormal`, `Binary64.pack_normal` — the patterns of numbers.
* `Binary64.unpack_pack_finite`, `Binary64.unpack_pack_infinite` — what is stored of a number.
* `Binary64.exists_round` — rounding of a mantissa that has to lose bits.
* `Binary64.le_mul` — the comparison of a product with its factor.
-/

namespace CipherMonitor.Binary64

open Float.Model Float.Model.UnpackedFloat

variable {s : Sign} {m m' k : ℕ} {e e' : ℤ}

/-! ### Numbers as they are stored -/

theorem toNat_append_one (m : BitVec 52) : (1#1 ++ m).toNat = 2 ^ 52 + m.toNat := by
  have hm := m.isLt
  rw [BitVec.toNat_append, Nat.shiftLeft_eq, Nat.mul_comm, ← Nat.two_pow_add_eq_or_of_lt hm]
  rfl

/-- A mantissa of 53 bits, or of fewer bits with the least exponent. -/
structure Canonical (m : ℕ) (e : ℤ) : Prop where
  pos : 0 < m
  lt : m < 2 ^ 53
  le_exponent : -1074 ≤ e
  normal : e = -1074 ∨ 2 ^ 52 ≤ m

/-- What is read from a pattern is in canonical form. -/
theorem canonical_of_unpack {v : BitVec Format.binary64.numBits} {hm : 0 < m}
    (h : UnpackedFloat.unpack Format.binary64 v = .finite s m e hm) : Canonical m e := by
  unfold UnpackedFloat.unpack at h
  dsimp only at h
  split_ifs at h with hones hinfinite hsmall hzero
  · injection h with _ hmantissa hexponent
    have hlt := (unpackMantissa v).isLt
    have hbias : e = -1074 := by
      rw [hsmall] at hexponent
      exact hexponent.symm
    exact ⟨hm, by omega, by omega, .inl hbias⟩
  · injection h with _ hmantissa hexponent
    have hsum := toNat_append_one (unpackMantissa v)
    have hlt := (unpackMantissa v).isLt
    have hbias : e = (unpackExponent v).toNat - 1075 := hexponent.symm
    have hpos : 0 < (unpackExponent v).toNat :=
      Nat.pos_of_ne_zero fun hzero => hsmall (BitVec.eq_of_toNat_eq hzero)
    exact ⟨hm, by omega, by omega, .inr (by omega)⟩

/-- Numbers whose mantissa has no leading one have the exponent field zero. -/
theorem pack_subnormal (s : Sign) (m : BitVec 52) (h : 0 < m.toNat) :
    pack Format.binary64 (.finite s m.toNat (-1074) h) =
      packComponents Format.binary64 s 0#11 m := by
  have hlog : m.toNat.log2 < 52 := (Nat.log2_lt (by omega)).2 m.isLt
  have hbits : ¬ m.toNat.log2 + 1 = Format.binary64.mantissaBits := by
    show ¬ m.toNat.log2 + 1 = 53
    omega
  unfold UnpackedFloat.pack
  dsimp only
  rw [if_neg (by decide), if_neg hbits, BitVec.ofNat_toNat, BitVec.setWidth_eq]

/-- All other numbers have a leading one that is not stored. -/
theorem pack_normal (s : Sign) (e : BitVec 11) (m : BitVec 52) (he : e ≠ -1#11)
    (h : 0 < (1#1 ++ m).toNat) :
    pack Format.binary64 (.finite s (1#1 ++ m).toNat (e.toNat - 1075) h) =
      packComponents Format.binary64 s e m := by
  have hm := m.isLt
  have hsum := toNat_append_one m
  have hle : 52 ≤ (1#1 ++ m).toNat.log2 := (Nat.le_log2 (by omega)).2 (by omega)
  have hlt : (1#1 ++ m).toNat.log2 < 53 := (Nat.log2_lt (by omega)).2 (by omega)
  have hbits : (1#1 ++ m).toNat.log2 + 1 = Format.binary64.mantissaBits := by
    show _ = 53
    omega
  have hexponent : ((e.toNat : Int) - 1075 + Format.binary64.exponentBias +
      Format.binary64.mantissaBitsWithoutImplicit).toNat = e.toNat := by
    show ((e.toNat : Int) - 1075 + 1023 + 52).toNat = e.toNat
    omega
  have hones : e.toNat ≠ 2 ^ 11 - 1 := fun hones => he (BitVec.eq_of_toNat_eq hones)
  have hfinite : ¬ 2 ^ Format.binary64.exponentBits ≤ e.toNat + 1 := by
    show ¬ 2 ^ 11 ≤ e.toNat + 1
    have := e.isLt
    omega
  have hmantissa : BitVec.ofNat 52 (1#1 ++ m).toNat = m := by
    refine BitVec.eq_of_toNat_eq ?_
    rw [BitVec.toNat_ofNat, hsum]
    omega
  unfold UnpackedFloat.pack
  simp only [hexponent]
  rw [if_neg hfinite, if_pos hbits, BitVec.ofNat_toNat, BitVec.setWidth_eq]
  exact congrArg _ hmantissa

theorem unpack_subnormal (s : Sign) {m : BitVec 52} (hm : 0 < m.toNat) :
    UnpackedFloat.unpack Format.binary64 (packComponents Format.binary64 s 0#11 m) =
      .finite s m.toNat (-1074) hm := by
  have hzero : m ≠ 0#52 := by rintro rfl; exact absurd hm (by decide)
  unfold UnpackedFloat.unpack
  simp only [unpackMantissa_packComponents, unpackExponent_packComponents,
    unpackSign_packComponents, Sign.ofBitVec_toBitVec]
  rw [if_neg (by decide), if_pos trivial, dif_neg hzero]
  rfl

theorem unpack_normal (s : Sign) {e : BitVec 11} (m : BitVec 52) (hzero : e ≠ 0#11)
    (hones : e ≠ -1#11) (hm : 0 < (1#1 ++ m).toNat) :
    UnpackedFloat.unpack Format.binary64 (packComponents Format.binary64 s e m) =
      .finite s (1#1 ++ m).toNat (e.toNat - 1075) hm := by
  unfold UnpackedFloat.unpack
  simp only [unpackMantissa_packComponents, unpackExponent_packComponents,
    unpackSign_packComponents, Sign.ofBitVec_toBitVec]
  rw [if_neg hones, if_neg hzero]
  rfl

/-- A number in canonical form is stored as it is. -/
theorem unpack_pack_finite (h : Canonical m e) (he : e ≤ 971) :
    UnpackedFloat.unpack Format.binary64 (pack Format.binary64 (.finite s m e h.pos)) =
      .finite s m e h.pos := by
  have hlt := h.lt
  have hpos := h.pos
  rcases Nat.lt_or_ge m (2 ^ 52) with hsmall | hlarge
  · obtain rfl : e = -1074 := h.normal.resolve_right (Nat.not_le.2 hsmall)
    obtain ⟨v, rfl⟩ : ∃ v : BitVec 52, m = v.toNat := ⟨BitVec.ofNat 52 m, by simp; omega⟩
    rw [pack_subnormal]
    exact unpack_subnormal s hpos
  · have hexponent := h.le_exponent
    obtain ⟨v, rfl⟩ : ∃ v : BitVec 52, m = (1#1 ++ v).toNat :=
      ⟨BitVec.ofNat 52 (m - 2 ^ 52), by rw [toNat_append_one]; simp; omega⟩
    obtain ⟨w, hw, rfl⟩ : ∃ w : BitVec 11, w.toNat < 2047 ∧ e = w.toNat - 1075 :=
      ⟨BitVec.ofNat 11 (e + 1075).toNat, by simp; omega, by simp; omega⟩
    have hones : w ≠ -1#11 := by rintro rfl; exact absurd hw (by decide)
    have hzero : w ≠ 0#11 := by rintro rfl; exact absurd hexponent (by decide)
    rw [pack_normal s w v hones]
    exact unpack_normal s v hzero hones _

theorem unpack_pack_zero (s : Sign) :
    UnpackedFloat.unpack Format.binary64 (pack Format.binary64 (.zero s)) = .zero s := by
  cases s <;> rfl

/-- A number past the largest finite double is stored as the infinity. -/
theorem unpack_pack_infinite (hm : 0 < m) (he : 971 < e) :
    UnpackedFloat.unpack Format.binary64 (pack Format.binary64 (.finite s m e hm)) =
      .infinity s := by
  have hbiased : 2 ^ 11 ≤ (e + Format.binary64.exponentBias +
      Format.binary64.mantissaBitsWithoutImplicit).toNat + 1 := by
    show 2 ^ 11 ≤ (e + 1023 + 52).toNat + 1
    omega
  unfold UnpackedFloat.pack
  dsimp only
  rw [if_pos hbiased]
  cases s <;> rfl

/-! ### Rounding -/

theorem targetExponent_eq (m : ℕ) (e : ℤ) :
    Format.binary64.targetExponent (totalExponent m e) = max (m.log2 + e - 52) (-1074) := by
  show max ((m.log2 : ℤ) + 1 + e - 53) (-1074) = _
  congr 1
  omega

theorem mantissa_shiftRight (x : ExtendedMantissa) (k : ℕ) :
    (x >>> k).mantissa = x.mantissa / 2 ^ k := by
  induction k with
  | zero => simp [HShiftRight.hShiftRight, Nat.repeat]
  | succ k ih =>
    show (x >>> k).mantissa / 2 = _
    rw [ih, Nat.div_div_eq_div_mul, pow_succ]

/-- A mantissa is rounded to itself or to the next one. -/
theorem roundedMantissa_bounds (x : ExtendedMantissa) :
    x.mantissa ≤ x.roundedMantissa ∧ x.roundedMantissa ≤ x.mantissa + 1 := by
  rcases x with ⟨m, r, t⟩
  cases r <;> cases t <;>
    simp [ExtendedMantissa.roundedMantissa, ExtendedMantissa.accuracy, Accuracy.roundToNearestEven]
  omega

/-- A mantissa that has lost bits by rounding may have to lose one more: it is `2 ^ 53` then. -/
theorem shift_rounded (hm : m ≤ 2 ^ 53) (he : -1074 ≤ e) :
    shiftToTargetExponent Format.binary64 m e .exact =
      if m = 2 ^ 53 then (⟨2 ^ 52, false, false⟩, e + 1) else (⟨m, false, false⟩, e) := by
  unfold shiftToTargetExponent shiftToExponent
  rw [targetExponent_eq]
  split_ifs with hcarry
  · subst hcarry
    have hshift : (max (((2 ^ 53).log2 : ℕ) + e - 52 : ℤ) (-1074) - e).toNat = 1 := by
      rw [Nat.log2_two_pow]
      omega
    simp only [hshift]
    rfl
  · have hlog : m.log2 ≤ 52 := by
      rcases Nat.eq_zero_or_pos m with rfl | hpos
      · simp
      · have := (Nat.log2_lt hpos.ne').2 (show m < 2 ^ 53 by omega)
        omega
    have hshift : (max ((m.log2 : ℤ) + e - 52) (-1074) - e).toNat = 0 := by omega
    simp only [hshift]
    simp
    rfl

/-- A mantissa that has to lose `k` bits is rounded to a number in canonical form: with the exponent
it asks for and at least the bits that are left, or with the next exponent. -/
theorem exists_round (s : Sign) (hk : e + k = max (m.log2 + e - 52) (-1074)) (hpos : 0 < m / 2 ^ k) :
    ∃ (m' : ℕ) (e' : ℤ) (hm' : 0 < m'),
      roundWithAccuracy Format.binary64 s m e .exact = .finite s m' e' hm' ∧ Canonical m' e' ∧
        e + k ≤ e' ∧ (e' = e + k → m / 2 ^ k ≤ m') := by
  have hmpos : m ≠ 0 := by rintro rfl; simp at hpos
  have hlow : 2 ^ m.log2 ≤ m := Nat.log2_self_le hmpos
  have hhigh : m < 2 ^ (m.log2 + 1) := Nat.lt_log2_self
  let x : ExtendedMantissa := ExtendedMantissa.ofMantissaAndAccuracy m .exact >>> k
  have hmantissa : x.mantissa = m / 2 ^ k := mantissa_shiftRight _ _
  have hfirst : shiftToTargetExponent Format.binary64 m e .exact = (x, e + k) := by
    have hshift : (max ((m.log2 : ℤ) + e - 52) (-1074) - e).toNat = k := by omega
    unfold shiftToTargetExponent shiftToExponent
    rw [targetExponent_eq]
    simp only [hshift]
    rfl
  obtain ⟨hge, hle⟩ := roundedMantissa_bounds x
  rw [hmantissa] at hge hle
  have hquotient : m / 2 ^ k < 2 ^ 53 := by
    refine (Nat.div_lt_iff_lt_mul (by positivity)).2 (hhigh.trans_le ?_)
    rw [← pow_add]
    exact Nat.pow_le_pow_right (by decide) (by omega)
  have hnormal : e + k = -1074 ∨ 2 ^ 52 ≤ m / 2 ^ k := by
    by_cases hleast : e + k = -1074
    · exact .inl hleast
    · refine .inr ((Nat.le_div_iff_mul_le (by positivity)).2 ?_)
      rw [← pow_add, show 52 + k = m.log2 by omega]
      exact hlow
  unfold roundWithAccuracy
  rw [hfirst]
  dsimp only
  rw [shift_rounded (by omega) (by omega)]
  by_cases hcarry : x.roundedMantissa = 2 ^ 53
  · rw [if_pos hcarry]
    exact ⟨2 ^ 52, e + k + 1, by decide, dif_neg (show ¬ 2 ^ 52 = 0 by decide),
      ⟨by decide, by decide, by omega, .inr le_rfl⟩, by omega, fun h => by omega⟩
  · have hr : 0 < x.roundedMantissa := by omega
    rw [if_neg hcarry]
    exact ⟨x.roundedMantissa, e + k, hr, dif_neg hr.ne',
      ⟨hr, by omega, by omega, hnormal.imp_right fun h => by omega⟩, le_rfl, fun _ => hge⟩

/-- The product with a factor of at least one has a larger exponent, or the same exponent and at least
the same mantissa. -/
theorem exists_mul (s : Sign) (h : Canonical m e) (hm : 2 ^ 52 ≤ m') (he : -52 ≤ e') :
    ∃ (p : ℕ) (q : ℤ) (hp : 0 < p),
      roundWithAccuracy Format.binary64 s (m' * m) (e' + e) .exact = .finite s p q hp ∧
        Canonical p q ∧ e ≤ q ∧ (q = e → m ≤ p) := by
  have hpos := h.pos
  have hnormal := h.normal
  have hexponent := h.le_exponent
  have hproduct : 2 ^ 52 * m ≤ m' * m := Nat.mul_le_mul_right m hm
  have hne : m' * m ≠ 0 := (Nat.mul_pos (by omega) hpos).ne'
  have hlog : 52 + m.log2 ≤ (m' * m).log2 := by
    refine (Nat.le_log2 hne).2 (le_trans ?_ hproduct)
    rw [pow_add]
    exact Nat.mul_le_mul_left _ (Nat.log2_self_le hpos.ne')
  have hlarge : e = -1074 ∨ 52 ≤ m.log2 := hnormal.imp_right (Nat.le_log2 hpos.ne').2
  obtain ⟨k, hk⟩ : ∃ k : ℕ, e' + e + k = max ((m' * m).log2 + (e' + e) - 52) (-1074) :=
    ⟨(max (((m' * m).log2 : ℤ) + (e' + e) - 52) (-1074) - (e' + e)).toNat, by omega⟩
  have hquotient : 0 < m' * m / 2 ^ k := by
    refine Nat.div_pos (le_trans ?_ (Nat.log2_self_le hne)) (by positivity)
    exact Nat.pow_le_pow_right (by decide) (by omega)
  obtain ⟨p, q, hp, hround, hcanonical, hle, hmantissa⟩ := exists_round s hk hquotient
  refine ⟨p, q, hp, hround, hcanonical, by omega, fun hq => le_trans ?_ (hmantissa (by omega))⟩
  -- Where the exponent stays, the factor has no more than 52 bits behind the point.
  have hbits : k ≤ 52 := by omega
  refine (Nat.le_div_iff_mul_le (by positivity)).2 (le_trans ?_ hproduct)
  rw [Nat.mul_comm]
  exact Nat.mul_le_mul_right m (Nat.pow_le_pow_right (by decide) hbits)

/-! ### Comparison -/

theorem le_iff {x y : Float} : x ≤ y ↔ x.toModel.unpack.le y.toModel.unpack := decide_eq_true_iff

theorem unpack_zero : (0.0 : Float).toModel.unpack = .zero .positive := rfl

theorem unpack_one : (1.0 : Float).toModel.unpack = .finite .positive (2 ^ 52) (-52) (by decide) :=
  rfl

theorem unpack_mul (x y : Float) : (x * y).toModel.unpack =
    UnpackedFloat.unpack Format.binary64
      (pack Format.binary64 (mul Format.binary64 x.toModel.unpack y.toModel.unpack)) := rfl

/-- Numbers in canonical form are compared by their exponents and then by their mantissas. -/
theorem le_finite_iff {hm : 0 < m} {hm' : 0 < m'} :
    (UnpackedFloat.finite .positive m e hm).le (.finite .positive m' e' hm') ↔
      e < e' ∨ e = e' ∧ m ≤ m' := by
  show (((compare e e').then (compare m m')).isLE = true) ↔ _
  rcases lt_trichotomy e e' with h | rfl | h
  · simp [compare_lt_iff_lt.2 h, h, Ordering.then]
  · simp [Ordering.then, Nat.isLE_compare]
  · simp [compare_gt_iff_gt.2 h, Ordering.then]
    omega

/-- A finite number that is not below zero is a zero or a positive number. -/
theorem unpack_of_nonneg {x : Float} (hfinite : x.isFinite) (h : 0.0 ≤ x) :
    (∃ s, x.toModel.unpack = .zero s) ∨
      ∃ m e hm, x.toModel.unpack = .finite .positive m e hm ∧ Canonical m e := by
  have hmodel : x.toModel.unpack.isFinite := hfinite
  rw [le_iff, unpack_zero] at h
  cases hx : x.toModel.unpack with
  | notANumber => rw [hx] at hmodel; cases hmodel
  | infinity s => rw [hx] at hmodel; cases hmodel
  | zero s => exact .inl ⟨s, rfl⟩
  | finite s m e hm =>
    rw [hx] at h
    cases s with
    | negative => cases h
    | positive => exact .inr ⟨m, e, hm, rfl, canonical_of_unpack hx⟩

/-- A finite number from one on has a mantissa of 53 bits, at most 52 of them behind the point. -/
theorem unpack_of_one_le {c : Float} (hfinite : c.isFinite) (h : 1.0 ≤ c) :
    ∃ m e hm, c.toModel.unpack = .finite .positive m e hm ∧ 2 ^ 52 ≤ m ∧ -52 ≤ e := by
  have hmodel : c.toModel.unpack.isFinite := hfinite
  rw [le_iff, unpack_one] at h
  cases hc : c.toModel.unpack with
  | notANumber => rw [hc] at hmodel; cases hmodel
  | infinity s => rw [hc] at hmodel; cases hmodel
  | zero s => rw [hc] at h; cases h
  | finite s m e hm =>
    rw [hc] at h
    cases s with
    | negative => cases h
    | positive =>
      rw [le_finite_iff] at h
      have hnormal := (canonical_of_unpack hc).normal
      exact ⟨m, e, hm, rfl, by omega, by omega⟩

/-- What is stored of a number in canonical form is no smaller than numbers below it. -/
theorem le_unpack_pack {hm : 0 < m} (h : Canonical m' e') (hle : e < e' ∨ e = e' ∧ m ≤ m') :
    (UnpackedFloat.finite .positive m e hm).le (UnpackedFloat.unpack Format.binary64
      (pack Format.binary64 (.finite .positive m' e' h.pos))) := by
  by_cases he : e' ≤ 971
  · rw [unpack_pack_finite h he]
    exact le_finite_iff.2 hle
  · rw [unpack_pack_infinite h.pos (not_le.1 he)]
    rfl

/-- A product with a factor of at least one is no smaller than the other factor, unless that one is
negative. -/
theorem le_mul {c x : Float} (hc : c.isFinite) (hone : 1.0 ≤ c) (hx : x.isFinite) (hzero : 0.0 ≤ x) :
    x ≤ c * x := by
  obtain ⟨m', e', hm', hc, hnormal, hexponent⟩ := unpack_of_one_le hc hone
  rw [le_iff, unpack_mul, hc]
  rcases unpack_of_nonneg hx hzero with ⟨s, hx⟩ | ⟨m, e, hm, hx, hcanonical⟩
  · have hmul : mul Format.binary64 (.finite .positive m' e' hm') (.zero s) = .zero (.positive * s) :=
      rfl
    rw [hx, hmul, unpack_pack_zero]
    rfl
  · obtain ⟨p, q, hp, hround, hproduct, hle, hmantissa⟩ :=
      exists_mul .positive hcanonical hnormal hexponent
    have hmul : mul Format.binary64 (.finite .positive m' e' hm') (.finite .positive m e hm) =
        .finite .positive p q hp := hround
    rw [hx, hmul]
    exact le_unpack_pack hproduct (by omega)

end CipherMonitor.Binary64
