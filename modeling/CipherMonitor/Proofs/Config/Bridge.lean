import CipherMonitor.Bridge.Descent
import CipherMonitor.Proofs.Outcome

/-!
# Which digits of the descent are accepted

The check of a configuration takes counts of digits modulo `2 ^ 32`, and breaks off when a number of
bits leaves 32 bits.  For counts below `2 ^ 32` it is the check that the decomposition of a phase needs.

* `BridgeConfig.Fits`, `BridgeConfig.FitsModulo`, `BridgeConfig.Overflows` — what a count of digits can
  be, as an integer and in the check.
* `BridgeConfig.validateDigits_eq`, `BridgeConfig.validate_eq_ok_iff`, `BridgeConfig.validate_breach_iff`
  — the result of the check.
* `KeyBundle.walk`, `KeyBundle.decompose_eq_walk` — the decomposition without its checks.
* `BridgeConfig.validate_exact` — which configurations are accepted, and what they can be used for.
-/

namespace CipherMonitor

/-! ### The checks of the decomposition -/

namespace KeyBundle

variable {k : KeyBundle} {t : Fourier} {bits digits : ℕ} {coarse : Lwe 64}

/-- The sign of the top digits of the phase, for numbers of digits that need no check. -/
def walk (k : KeyBundle) (t : Fourier) (bits digits : ℕ) (coarse : Lwe 64) : Outcome (Lwe 32) := do
  let shifted ← (List.range digits).mapM fun i => k.digitOf bits digits coarse (i + 1)
  k.climb t bits none shifted

theorem decompose_eq_walk (hdigits : 1 ≤ digits) (hwidth : bits * digits ≤ 32) (hbits : bits ≤ 30) :
    k.decompose t bits digits coarse = k.walk t bits digits coarse := by
  rw [decompose, require_of hdigits, Outcome.ok_bind, require_of hwidth, Outcome.ok_bind,
    require_of hbits, Outcome.ok_bind, walk]

/-- Digits that do not fit a mid word break the precondition. -/
theorem decompose_of_width (hdigits : 1 ≤ digits) (hwidth : ¬ bits * digits ≤ 32) :
    k.decompose t bits digits coarse = .error (.breach .shape) := by
  rw [decompose, require_of hdigits, Outcome.ok_bind, require, if_neg hwidth]
  rfl

end KeyBundle

namespace BridgeConfig

variable {c : BridgeConfig} {count : ℕ}

/-! ### The check of a count -/

/-- There are digits, and they fit a mid word. -/
def Fits (c : BridgeConfig) (count : ℕ) : Prop := 1 ≤ count ∧ count * c.digitBits ≤ 32

/-- There are digits, and as many of them as the check sees fit a mid word. -/
def FitsModulo (c : BridgeConfig) (count : ℕ) : Prop :=
  count ≠ 0 ∧ count % 2 ^ 32 * c.digitBits ≤ 32

instance : Decidable (c.FitsModulo count) := inferInstanceAs (Decidable (_ ∧ _))

/-- The bits of as many digits as the check sees do not fit 32 bits. -/
def Overflows (c : BridgeConfig) (count : ℕ) : Prop := 2 ^ 32 ≤ count % 2 ^ 32 * c.digitBits

instance : Decidable (c.Overflows count) := inferInstanceAs (Decidable (_ ≤ _))

theorem fitsModulo_iff (h : count < 2 ^ 32) : c.FitsModulo count ↔ c.Fits count := by
  rw [FitsModulo, Fits, Nat.mod_eq_of_lt h, Nat.one_le_iff_ne_zero]

theorem FitsModulo.not_overflows (h : c.FitsModulo count) : ¬ c.Overflows count := fun hover =>
  absurd (Nat.le_trans hover h.2) (by decide)

/-- A count is accepted, breaks the check off, or is refused. -/
theorem validateDigits_eq (c : BridgeConfig) (count : ℕ) :
    c.validateDigits count =
      if c.FitsModulo count then .ok ()
      else if c.Overflows count then .error (.breach .arithmetic)
      else .error (.monitor (.invalidConfig (.digits count c.digitBits))) := by
  by_cases hzero : count = 0
  · have hfits : ¬ c.FitsModulo count := fun h => h.1 hzero
    have hover : ¬ c.Overflows count := by simp [Overflows, hzero]
    simp only [validateDigits, hzero ▸ hfits, hzero ▸ hover, hzero, if_true, if_false]
  simp only [validateDigits, if_neg hzero]
  by_cases hover : c.Overflows count
  · have hfits : ¬ c.FitsModulo count := fun h => h.not_overflows hover
    rw [require, if_neg (Nat.not_lt.2 hover), if_neg hfits, if_pos hover]
    rfl
  · rw [require_of (Nat.not_le.1 hover), Outcome.ok_bind]
    by_cases hfits : c.FitsModulo count
    · rw [if_pos hfits]
      exact if_neg (Nat.not_lt.2 hfits.2)
    · rw [if_neg hfits, if_neg hover]
      exact if_pos (Nat.not_le.1 fun hwidth => hfits ⟨hzero, hwidth⟩)

theorem validateDigits_eq_ok_iff : c.validateDigits count = .ok () ↔ c.FitsModulo count := by
  rw [validateDigits_eq]
  split_ifs <;> simp_all

theorem validateDigits_breach_iff :
    (∃ b, c.validateDigits count = .error (.breach b)) ↔ c.Overflows count := by
  rw [validateDigits_eq]
  split_ifs with hfits hover
  · simp [hfits.not_overflows]
  · simp [hover]
  · simp [hover]

/-! ### The check of a configuration -/

/-- A digit has at least one bit and leaves two of a mid word. -/
def DigitFits (c : BridgeConfig) : Prop := 1 ≤ c.digitBits ∧ c.digitBits ≤ 30

instance : Decidable c.DigitFits := inferInstanceAs (Decidable (_ ∧ _))

/-- With an admissible digit the counts are checked, and else the width of the digit is refused unless
it is too large for the check. -/
theorem validate_eq (c : BridgeConfig) :
    c.validate =
      if c.DigitFits then c.validateDigits c.highDigits >>= fun _ => c.validateDigits c.lowDigits
      else if c.digitBits + 2 < 2 ^ 32 then
        .error (.monitor (.invalidConfig (.digitBits c.digitBits)))
      else .error (.breach .arithmetic) := by
  by_cases hzero : c.digitBits = 0
  · have hfits : ¬ c.DigitFits := fun h => by simp [DigitFits, hzero] at h
    have hover : c.digitBits + 2 < 2 ^ 32 := by simp [hzero]
    rw [if_neg hfits, if_pos hover]
    exact if_pos hzero
  simp only [validate, if_neg hzero]
  by_cases hover : c.digitBits + 2 < 2 ^ 32
  · rw [require_of hover, Outcome.ok_bind, if_pos hover]
    by_cases hfits : c.DigitFits
    · rw [if_pos hfits]
      exact if_neg (Nat.not_lt.2 (Nat.add_le_add_right hfits.2 2))
    · rw [if_neg hfits]
      have hwidth : 32 < c.digitBits + 2 := by unfold DigitFits at hfits; omega
      exact if_pos hwidth
  · have hfits : ¬ c.DigitFits := fun h => hover (by have := h.2; omega)
    rw [require, if_neg hover, if_neg hfits, if_neg hover]
    rfl

theorem validate_eq_ok_iff :
    c.validate = .ok () ↔
      c.DigitFits ∧ c.FitsModulo c.highDigits ∧ c.FitsModulo c.lowDigits := by
  rw [validate_eq]
  by_cases hfits : c.DigitFits
  · rw [if_pos hfits, Outcome.bind_eq_ok_iff]
    exact ⟨fun ⟨_, hhigh, hlow⟩ =>
        ⟨hfits, validateDigits_eq_ok_iff.1 hhigh, validateDigits_eq_ok_iff.1 hlow⟩,
      fun ⟨_, hhigh, hlow⟩ =>
        ⟨(), validateDigits_eq_ok_iff.2 hhigh, validateDigits_eq_ok_iff.2 hlow⟩⟩
  · rw [if_neg hfits]
    split_ifs <;> simp [hfits]

/-- The check breaks off at the width of a digit, at the first count of digits, or at the second. -/
theorem validate_breach_iff :
    (∃ b, c.validate = .error (.breach b)) ↔
      2 ^ 32 ≤ c.digitBits + 2 ∨ c.DigitFits ∧ (c.Overflows c.highDigits ∨
        c.FitsModulo c.highDigits ∧ c.Overflows c.lowDigits) := by
  rw [validate_eq]
  by_cases hfits : c.DigitFits
  · have hbits : ¬ 2 ^ 32 ≤ c.digitBits + 2 := by have := hfits.2; omega
    rw [if_pos hfits, validateDigits_eq c c.highDigits]
    split_ifs with hhigh hover
    · simp only [Outcome.ok_bind, validateDigits_breach_iff, hbits, hfits, hhigh,
        hhigh.not_overflows, true_and, false_or]
    · simp only [hbits, hfits, hover]
      simp [bind, Except.bind]
    · simp only [hbits, hfits, hover, hhigh]
      simp [bind, Except.bind]
  · rw [if_neg hfits]
    split_ifs with hbits
    · simp [hfits, Nat.not_le.2 hbits]
    · simp [hfits, Nat.not_lt.1 hbits]

/-! ### The digits of an accepted configuration -/

theorem FitsModulo.of_digits? {mode : Accuracy} (hmode : c.digits? mode = some count)
    (hhigh : c.FitsModulo c.highDigits) (hlow : c.FitsModulo c.lowDigits) : c.FitsModulo count := by
  cases mode with
  | high => exact Option.some.inj hmode ▸ hhigh
  | low => exact Option.some.inj hmode ▸ hlow
  | direct => cases hmode

/-- An accepted count fits a mid word unless the check saw a smaller one. -/
theorem FitsModulo.fits_iff (h : c.FitsModulo count) (hdigit : c.DigitFits) :
    c.Fits count ↔ count < 2 ^ 32 := by
  refine ⟨fun hfits => ?_, fun hlt => (fitsModulo_iff hlt).1 h⟩
  have := Nat.le_mul_of_pos_right count hdigit.1
  have := hfits.2
  omega

/-- Digits that fit are moved by less than the width of a coarse word. -/
theorem Fits.shift_lt (h : c.Fits count) (i : ℕ) : c.digitBits * (count - (i + 1)) < 64 := by
  have hle : c.digitBits * (count - (i + 1)) ≤ c.digitBits * count := Nat.mul_le_mul_left _ (by omega)
  have := h.2
  rw [Nat.mul_comm] at this
  omega

/-- What is accepted, when the check breaks off, and how the digits of an accepted configuration
decompose a phase: with all checks passed and admissible shifts for counts below `2 ^ 32`, and else with
a broken precondition. -/
theorem validate_exact (c : BridgeConfig) :
    (c.validate = .ok () ↔ c.DigitFits ∧ c.FitsModulo c.highDigits ∧ c.FitsModulo c.lowDigits) ∧
    ((∃ b, c.validate = .error (.breach b)) ↔ 2 ^ 32 ≤ c.digitBits + 2 ∨
      c.DigitFits ∧ (c.Overflows c.highDigits ∨
        c.FitsModulo c.highDigits ∧ c.Overflows c.lowDigits)) ∧
    (c.highDigits < 2 ^ 32 → c.lowDigits < 2 ^ 32 →
      (c.validate = .ok () ↔ c.DigitFits ∧ c.Fits c.highDigits ∧ c.Fits c.lowDigits)) ∧
    (c.validate = .ok () → ∀ mode count, c.digits? mode = some count →
      (count < 2 ^ 32 →
        (∀ k t coarse, KeyBundle.decompose k t c.digitBits count coarse =
          k.walk t c.digitBits count coarse) ∧
        ∀ i < count, c.digitBits * (count - (i + 1)) < Level.coarse.wordBits) ∧
      (2 ^ 32 ≤ count → ∀ k t coarse,
        KeyBundle.decompose k t c.digitBits count coarse = .error (.breach .shape))) := by
  refine ⟨validate_eq_ok_iff, validate_breach_iff, fun hhigh hlow => ?_, fun hvalid mode count hmode => ?_⟩
  · rw [validate_eq_ok_iff, fitsModulo_iff hhigh, fitsModulo_iff hlow]
  · obtain ⟨hdigit, hhigh, hlow⟩ := validate_eq_ok_iff.1 hvalid
    have hmodulo := FitsModulo.of_digits? hmode hhigh hlow
    have hcount : 1 ≤ count := Nat.one_le_iff_ne_zero.2 hmodulo.1
    refine ⟨fun hlt => ?_, fun hge k t coarse => ?_⟩
    · have hfits := (hmodulo.fits_iff hdigit).2 hlt
      have hwidth : c.digitBits * count ≤ 32 := Nat.mul_comm .. ▸ hfits.2
      exact ⟨fun k t coarse => KeyBundle.decompose_eq_walk hcount hwidth hdigit.2,
        fun i _ => hfits.shift_lt i⟩
    · have hfits : ¬ c.Fits count := fun h => absurd ((hmodulo.fits_iff hdigit).1 h) (by omega)
      exact KeyBundle.decompose_of_width hcount fun hwidth =>
        hfits ⟨hcount, Nat.mul_comm .. ▸ hwidth⟩

/-- Eight digits of four bits, and three of them. -/
theorem validate_exact_default :
    BridgeConfig.validate {} = .ok () ∧
      (∀ k t coarse, KeyBundle.decompose k t 4 8 coarse = k.walk t 4 8 coarse) ∧
      ∀ k t coarse, KeyBundle.decompose k t 4 3 coarse = k.walk t 4 3 coarse := by
  obtain ⟨-, -, hbelow, hdecompose⟩ := validate_exact {}
  have hvalid : BridgeConfig.validate {} = .ok () :=
    (hbelow (by decide) (by decide)).2 ⟨by decide, ⟨by decide, by decide⟩, by decide, by decide⟩
  exact ⟨hvalid, ((hdecompose hvalid .high 8 rfl).1 (by decide)).1,
    ((hdecompose hvalid .low 3 rfl).1 (by decide)).1⟩

/-- A count of digits that the check takes for one. -/
def longCount : BridgeConfig := { digitBits := 1, highDigits := 2 ^ 32 + 1, lowDigits := 1 }

/-- A digit of the largest width that 32 bits can name. -/
def wideDigit : BridgeConfig := { digitBits := 2 ^ 32 - 1, highDigits := 1, lowDigits := 1 }

/-- The check accepts more digits of one bit than a word has bits, and breaks off at a wide digit instead
of refusing it. -/
theorem validate_longCount :
    longCount.validate = .ok () ∧ longCount.digits? .high = some (2 ^ 32 + 1) ∧
      ¬ (2 ^ 32 + 1) * longCount.digitBits ≤ 32 ∧
      wideDigit.validate = .error (.breach .arithmetic) := by
  refine ⟨?_, rfl, by decide, ?_⟩
  · rw [validate_eq_ok_iff]
    exact ⟨by decide, ⟨by decide, by decide⟩, by decide, by decide⟩
  · rw [validate_eq]
    rfl

end BridgeConfig

end CipherMonitor
