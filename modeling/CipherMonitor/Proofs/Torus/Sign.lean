import CipherMonitor.Proofs.Torus.Circle

/-!
# Signs on the circle, digit by digit

Numbers of the circle are positive on `(0, 1/2)` and negative on `(1/2, 1)`.  The sign of a number is
the sign of its top digit, and noise can only change that near the edges of the digit.  Adding a quarter
of a digit unit with the sign of the digits below moves numbers away from all edges, and a wrong
sign below does no harm unless the number itself is close to `0` or `1/2`.

* `Torus.signed` — a number with a sign.
* `Torus.SignUpTo`, `Torus.Found` — the sign of a number, except close to `0` and `1/2`, and one that is
  found for a word.
* `Torus.SignUpTo.carried` — a digit that received a quarter stays clear of the edges.
* `Torus.Found.signUpTo`, `Torus.Found.signUpTo_of_carry` — the sign that is found for a number without
  digits below, and for one whose digits below have a sign.
* `Torus.SignUpTo.of_gap` — the sign of a word that is far from `0` and `1/2`.
-/

namespace CipherMonitor.Torus

/-- A number or its opposite. -/
noncomputable def signed (positive : Bool) (r : ℝ) : ℝ := if positive then r else -r

@[simp] theorem signed_true (r : ℝ) : signed true r = r := rfl

@[simp] theorem signed_false (r : ℝ) : signed false r = -r := rfl

/-- The sign is that of the number `z` in `[0, 1)`, unless `z` is within `t` of `0` or `1/2` on the
circle. -/
structure SignUpTo (t z : ℝ) (positive : Bool) : Prop where
  upper : t < z → z < 1 / 2 - t → positive = true
  lower : 1 / 2 + t < z → z < 1 - t → positive = false

/-- The sign that is found for a word is right when the word is outside of a margin around `0` and
`1/2`. -/
structure Found {v : ℕ} (margin : ℝ) (x : BitVec v) (positive : Bool) : Prop where
  upper : margin ≤ fraction x → fraction x < 1 / 2 - margin → positive = true
  lower : 1 / 2 + margin ≤ fraction x → fraction x < 1 - margin → positive = false

variable {t f a g y noise margin : ℝ} {v w : ℕ} {x : BitVec v} {positive : Bool}

section

variable (h : Found margin x positive) (hmargin : 0 ≤ margin) {s : ℝ}
  (hs : toCircle x = (s : UnitAddCircle))

include h hmargin hs

theorem Found.eq_true (hlo : margin ≤ s) (hhi : s < 1 / 2 - margin) : positive = true := by
  have hfraction : fraction x = s := fraction_eq hs (by linarith) (by linarith)
  exact h.upper (hfraction ▸ hlo) (hfraction ▸ hhi)

theorem Found.eq_false (hlo : 1 / 2 + margin ≤ s) (hhi : s < 1 - margin) : positive = false := by
  have hfraction : fraction x = s := fraction_eq hs (by linarith) (by linarith)
  exact h.lower (hfraction ▸ hlo) (hfraction ▸ hhi)

end

theorem SignUpTo.mono {t' : ℝ} (h : SignUpTo t f positive) (ht : t ≤ t') :
    SignUpTo t' f positive :=
  ⟨fun hlo hhi => h.upper (by linarith) (by linarith),
    fun hlo hhi => h.lower (by linarith) (by linarith)⟩

section

variable (hsign : SignUpTo t f positive) (hf : 0 ≤ f) (hf' : f < 1) (ht : 0 ≤ t)

include hsign hf hf' ht

/-- A number with the digit `m` and the part `f` below it is between the edges `lo` and `hi`.  When it
receives a quarter with the sign of `f`, it stays clear of them: noise of `a` leaves it at a distance
of `g`. -/
theorem SignUpTo.carried (lo hi : ℤ) {m : ℤ} (hroom : a + g + t < 1 / 4) (hlo : lo + t < m + f)
    (hhi : m + f < hi - t) (hy : |y - (m + f + signed positive (1 / 4))| ≤ a) :
    lo + g ≤ y ∧ y < hi - g := by
  obtain ⟨hbelow, habove⟩ := abs_le.1 hy
  have hlo' : (lo : ℝ) ≤ m := by
    have : (lo : ℝ) < (m + 1 : ℤ) := by push_cast; linarith
    exact_mod_cast Int.lt_add_one_iff.1 (Int.cast_lt.1 this)
  have hhi' : (m : ℝ) + 1 ≤ hi := by
    have : (m : ℝ) < hi := by linarith
    exact_mod_cast Int.add_one_le_iff.2 (Int.cast_lt.1 this)
  cases positive with
  | true =>
    rw [signed_true] at hbelow habove
    refine ⟨by linarith, ?_⟩
    -- The quarter can only lead out next to the upper edge, where `f` is not close to `1`.
    rcases hhi'.eq_or_lt with hedge | hedge
    · have : f ≤ 1 / 2 + t := by
        by_contra hf
        exact absurd (hsign.lower (by linarith) (by linarith)) (by decide)
      linarith
    · have : ((m + 1 : ℤ) : ℝ) < hi := by exact_mod_cast hedge
      have : (m : ℝ) + 1 + 1 ≤ hi := by exact_mod_cast Int.add_one_le_iff.2 (Int.cast_lt.1 this)
      linarith
  | false =>
    rw [signed_false] at hbelow habove
    refine ⟨?_, by linarith⟩
    rcases hlo'.eq_or_lt with hedge | hedge
    · have : 1 / 2 - t ≤ f := by
        by_contra hf
        exact absurd (hsign.upper (by linarith) (by linarith)) (by decide)
      linarith
    · have : (lo : ℝ) + 1 ≤ m := by exact_mod_cast Int.add_one_le_iff.2 (Int.cast_lt.1 hedge)
      linarith

/-- The same as a fraction: the half of the circle that starts at `r` is `half` of the digit units. -/
theorem SignUpTo.carried_half (edge : ℤ) (r : ℝ) {half m : ℕ} {unit z : ℝ}
    (hunit : 0 < unit) (hhalf : unit * (1 / 2) = half) (hedge : unit * r = edge) (hz : unit * z = m + f)
    (hroom : unit * (noise + margin) + t < 1 / 4)
    (hy : |y - (z + signed positive (1 / (4 * unit)))| ≤ noise) (hlo : r + t / unit < z)
    (hhi : z < r + 1 / 2 - t / unit) : r + margin ≤ y ∧ y < r + 1 / 2 - margin := by
  have ht' : unit * (t / unit) = t := mul_div_cancel₀ t hunit.ne'
  have hquarter : unit * signed positive (1 / (4 * unit)) = signed positive (1 / 4) := by
    have : unit * (1 / (4 * unit)) = 1 / 4 := by field_simp
    cases positive <;> simp only [signed_true, signed_false, mul_neg, this]
  have hy' : |unit * y - ((m : ℤ) + f + signed positive (1 / 4))| ≤ unit * noise := by
    rw [← hquarter, Int.cast_natCast, ← hz, ← mul_add, ← mul_sub, abs_mul, abs_of_pos hunit]
    exact mul_le_mul_of_nonneg_left hy hunit.le
  have hlo' := mul_lt_mul_of_pos_left hlo hunit
  have hhi' := mul_lt_mul_of_pos_left hhi hunit
  rw [mul_add, ht', hedge, hz] at hlo'
  rw [mul_sub, mul_add, ht', hedge, hz, hhalf] at hhi'
  obtain ⟨hbelow, habove⟩ := hsign.carried hf hf' ht edge (edge + half)
    (g := unit * margin) (by linarith) hlo' (by push_cast; exact hhi') hy'
  constructor
  · refine le_of_mul_le_mul_left ?_ hunit
    rwa [mul_add, hedge]
  · refine lt_of_mul_lt_mul_left ?_ hunit.le
    rw [mul_sub, mul_add, hedge, hhalf]
    exact_mod_cast habove

end

/-- The sign that is found for a word without digits below. -/
theorem Found.signUpTo (hfound : Found margin x positive) (hmargin : 0 ≤ margin) {word : BitVec w}
    (hx : gap x (fraction word) ≤ noise) : SignUpTo (noise + margin) (fraction word) positive := by
  obtain ⟨s, hs, hdist⟩ := exists_abs_sub_le hx
  obtain ⟨hbelow, habove⟩ := abs_le.1 hdist
  exact ⟨fun hlo hhi => hfound.eq_true hmargin hs (by linarith) (by linarith),
    fun hlo hhi => hfound.eq_false hmargin hs (by linarith) (by linarith)⟩

/-- The sign that is found for the word `x`, which is `word` plus a quarter of a digit unit with the
sign of the digits below, up to noise.  Errors below count for less by one digit. -/
theorem Found.signUpTo_of_carry {bits : ℕ} {carry : Bool} {word : BitVec w}
    (hfound : Found margin x positive) (hmargin : 0 ≤ margin)
    (hcarry : SignUpTo t (fraction (shiftLeft word bits)) carry) (hbits : 1 ≤ bits) (ht : 0 ≤ t)
    (hroom : 2 ^ bits * (noise + margin) + t < 1 / 4)
    (hx : gap x (fraction word + signed carry (1 / (4 * 2 ^ bits))) ≤ noise) :
    SignUpTo (t / 2 ^ bits) (fraction word) positive := by
  obtain ⟨m, hm⟩ := exists_shiftLeft word bits
  obtain ⟨s, hs, hdist⟩ := exists_abs_sub_le hx
  have hunit : (0 : ℝ) < 2 ^ bits := by positivity
  have hhalf : (2 : ℝ) ^ bits * (1 / 2) = (2 ^ (bits - 1) : ℕ) := by
    rw [← Nat.sub_add_cancel hbits, pow_succ, Nat.add_sub_cancel]
    push_cast
    ring
  have hnonneg := fraction_nonneg (shiftLeft word bits)
  have hlt := fraction_lt_one (shiftLeft word bits)
  constructor
  · intro hlo hhi
    obtain ⟨hbelow, habove⟩ := hcarry.carried_half hnonneg hlt ht 0 0 hunit hhalf (by simp) hm hroom
      hdist (by linarith) (by linarith)
    exact hfound.eq_true hmargin hs (by linarith) (by linarith)
  · intro hlo hhi
    obtain ⟨hbelow, habove⟩ := hcarry.carried_half hnonneg hlt ht (2 ^ (bits - 1) : ℕ) (1 / 2) hunit
      hhalf (by rw [hhalf]; rfl) hm hroom hdist (by linarith) (by linarith)
    exact hfound.eq_false hmargin hs (by linarith) (by linarith)

/-- The sign of a word is right when the word is farther than `t` from `0` and `1/2`. -/
theorem SignUpTo.of_gap (h : SignUpTo t (fraction x) positive) (hzero : t < gap x 0)
    (hhalf : t < gap x (1 / 2)) :
    (fraction x ∈ Set.Ioo 0 (1 / 2) → positive = true) ∧
      (fraction x ∈ Set.Ioo (1 / 2) 1 → positive = false) := by
  have hmiddle := gap_le x (1 / 2) 0
  rw [Int.cast_zero, sub_zero] at hmiddle
  constructor
  · rintro ⟨hlo, hhi⟩
    have hedge := gap_le x 0 0
    rw [Int.cast_zero, sub_zero, sub_zero, abs_of_pos hlo] at hedge
    rw [abs_of_neg (by linarith)] at hmiddle
    exact h.upper (by linarith) (by linarith)
  · rintro ⟨hlo, hhi⟩
    -- The edge of the lower half is `1`, which is `0` on the circle.
    have hedge := gap_le x 0 1
    rw [Int.cast_one, sub_zero, abs_of_neg (by linarith)] at hedge
    rw [abs_of_pos (by linarith)] at hmiddle
    exact h.lower (by linarith) (by linarith)

end CipherMonitor.Torus
