import Mathlib.Algebra.BigOperators.Field
import CipherMonitor.Bridge.Conversion
import CipherMonitor.Proofs.Ckks.Arithmetic
import CipherMonitor.Proofs.Glwe.Phase
import CipherMonitor.Proofs.Poly.Bound
import CipherMonitor.Proofs.Torus.Circle

/-!
# The reduction to the torus keeps the phase

A coefficient modulo `2 ^ logQ` is read as a word of 64 bits, off by less than one unit, and not at
all when the modulus has 64 bits at most.  Wraps of the modulus are turns of the circle, so the phase
of the words is the phase of the ciphertext, with one such error for the body and as many for the mask
as the secret has units.

* `rescaleToTorus_eq`, `abs_rescaleToTorus_sub_le` — the rounded magnitude.
* `torusError`, `gap_torusWord_le` — the error of one word.
* `gap_phase_torusPoly_le` — the error of a coefficient of the phase.
* `Ckks.Plaintext.IsConstant`, `Ckks.isConstant_of_encode` — plaintexts of a whole number.
* `SchemeBridge.exists_toCoarse`, `coarse_phase_of_factor` — multiplication, reduction and extraction in
  a row.
-/

namespace CipherMonitor

open Finset CipherMonitor.Poly Torus

/-! ### Words -/

/-- The units of 64 bits that a word may be off. -/
def torusError (logQ : ℕ) : ℕ := if logQ ≤ 64 then 0 else 1

theorem torusError_le_one (logQ : ℕ) : torusError logQ ≤ 1 := by
  unfold torusError
  split_ifs <;> decide

theorem saturate_of_mem {bound v : ℤ} (h0 : 0 ≤ v) (h1 : v ≤ 2 ^ 63) :
    saturate bound v = min v bound := if_neg (by omega)

@[simp] theorem size_torusPoly (p : Poly ℤ) (logQ : ℕ) : (torusPoly p logQ).size = p.size :=
  size_map (torusWord · logQ) p

/-- The integer of a number within some units of it. -/
theorem gap_ofInt_le_of_units {logQ : ℕ} {n x : ℤ} {e : ℝ} (h : |(n : ℝ) - x * 2 ^ 64 / 2 ^ logQ| ≤ e) :
    gap (BitVec.ofInt 64 n) (x / 2 ^ logQ) ≤ e / 2 ^ 64 := by
  have hscaled : (n : ℝ) / 2 ^ 64 - x / 2 ^ logQ = (n - x * 2 ^ 64 / 2 ^ logQ) / 2 ^ 64 := by
    rw [sub_div, mul_div_right_comm, mul_div_cancel_right₀ _ (by positivity)]
  refine (gap_ofInt_le 64 n _).trans ?_
  rw [hscaled, abs_div, abs_of_pos (by positivity : (0 : ℝ) < 2 ^ 64)]
  gcongr

section Words

variable {logQ : ℕ} (hlog : 1 ≤ logQ)

include hlog

/-- Nothing is rounded for a modulus of 64 bits at most. -/
theorem rescaleToTorus_eq (h : logQ ≤ 64) (x : ℤ) :
    rescaleToTorus x logQ = x * 2 ^ (64 - logQ) := by
  have hsplit : (2 : ℤ) ^ 64 = 2 ^ (64 - logQ) * 2 ^ logQ := by
    rw [← pow_add, Nat.sub_add_cancel h]
  have hhalf : (0 : ℤ) < 2 ^ (logQ - 1) := by positivity
  rw [rescaleToTorus, hsplit, ← mul_assoc, add_comm, Int.add_mul_ediv_right _ _ (by positivity),
    Int.ediv_eq_zero_of_lt hhalf.le (by rw [two_pow_eq_double hlog]; omega), zero_add]

/-- A larger modulus costs half a unit. -/
theorem abs_rescaleToTorus_sub_le (x : ℤ) :
    |(rescaleToTorus x logQ : ℝ) - x * 2 ^ 64 / 2 ^ logQ| ≤ (torusError logQ : ℝ) / 2 := by
  have hunit : (0 : ℝ) < 2 ^ logQ := by positivity
  rw [torusError]
  split_ifs with hsmall
  · have hunits : (2 : ℝ) ^ 64 = 2 ^ (64 - logQ) * 2 ^ logQ := by
      rw [← pow_add, Nat.sub_add_cancel hsmall]
    rw [rescaleToTorus_eq hlog hsmall, hunits, ← mul_assoc, mul_div_cancel_right₀ _ hunit.ne']
    simp
  · have hdouble : (2 : ℝ) ^ logQ = 2 * 2 ^ (logQ - 1) := by
      exact_mod_cast two_pow_eq_double hlog
    have hlo := Int.ediv_mul_le (x * 2 ^ 64 + 2 ^ (logQ - 1)) (b := 2 ^ logQ) (by positivity)
    have hhi := Int.lt_ediv_add_one_mul_self (x * 2 ^ 64 + 2 ^ (logQ - 1)) (b := 2 ^ logQ)
      (by positivity)
    rw [← rescaleToTorus] at hlo hhi
    generalize rescaleToTorus x logQ = v at hlo hhi ⊢
    have hlo' : (v : ℝ) * 2 ^ logQ ≤ x * 2 ^ 64 + 2 ^ (logQ - 1) := by exact_mod_cast hlo
    have hhi' : (x : ℝ) * 2 ^ 64 + 2 ^ (logQ - 1) < (v + 1) * 2 ^ logQ := by exact_mod_cast hhi
    have hscaled : ((v : ℝ) - x * 2 ^ 64 / 2 ^ logQ) * 2 ^ logQ = v * 2 ^ logQ - x * 2 ^ 64 := by
      rw [sub_mul, div_mul_cancel₀ _ hunit.ne']
    refine le_of_mul_le_mul_right ?_ hunit
    rw [← abs_of_pos hunit, ← abs_mul, abs_of_pos hunit, hscaled, abs_le]
    push_cast
    constructor <;> linarith

/-- Magnitudes up to half of the modulus become words up to half of the circle. -/
theorem rescaleToTorus_mem {x : ℤ} (h0 : 0 ≤ x) (h1 : x ≤ 2 ^ (logQ - 1)) :
    0 ≤ rescaleToTorus x logQ ∧ rescaleToTorus x logQ ≤ 2 ^ 63 := by
  have hhalf : (0 : ℤ) < 2 ^ (logQ - 1) := by positivity
  have hdouble := two_pow_eq_double hlog
  refine ⟨Int.ediv_nonneg (by positivity) (by positivity), ?_⟩
  rw [rescaleToTorus, ← Int.lt_add_one_iff, Int.ediv_lt_iff_lt_mul (by positivity), hdouble]
  nlinarith

/-- A positive coefficient that is stopped below half of the circle loses less than one unit, and
nothing is stopped when nothing is rounded. -/
theorem abs_min_rescaleToTorus_sub_le {x : ℤ} (h : x < 2 ^ (logQ - 1)) :
    |((min (rescaleToTorus x logQ) (2 ^ 63 - 1) : ℤ) : ℝ) - x * 2 ^ 64 / 2 ^ logQ| ≤
      (torusError logQ : ℝ) := by
  have hround := abs_rescaleToTorus_sub_le hlog x
  have hlimit : (x : ℝ) * 2 ^ 64 / 2 ^ logQ < 2 ^ 63 := by
    have hx : (x : ℝ) < 2 ^ (logQ - 1) := by exact_mod_cast h
    have hdouble : (2 : ℝ) ^ logQ = 2 * 2 ^ (logQ - 1) := by exact_mod_cast two_pow_eq_double hlog
    rw [div_lt_iff₀ (by positivity), hdouble]
    nlinarith
  rcases lt_or_ge (2 ^ 63 - 1) (rescaleToTorus x logQ) with hstop | hkeep
  · have hreached : (2 : ℝ) ^ 63 ≤ rescaleToTorus x logQ := by
      exact_mod_cast (by omega : (2 : ℤ) ^ 63 ≤ rescaleToTorus x logQ)
    obtain ⟨hlo, hhi⟩ := abs_le.1 hround
    rw [min_eq_right hstop.le, abs_le]
    rw [torusError] at hhi ⊢
    split_ifs at hhi ⊢ <;> push_cast at hhi ⊢ <;> constructor <;> linarith
  · rw [min_eq_left hkeep]
    exact hround.trans (half_le_self (Nat.cast_nonneg _))

/-- The word of a coefficient is at its place on the circle, up to a unit. -/
theorem gap_torusWord_le {c : ℤ} (h0 : 0 ≤ c) (h1 : c < 2 ^ logQ) :
    gap (torusWord c logQ) (c / 2 ^ logQ) ≤ (torusError logQ : ℝ) / 2 ^ 64 := by
  have hdouble := two_pow_eq_double hlog
  rw [torusWord]
  split_ifs with hupper
  · obtain ⟨hlo, hhi⟩ := rescaleToTorus_mem hlog (x := 2 ^ logQ - c) (by omega) (by omega)
    have hneg : c ≡ -(2 ^ logQ - c) [ZMOD 2 ^ logQ] := Int.modEq_iff_dvd.2 ⟨-1, by ring⟩
    rw [saturate_of_mem hlo hhi, min_eq_left hhi, gap_div_eq_of_modEq hneg]
    have hplace : (((-(2 ^ logQ - c) : ℤ) : ℝ) / 2 ^ logQ) = -(((2 ^ logQ - c : ℤ) : ℝ) / 2 ^ logQ) := by
      push_cast
      ring
    rw [hplace, gap_neg_neg]
    refine gap_ofInt_le_of_units ((abs_rescaleToTorus_sub_le hlog _).trans ?_)
    exact half_le_self (Nat.cast_nonneg _)
  · obtain ⟨hlo, hhi⟩ := rescaleToTorus_mem hlog h0 (by omega)
    rw [saturate_of_mem hlo hhi]
    exact gap_ofInt_le_of_units (abs_min_rescaleToTorus_sub_le hlog (by omega))

/-! ### Polynomials -/

variable {n : ℕ} {p : Poly ℤ}

theorem gap_torusPoly_le (hp : p.IsReduced n logQ) {k : ℕ} (hk : k < n) :
    gap ((torusPoly p logQ).coeff k) (p.coeff k / 2 ^ logQ) ≤ (torusError logQ : ℝ) / 2 ^ 64 := by
  have hword : (torusPoly p logQ).coeff k = torusWord (p.coeff k) logQ :=
    coeff_map (torusWord · logQ) (hp.size_eq.symm ▸ hk)
  obtain ⟨h0, h1⟩ := hp.range k hk
  rw [hword]
  exact gap_torusWord_le hlog h0 h1

/-- Shifting moves coefficients and changes signs, which both are the same for words. -/
theorem gap_mulXPow_torusPoly_le (hp : p.IsReduced n logQ) {j k : ℕ} (hj : j < n) (hk : k < n) :
    gap (((torusPoly p logQ).mulXPow j).coeff k) ((p.mulXPow j).coeff k / 2 ^ logQ) ≤
      (torusError logQ : ℝ) / 2 ^ 64 := by
  have hsize := hp.size_eq
  rw [coeff_mulXPow _ (by simpa [hsize]) (by simpa [hsize]), coeff_mulXPow p (by omega) (by omega),
    size_torusPoly, hsize]
  split_ifs with h
  · exact gap_torusPoly_le hlog hp (by omega)
  · rw [Int.cast_neg, neg_div, gap_neg_neg]
    exact gap_torusPoly_le hlog hp (by omega)

/-- Every unit of the vector adds the error of one word. -/
theorem gap_mulSmall_torusPoly_le (hp : p.IsReduced n logQ) {s : Array ℤ} (hs : s.size = n) {k : ℕ}
    (hk : k < n) :
    gap (((torusPoly p logQ).mulSmall s).coeff k) ((p.mulSmall s).coeff k / 2 ^ logQ) ≤
      magnitude s * ((torusError logQ : ℝ) / 2 ^ 64) := by
  have hsize := hp.size_eq
  have hplace : ((p.mulSmall s).coeff k : ℝ) / 2 ^ logQ =
      ∑ j ∈ range s.size, (s.getD j 0 : ℝ) * ((p.mulXPow j).coeff k / 2 ^ logQ) := by
    rw [coeff_mulSmall (by omega), Int.cast_sum, sum_div]
    refine sum_congr rfl fun j _ => ?_
    rw [Int.cast_mul, Int.cast_id, mul_div_assoc]
  have hmagnitude : (magnitude s : ℝ) = ∑ j ∈ range s.size, |(s.getD j 0 : ℝ)| := by
    have hsum : magnitude s = ∑ j ∈ range s.size, (s.getD j 0).natAbs := magnitude_eq_sum_range s
    push_cast [hsum, Nat.cast_natAbs]
    rfl
  rw [coeff_mulSmall (by simpa [hsize]), hplace, hmagnitude, sum_mul]
  refine (gap_sum_le _ _ _).trans (sum_le_sum fun j hj => ?_)
  rw [mem_range, hs] at hj
  refine (gap_scale_le _ _ _).trans ?_
  gcongr
  exact gap_mulXPow_torusPoly_le hlog hp hj hk

/-- The phase of the words is the phase of the polynomials. -/
theorem gap_phase_torusPoly_le {s : Ckks.Secret} {b a : Poly ℤ} (hb : b.IsReduced s.degree logQ)
    (ha : a.IsReduced s.degree logQ) {k : ℕ} (hk : k < s.degree) :
    gap (((⟨torusPoly b logQ, torusPoly a logQ⟩ : Glwe 64).phase ⟨s.coeffs⟩).coeff k)
        ((Ckks.Ciphertext.evalAt s logQ [b, a]).coeff k / 2 ^ logQ) ≤
      (1 + magnitude s.coeffs) * ((torusError logQ : ℝ) / 2 ^ 64) := by
  have hbs := hb.size_eq
  have has := ha.size_eq
  have hproduct : (a.mulSmallMod s.coeffs logQ).size = s.degree := by simp [mulSmallMod, has]
  -- Both reductions change the coefficient by multiples of the modulus.
  have hmod : (Ckks.Ciphertext.evalAt s logQ [b, a]).coeff k ≡
      b.coeff k + (a.mulSmall s.coeffs).coeff k [ZMOD 2 ^ logQ] := by
    have hsize : (b.add (a.mulSmallMod s.coeffs logQ)).size = s.degree := by simp [hbs, hproduct]
    rw [Ckks.Ciphertext.evalAt, Ckks.Ciphertext.evalAt, addMod, coeff_reduce (by omega),
      coeff_add (by omega) (by omega), mulSmallMod, coeff_reduce (by rw [size_mulSmall]; omega)]
    exact (Int.mod_modEq _ _).trans ((Int.mod_modEq _ _).add_left _)
  have hring : (⟨torusPoly b logQ, torusPoly a logQ⟩ : Glwe 64).OfDegree s.degree :=
    ⟨by rw [size_torusPoly, hbs], by rw [size_torusPoly, has]⟩
  rw [Glwe.coeff_phase hring hk, gap_div_eq_of_modEq hmod, Int.cast_add, add_div, add_mul, one_mul]
  exact (gap_add _ _ _ _).trans
    (add_le_add (gap_torusPoly_le hlog hb hk) (gap_mulSmall_torusPoly_le hlog ha rfl hk))

end Words

/-! ### Plaintexts of a whole number -/

namespace Ckks

/-- The plaintext of the number `f` in the constant coefficient, on a level. -/
structure Plaintext.IsConstant (n logQ level : ℕ) (f : ℤ) (t : Plaintext) : Prop where
  poly_eq : t.poly = (Poly.constant n f).reduce logQ
  level_eq : t.level = level

/-- A number that is encoded is rounded, and the plaintext is the one of the whole number. -/
theorem isConstant_of_encode {params : Parameters} {value scale : Float} {level : ℕ} {t : Plaintext}
    (h : encode params value level scale = .ok t) :
    ∃ logQ f, params.logQ level = .ok logQ ∧
      quantize value scale logQ (powTwo (logQ - 1)) = .ok f ∧
      t.IsConstant params.ringDegree logQ level f := by
  rw [encode, encodeAll] at h
  obtain ⟨levels, -, h⟩ := Outcome.bind_eq_ok_iff.1 h
  split_ifs at h
  · obtain ⟨top, -, h⟩ := Outcome.bind_eq_ok_iff.1 h
    cases h
  obtain ⟨-, -, h⟩ := Outcome.bind_eq_ok_iff.1 h
  obtain ⟨logQ, hlogQ, h⟩ := Outcome.bind_eq_ok_iff.1 h
  obtain ⟨-, -, h⟩ := Outcome.bind_eq_ok_iff.1 h
  split_ifs at h
  obtain ⟨-, -, h⟩ := Outcome.bind_eq_ok_iff.1 h
  obtain ⟨coeffs, hcoeffs, h⟩ := Outcome.bind_eq_ok_iff.1 h
  obtain rfl := Outcome.pure_eq_ok_iff.1 h
  obtain ⟨f, rest, hf, hrest, rfl⟩ := List.forall₂_cons_left_iff.1 (Outcome.mapM_eq_ok_iff.1 hcoeffs)
  obtain rfl := List.forall₂_nil_left_iff.1 hrest
  have hpoly : Poly.ofFn params.ringDegree (fun i => [f].getD i 0) =
      Poly.constant params.ringDegree f := by
    refine ext_coeff (by simp) fun i hi => ?_
    rw [size_ofFn] at hi
    rw [coeff_ofFn _ hi, coeff_constant hi]
    cases i <;> rfl
  exact ⟨logQ, f, hlogQ, hf, congrArg (Poly.reduce · logQ) hpoly, rfl⟩

variable {s : Secret} {logQ : ℕ} {c d : Ciphertext} {t : Plaintext} {f : ℤ}

theorem decrypt_eq_ok (hc : c.IsReduced s.degree logQ) :
    c.decrypt s = .ok { poly := c.phase s, level := c.level, logQ := c.logQ, scale := c.scale } := by
  obtain ⟨m, hm, -⟩ := Ciphertext.decryptsTo_value hc
  obtain ⟨-, -, hm'⟩ := Outcome.bind_eq_ok_iff.1 hm
  obtain ⟨-, -, hm'⟩ := Outcome.bind_eq_ok_iff.1 hm'
  rw [hm, ← Outcome.pure_eq_ok_iff.1 hm']

theorem isReduced_of_isConstant (ht : t.IsConstant s.degree logQ c.level f) :
    t.poly.IsReduced s.degree logQ := by
  rw [ht.poly_eq]
  exact isReduced_reduce (size_constant _ _)

/-- Multiplying by a whole number multiplies the phase. -/
theorem phase_multiplyPlain (hn : 0 < s.degree) (hc : c.IsReduced s.degree logQ)
    (ht : t.IsConstant s.degree logQ c.level f) (h : c.multiplyPlain t = .ok d) :
    d.phase s = (c.phase s).scaleMod f logQ := by
  obtain ⟨m, hm, hreduced, hvalue⟩ :=
    Ciphertext.decryptsTo_multiplyPlain hc (isReduced_of_isConstant ht) h
  obtain ⟨-, -, hm⟩ := Outcome.bind_eq_ok_iff.1 hm
  obtain ⟨-, -, hm⟩ := Outcome.bind_eq_ok_iff.1 hm
  obtain rfl := Outcome.pure_eq_ok_iff.1 hm
  obtain rfl := hc.logQ_eq
  have hphase : (c.phase s).IsReduced s.degree c.logQ :=
    Ciphertext.isReduced_evalAt hc.ne_nil hc.polys
  have hphaseValue : (c.phase s).residue s.degree c.logQ = c.value s c.logQ :=
    Ciphertext.residue_evalAt hc.ne_nil hc.polys
  refine hreduced.ext (isReduced_reduce ((size_scale _ _).trans hphase.size_eq)) ?_
  rw [hvalue, residue_scaleMod, hphaseValue, ht.poly_eq, residue_reduce le_rfl,
    residue_constant hn]

/-- A product of two polynomials with a plaintext on its level. -/
theorem exists_multiplyPlain (hc : c.IsReduced s.degree logQ) (hsize : c.size = 2)
    (ht : t.IsConstant s.degree logQ c.level f) :
    ∃ d b a, c.multiplyPlain t = .ok d ∧ d.polys = [b, a] ∧ d.logQ = logQ ∧
      b.IsReduced s.degree logQ ∧ a.IsReduced s.degree logQ := by
  have hplain := isReduced_of_isConstant ht
  obtain ⟨b, a, hpolys⟩ : ∃ b a, c.polys = [b, a] := List.length_eq_two.1 hsize
  have hmem := hc.polys
  simp only [hpolys, List.forall_mem_cons] at hmem
  obtain ⟨hb, ha, -⟩ := hmem
  have hdegree : c.degree = s.degree := by
    rw [Ciphertext.degree, hpolys]
    exact hb.size_eq
  refine ⟨{ c with
      polys := c.polys.map fun p => t.poly.mulMod p c.logQ
      scale := c.scale * t.scale }, t.poly.mulMod b logQ, t.poly.mulMod a logQ, ?_, ?_, hc.logQ_eq,
    Ciphertext.isReduced_mulMod hplain hb, Ciphertext.isReduced_mulMod hplain ha⟩
  · rw [Ciphertext.multiplyPlain, if_neg (not_not_intro ht.level_eq.symm),
      require_of (Or.inr (hplain.size_eq.trans hdegree.symm))]
    rfl
  · rw [hpolys, hc.logQ_eq]
    rfl

end Ckks

/-! ### The front end of the bridge -/

/-- Off by whole units, and not at all for a modulus of 64 bits at most. -/
theorem toInt_eq_of_gap {logQ units : ℕ} {x : ℤ} {y : BitVec 64} (hlog : 1 ≤ logQ) (hsmall : logQ ≤ 64)
    (hlo : -2 ^ (logQ - 1) ≤ x) (hhi : x < 2 ^ (logQ - 1))
    (h : gap y (x / 2 ^ logQ) ≤ units * ((torusError logQ : ℝ) / 2 ^ 64)) :
    y.toInt = x * 2 ^ (64 - logQ) := by
  have hplace : (x : ℝ) / 2 ^ logQ = ((x * 2 ^ (64 - logQ) : ℤ) : ℝ) / 2 ^ 64 := by
    have hunits : (2 : ℝ) ^ 64 = 2 ^ (64 - logQ) * 2 ^ logQ := by
      rw [← pow_add, Nat.sub_add_cancel hsmall]
    rw [hunits]
    push_cast
    field_simp
  have hzero : gap y ((x * 2 ^ (64 - logQ) : ℤ) / 2 ^ 64) = 0 := by
    refine le_antisymm ?_ (gap_nonneg _ _)
    rwa [hplace, torusError, if_pos hsmall, Nat.cast_zero, zero_div, mul_zero] at h
  have hhalf : (2 : ℤ) ^ (logQ - 1) * 2 ^ (64 - logQ) = 2 ^ 63 := by
    rw [← pow_add]
    congr 1
    omega
  have hunit : (0 : ℤ) < 2 ^ (64 - logQ) := by positivity
  rw [eq_ofInt_of_gap_eq_zero hzero, BitVec.toInt_ofInt]
  exact Int.bmod_eq_of_le (by push_cast; nlinarith) (by push_cast; nlinarith)

/-- A number farther than the error from zero and from half of the circle keeps its sign. -/
theorem sign_eq_of_gap {logQ : ℕ} {x : ℤ} {y : BitVec 64} {units : ℝ} (hunits : 0 ≤ units)
    (h : 2 ^ 64 * gap y (x / 2 ^ logQ) ≤ units) (hlo : units < |(x : ℝ)| * 2 ^ 64 / 2 ^ logQ)
    (hhi : |(x : ℝ)| * 2 ^ 64 / 2 ^ logQ < 2 ^ 63 - units) : y.toInt.sign = x.sign := by
  have hmodulus : (0 : ℝ) < 2 ^ logQ := by positivity
  have hplace : |(x : ℝ) / 2 ^ logQ| * 2 ^ 64 = |(x : ℝ)| * 2 ^ 64 / 2 ^ logQ := by
    rw [abs_div, abs_of_pos hmodulus, div_mul_eq_mul_div]
  have hgap : gap y (x / 2 ^ logQ) ≤ units / 2 ^ 64 := by linarith
  obtain ⟨hpos, hneg⟩ := toInt_sign_of_gap hgap (by linarith) (by linarith)
  rcases lt_trichotomy x 0 with hx | rfl | hx
  · rw [Int.sign_eq_neg_one_of_neg hx, Int.sign_eq_neg_one_of_neg]
    exact hneg (div_neg_of_neg_of_pos (by exact_mod_cast hx) hmodulus)
  · simp only [Int.cast_zero, abs_zero, zero_mul, zero_div] at hlo
    exact absurd hlo hunits.not_gt
  · rw [Int.sign_eq_one_of_pos hx, Int.sign_eq_one_of_pos]
    exact hpos (div_pos (by exact_mod_cast hx) hmodulus)

section

open Ckks

variable {s : Ckks.Secret} {logQ : ℕ} {c : Ckks.Ciphertext} {t : Ckks.Plaintext} {f : ℤ}

/-- Multiplication by a whole number, reduction to the torus and extraction succeed, and the extracted
phase is that of the constant coefficient up to the error of its words. -/
theorem exists_coarse (hlog : 1 ≤ logQ) (hn : 0 < s.degree) (hc : c.IsReduced s.degree logQ)
    (hsize : c.size = 2) (ht : t.IsConstant s.degree logQ c.level f) :
    ∃ m product ring coarse y, c.decrypt s = .ok m ∧ c.multiplyPlain t = .ok product ∧
      reduceToTorus product = .ok ring ∧ Glwe.Checked.sampleExtract ring 0 = .ok coarse ∧
      Lwe.Checked.phase s.toLwe coarse = .ok y ∧ m.poly.IsReduced s.degree logQ ∧
      gap y ((m.poly.scaleMod f logQ).centered 0 logQ / 2 ^ logQ) ≤
        (1 + magnitude s.coeffs : ℕ) * ((torusError logQ : ℝ) / 2 ^ 64) := by
  obtain ⟨product, b, a, hproduct, hpolys, hlogQ, hb, ha⟩ := exists_multiplyPlain hc hsize ht
  set ring : Glwe 64 := ⟨torusPoly b logQ, torusPoly a logQ⟩
  have hring : ring.OfDegree s.degree :=
    ⟨by rw [size_torusPoly, hb.size_eq], by rw [size_torusPoly, ha.size_eq]⟩
  have hreduce : reduceToTorus product = .ok ring := by
    rw [reduceToTorus, hpolys, hlogQ]
    simp only [require_of (Or.inl (by omega : 0 < logQ))]
    rfl
  have hextract : Glwe.Checked.sampleExtract ring 0 = .ok (ring.sampleExtract 0) := by
    rw [Glwe.Checked.sampleExtract, Glwe.degree, hring.1, hring.2, require_of hn, require_of le_rfl]
    rfl
  have hphase : Lwe.Checked.phase s.toLwe (ring.sampleExtract 0) =
      .ok ((ring.phase ⟨s.coeffs⟩).coeff 0) :=
    Lwe.Checked.phase_eq_ok_iff.2 ⟨Glwe.ofDimension_sampleExtract hring,
      Glwe.phase_sampleExtract (s := ⟨s.coeffs⟩) rfl hring hn⟩
  have hreduced : (c.phase s).IsReduced s.degree logQ := by
    obtain rfl := hc.logQ_eq
    exact Ciphertext.isReduced_evalAt hc.ne_nil hc.polys
  refine ⟨_, product, ring, _, _, decrypt_eq_ok hc, hproduct, hreduce, hextract, hphase, hreduced, ?_⟩
  -- Centering the coefficient of the product takes away a whole modulus at most.
  have hcoeff : (Ciphertext.evalAt s logQ [b, a]).coeff 0 ≡
      ((c.phase s).scaleMod f logQ).centered 0 logQ [ZMOD 2 ^ logQ] := by
    rw [← phase_multiplyPlain hn hc ht hproduct, Ciphertext.phase, hpolys, hlogQ, Poly.centered,
      center]
    split_ifs
    · exact Int.modEq_iff_dvd.2 ⟨-1, by ring⟩
    · rfl
  rw [← gap_div_eq_of_modEq hcoeff]
  push_cast
  exact gap_phase_torusPoly_le hlog hb ha hn

/-- A bridge that can encode its amplification factor has a coarse ciphertext of the amplified value. -/
theorem SchemeBridge.exists_toCoarse {b : SchemeBridge} {reference : Float} (hlog : 1 ≤ logQ)
    (hn : 0 < s.degree) (hc : c.IsReduced s.degree logQ) (hsize : c.size = 2)
    (hdegree : b.ckks.ringDegree = s.degree) (hmodulus : b.ckks.logQ c.level = .ok logQ)
    (ht : encode b.ckks (amplificationFactor c.logQ c.scale reference) c.level 1.0 = .ok t) :
    ∃ f m coarse y, quantize (amplificationFactor c.logQ c.scale reference) 1.0 logQ
        (powTwo (logQ - 1)) = .ok f ∧
      c.decrypt s = .ok m ∧ b.toCoarse c reference = .ok coarse ∧
      Lwe.Checked.phase s.toLwe coarse = .ok y ∧
      gap y ((m.poly.scaleMod f logQ).centered 0 logQ / 2 ^ logQ) ≤
        (1 + magnitude s.coeffs : ℕ) * ((torusError logQ : ℝ) / 2 ^ 64) := by
  obtain ⟨level, f, hlevel, hf, hconstant⟩ := isConstant_of_encode ht
  obtain rfl : level = logQ := Except.ok.inj (hlevel.symm.trans hmodulus)
  rw [hdegree] at hconstant
  obtain ⟨m, product, ring, coarse, y, hm, hproduct, hring, hcoarse, hy, -, hgap⟩ :=
    exists_coarse hlog hn hc hsize hconstant
  refine ⟨f, m, coarse, y, hf, hm, ?_, hy, hgap⟩
  rw [toCoarse, amplify, ht, Outcome.ok_bind, hproduct, Outcome.ok_bind, hring, Outcome.ok_bind,
    hcoarse]

/-- Multiplying a ciphertext of two polynomials by a whole number, reading it on the torus and
extracting the constant coefficient gives the centered coefficient of the product, within one unit of
64 bits for the body and one for each unit of the secret. -/
theorem coarse_phase_of_factor (hlog : 1 ≤ logQ) (hn : 0 < s.degree)
    (hc : c.IsReduced s.degree logQ) (hsize : c.size = 2)
    (ht : t.IsConstant s.degree logQ c.level f) :
    ∃ m product ring coarse y, c.decrypt s = .ok m ∧ c.multiplyPlain t = .ok product ∧
      reduceToTorus product = .ok ring ∧ Glwe.Checked.sampleExtract ring 0 = .ok coarse ∧
      Lwe.Checked.phase s.toLwe coarse = .ok y ∧
      let x : ℤ := (m.poly.scaleMod f logQ).centered 0 logQ
      let bound : ℝ := 1 + magnitude s.coeffs
      2 ^ 64 * gap y (x / 2 ^ logQ) ≤ bound ∧
      (logQ ≤ 64 → y.toInt = x * 2 ^ (64 - logQ)) ∧
      (bound < |(x : ℝ)| * 2 ^ 64 / 2 ^ logQ → |(x : ℝ)| * 2 ^ 64 / 2 ^ logQ < 2 ^ 63 - bound →
        y.toInt.sign = x.sign) := by
  obtain ⟨m, product, ring, coarse, y, hm, hproduct, hring, hcoarse, hy, hreduced, hgap⟩ :=
    exists_coarse hlog hn hc hsize ht
  refine ⟨m, product, ring, coarse, y, hm, hproduct, hring, hcoarse, hy, ?_⟩
  intro x bound
  have hscaled : (m.poly.scaleMod f logQ).IsReduced s.degree logQ :=
    isReduced_reduce ((size_scale f m.poly).trans hreduced.size_eq)
  obtain ⟨h0, h1⟩ := hscaled.range 0 hn
  obtain ⟨hlo, hhi⟩ := center_mem hlog h0 h1
  have hbound : 2 ^ 64 * gap y (x / 2 ^ logQ) ≤ bound := by
    have herror : (torusError logQ : ℝ) ≤ 1 := by exact_mod_cast torusError_le_one logQ
    have hcount : (0 : ℝ) ≤ bound := by positivity
    push_cast at hgap
    nlinarith
  exact ⟨hbound, fun hsmall => toInt_eq_of_gap hlog hsmall hlo hhi hgap,
    sign_eq_of_gap (by positivity) hbound⟩

/-- Three times a value modulo sixteen, which wraps around to a negative one. -/
theorem coarse_phase_of_three :
    let s : Ckks.Secret := ⟨#[1, -1]⟩
    let t : Plaintext := { poly := ⟨#[3, 0]⟩, level := 1, logQ := 4, scale := 1.0 }
    Ciphertext.freshSample.IsReduced 2 4 ∧ t.IsConstant 2 4 1 3 ∧
    ∃ product ring coarse y, Ciphertext.freshSample.multiplyPlain t = .ok product ∧
      reduceToTorus product = .ok ring ∧ Glwe.Checked.sampleExtract ring 0 = .ok coarse ∧
      Lwe.Checked.phase s.toLwe coarse = .ok y ∧ y.toInt = -6 * 2 ^ 60 := by
  have hc : Ciphertext.freshSample.IsReduced 2 4 := by decide
  have ht : Plaintext.IsConstant 2 4 1 3
      { poly := ⟨#[3, 0]⟩, level := 1, logQ := 4, scale := 1.0 } := ⟨by decide +kernel, rfl⟩
  obtain ⟨m, product, ring, coarse, y, hm, hproduct, hring, hcoarse, hy, -, hexact, -⟩ :=
    coarse_phase_of_factor (s := ⟨#[1, -1]⟩) (by decide) (by decide) hc rfl ht
  rw [decrypt_eq_ok (s := ⟨#[1, -1]⟩) hc] at hm
  cases hm
  have hx : ((Ciphertext.freshSample.phase ⟨#[1, -1]⟩).scaleMod 3 4).centered 0 4 = -6 := by
    decide +kernel
  rw [hx] at hexact
  exact ⟨hc, ht, product, ring, coarse, y, hproduct, hring, hcoarse, hy, hexact (by decide)⟩

end

end CipherMonitor
