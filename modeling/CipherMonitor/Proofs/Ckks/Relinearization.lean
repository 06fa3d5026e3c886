import CipherMonitor.Ckks.Relinearization
import CipherMonitor.Proofs.Ckks.Levels
import CipherMonitor.Proofs.Ckks.Phase
import CipherMonitor.Proofs.Poly.Bound

/-!
# Relinearization keeps the phase

The third polynomial of a ciphertext is split into digits of `p` bits, and the sum of the digits times
the rows of the key has `2 ^ p` times the phase that is replaced, up to the noise of the rows.  The
division by `2 ^ p` rounds both polynomials of the sum.

* `Ckks.sum_digits` — the digits make up the coefficient.
* `Ckks.IsRow`, `Ckks.RelinearizationKey.IsFor` — keys of the shape that key generation gives them.
* `Ckks.RelinearizationKey.phase_accumulate` — the phase of the sum of digits times rows.
* `Ckks.Ciphertext.exists_roundingError` — what rounding two polynomials adds to their phase.
* `Ckks.Ciphertext.relinearize_phase` — relinearization succeeds on every level, with the phase of
  the ciphertext up to a bounded error.
-/

namespace CipherMonitor

open CipherMonitor.Poly

/-! ### Rounded division -/

/-- The quotients of rounded division, not reduced. -/
def Poly.rounded (p : Poly ℤ) (bits : ℕ) : Poly ℤ := p.map (divRound · bits)

/-- What rounded division adds to the dividend. -/
def Poly.roundingError (p : Poly ℤ) (bits : ℕ) : Poly ℤ :=
  p.map fun x => 2 ^ bits * divRound x bits - x

@[simp] theorem Poly.size_rounded (p : Poly ℤ) (bits : ℕ) : (p.rounded bits).size = p.size :=
  size_map _ p

@[simp] theorem Poly.size_roundingError (p : Poly ℤ) (bits : ℕ) :
    (p.roundingError bits).size = p.size := size_map _ p

theorem abs_roundingError_le (x : ℤ) {bits : ℕ} (h : 0 < bits) :
    |2 ^ bits * divRound x bits - x| ≤ (2 ^ (bits - 1) : ℕ) := by
  have hpow : (2 : ℤ) ^ bits = 2 * 2 ^ (bits - 1) := by
    rw [← pow_succ', Nat.sub_add_cancel h]
  have hdiv := Int.mul_ediv_add_emod (x + 2 ^ (bits - 1)) (2 ^ bits)
  have hpos : (0 : ℤ) < 2 ^ bits := by positivity
  have hlo := Int.emod_nonneg (x + 2 ^ (bits - 1)) hpos.ne'
  have hhi := Int.emod_lt_of_pos (x + 2 ^ (bits - 1)) hpos
  rw [divRound, if_neg h.ne', abs_le]
  push_cast
  constructor <;> linarith

theorem boundedBy_roundingError (p : Poly ℤ) {bits : ℕ} (h : 0 < bits) :
    (p.roundingError bits).BoundedBy (2 ^ (bits - 1)) :=
  boundedBy_of_lt fun i hi => by
    rw [size_roundingError] at hi
    rw [roundingError, coeff_map _ hi]
    exact abs_roundingError_le _ h

theorem residue_rounded {n logQ : ℕ} {p : Poly ℤ} (hp : p.size = n) (bits : ℕ) :
    2 ^ bits * (p.rounded bits).residue n logQ =
      p.residue n logQ + (p.roundingError bits).residue n logQ := by
  have hscale : ((2 ^ bits : ℤ) : NegacyclicRing n logQ) = 2 ^ bits := by push_cast; rfl
  rw [← hscale, ← residue_scale, ← residue_add hp (by simpa using hp)]
  congr 1
  refine ext_coeff (by simp) fun i hi => ?_
  have hi' : i < p.size := by simpa using hi
  rw [coeff_scale _ (by simpa using hi'), coeff_add hi' (by simpa using hi'), rounded,
    roundingError, coeff_map _ hi', coeff_map _ hi']
  ring

theorem divRoundMod_eq_reduce (p : Poly ℤ) {bits logQ : ℕ} (h : 0 < bits) :
    p.divRoundMod bits logQ = (p.rounded bits).reduce logQ := by
  rw [divRoundMod, if_neg h.ne', rounded, reduce, Poly.map, Poly.map, Poly.map, Array.map_map]
  rfl

namespace Ckks

/-! ### Digits -/

theorem emod_mul_eq (x : ℤ) {a : ℤ} (ha : 0 ≤ a) (b : ℤ) :
    x % (a * b) = x % a + a * (x / a % b) := by
  have h1 := Int.mul_ediv_add_emod x (a * b)
  have h2 := Int.mul_ediv_add_emod x a
  have h3 := Int.mul_ediv_add_emod (x / a) b
  rw [← Int.ediv_ediv_of_nonneg ha] at h1
  linear_combination h1 - h2 - a * h3

/-- The digits of `p` bits, each with its weight, are the low bits of the number. -/
theorem sum_digits (p : ℕ) (x : ℤ) (digits : ℕ) :
    ∑ i ∈ Finset.range digits, 2 ^ (p * i) * keepBits (x / 2 ^ (p * i)) p =
      x % 2 ^ (p * digits) := by
  induction digits with
  | zero => simp
  | succ digits ih =>
    rw [Finset.sum_range_succ, ih, Nat.mul_succ, pow_add, emod_mul_eq x (by positivity)]
    rfl

/-- Digits of `bits` bits cover the total. -/
theorem le_mul_digitCount {total bits : ℕ} (h : 0 < bits) :
    total ≤ bits * digitCount total bits := by
  have := Nat.div_add_mod (total + bits - 1) bits
  have := Nat.mod_lt (total + bits - 1) h
  rw [digitCount]
  omega

theorem digitCount_mono {total total' : ℕ} (h : total ≤ total') (bits : ℕ) :
    digitCount total bits ≤ digitCount total' bits := Nat.div_le_div_right (by omega)

namespace RelinearizationKey

variable {k : RelinearizationKey} {n logExt : ℕ}

@[simp] theorem size_digit (c : Poly ℤ) (i : ℕ) : (k.digit c i).size = c.size := size_map _ c

theorem coeff_digit {c : Poly ℤ} {j : ℕ} (h : j < c.size) (i : ℕ) :
    (k.digit c i).coeff j = keepBits (c.coeff j / 2 ^ (k.logSpecial * i)) k.logSpecial :=
  coeff_map _ h

theorem boundedBy_digit (c : Poly ℤ) (i : ℕ) : (k.digit c i).BoundedBy (2 ^ k.logSpecial - 1) :=
  boundedBy_of_lt fun j hj => by
    rw [size_digit] at hj
    have hpos : (0 : ℤ) < 2 ^ k.logSpecial := by positivity
    have hlo := Int.emod_nonneg (c.coeff j / 2 ^ (k.logSpecial * i)) hpos.ne'
    have hhi := Int.emod_lt_of_pos (c.coeff j / 2 ^ (k.logSpecial * i)) hpos
    rw [coeff_digit hj, keepBits, abs_of_nonneg hlo, Nat.cast_sub Nat.one_le_two_pow]
    push_cast
    omega

/-- The digits with their weights represent the polynomial. -/
theorem residue_digits {c : Poly ℤ} {logQ : ℕ} (hc : c.IsReduced n logQ) {digits : ℕ}
    (h : logQ ≤ k.logSpecial * digits) :
    ∑ i ∈ Finset.range digits, 2 ^ (k.logSpecial * i) * (k.digit c i).residue n logExt =
      c.residue n logExt := by
  -- As integers the digits make up each coefficient exactly, so the modulus does not matter.
  have hcoeff : ∀ j < n, ∑ i ∈ Finset.range digits, 2 ^ (k.logSpecial * i) *
      (k.digit c i).coeff j = c.coeff j := by
    intro j hj
    obtain ⟨hlo, hhi⟩ := hc.range j hj
    calc ∑ i ∈ Finset.range digits, 2 ^ (k.logSpecial * i) * (k.digit c i).coeff j
        = ∑ i ∈ Finset.range digits, 2 ^ (k.logSpecial * i) *
            keepBits (c.coeff j / 2 ^ (k.logSpecial * i)) k.logSpecial :=
          Finset.sum_congr rfl fun i _ => by rw [coeff_digit (hc.size_eq ▸ hj)]
      _ = c.coeff j % 2 ^ (k.logSpecial * digits) := sum_digits _ _ _
      _ = c.coeff j := Int.emod_eq_of_lt hlo
          (hhi.trans_le (pow_le_pow_right₀ (by norm_num) h))
  simp only [residue, value, size_digit, hc.size_eq, Finset.mul_sum]
  rw [Finset.sum_comm]
  refine Finset.sum_congr rfl fun j hj => ?_
  rw [← hcoeff j (Finset.mem_range.1 hj), map_sum, Finset.sum_mul]
  refine Finset.sum_congr rfl fun i _ => ?_
  simp only [eq_intCast]
  push_cast
  ring

end RelinearizationKey

/-! ### Rows -/

/-- The phase of a body and a mask. -/
noncomputable def pairPhase (s : Secret) (logQ : ℕ) (pair : Poly ℤ × Poly ℤ) :
    NegacyclicRing s.degree logQ :=
  pair.1.residue s.degree logQ + pair.2.residue s.degree logQ * s.residue logQ

/-- A row of phase `2 ^ shift * s ^ 2` modulo `2 ^ logQ`, up to noise of at most `B`. -/
structure IsRow (s : Secret) (logQ shift B : ℕ) (row : Poly ℤ × Poly ℤ) : Prop where
  body_size : row.1.size = s.degree
  mask_size : row.2.size = s.degree
  phase : ∃ e : Poly ℤ, e.size = s.degree ∧ e.BoundedBy B ∧
    pairPhase s logQ row = 2 ^ shift * s.residue logQ ^ 2 + e.residue s.degree logQ

/-- The key has the shape that generation gives it: one row for each digit of the largest modulus. -/
structure RelinearizationKey.IsFor (p : Parameters) (s : Secret) (B : ℕ) (k : RelinearizationKey) :
    Prop where
  logSpecial : p.logSpecial = .ok k.logSpecial
  logPQ : p.logPQ = .ok k.logPQ
  count : ∃ top logTop, p.topLevel = .ok top ∧ p.logQ top = .ok logTop ∧
    k.rows.length = digitCount logTop k.logSpecial
  rows : ∀ i row, k.rows[i]? = some row → IsRow s k.logPQ (k.logSpecial * (i + 1)) B row

section

variable {s : Secret} {logQ logPQ shift B : ℕ} {row : Poly ℤ × Poly ℤ}

theorem Secret.size_squared (s : Secret) : s.squared.size = s.degree := size_mul rfl

theorem Secret.residue_squared (s : Secret) (logQ : ℕ) :
    s.squared.residue s.degree logQ = s.residue logQ ^ 2 := by
  have hs : s.toPoly.size = s.degree := rfl
  rw [squared, residue_mul hs hs, sq, residue]

theorem Secret.size_mul_toPoly {q : Poly ℤ} (hq : q.size = s.degree) :
    (q.mul s.toPoly).size = s.degree := by
  have hs : q.size = s.toPoly.size := hq
  rw [size_mul hs, hq]

/-- The phase of a row, as the residue of an integer polynomial. -/
theorem residue_add_mul_secret (hbody : row.1.size = s.degree) (hmask : row.2.size = s.degree)
    (logQ : ℕ) :
    (row.1.add (row.2.mul s.toPoly)).residue s.degree logQ = pairPhase s logQ row := by
  rw [residue_add hbody (Secret.size_mul_toPoly hmask), residue_mul hmask rfl]
  rfl

/-- What a row encrypts, as the residue of an integer polynomial. -/
theorem residue_scale_squared_add {e : Poly ℤ} (he : e.size = s.degree) (shift logQ : ℕ) :
    ((s.squared.scale (2 ^ shift)).add e).residue s.degree logQ =
      2 ^ shift * s.residue logQ ^ 2 + e.residue s.degree logQ := by
  rw [residue_add (by rw [size_scale, s.size_squared]) he, residue_scale, s.residue_squared]
  push_cast
  rfl

/-- A row keeps its phase modulo a smaller power of two. -/
theorem IsRow.of_le (h : IsRow s logPQ shift B row) (hq : logQ ≤ logPQ) :
    IsRow s logQ shift B row := by
  obtain ⟨hbody, hmask, e, he, hB, hphase⟩ := h
  refine ⟨hbody, hmask, e, he, hB, ?_⟩
  rw [← residue_add_mul_secret hbody hmask, ← residue_scale_squared_add he] at hphase ⊢
  exact residue_eq_of_le (by simp [Secret.size_mul_toPoly hmask, hbody])
    (by simp [s.size_squared, he]) hq hphase

theorem isRow_of_modEq {e : Poly ℤ} (hbody : row.1.size = s.degree) (hmask : row.2.size = s.degree)
    (he : e.size = s.degree) (hB : ∀ i < e.size, |e.coeff i| ≤ B)
    (h : ∀ i < s.degree, (row.1.add (row.2.mul s.toPoly)).coeff i ≡
      ((s.squared.scale (2 ^ shift)).add e).coeff i [ZMOD 2 ^ logQ]) :
    IsRow s logQ shift B row := by
  refine ⟨hbody, hmask, e, he, boundedBy_of_lt hB, ?_⟩
  rw [← residue_add_mul_secret hbody hmask, ← residue_scale_squared_add he]
  exact (residue_eq_iff (by simp [Secret.size_mul_toPoly hmask, hbody])
    (by simp [s.size_squared, he])).2 h

end

namespace RelinearizationKey

variable {k : RelinearizationKey} {s : Secret} {logQ logExt B : ℕ} {c : Poly ℤ}

/-- What `accumulate` adds for digit `x.1` and the row `x.2`. -/
def accumulateStep (k : RelinearizationKey) (c : Poly ℤ) (logExt : ℕ) (sum : Poly ℤ × Poly ℤ)
    (x : ℕ × Poly ℤ × Poly ℤ) : Poly ℤ × Poly ℤ :=
  (sum.1.addMod ((k.digit c x.1).mulMod (x.2.1.reduce logExt) logExt) logExt,
    sum.2.addMod ((k.digit c x.1).mulMod (x.2.2.reduce logExt) logExt) logExt)

theorem accumulate_eq (c : Poly ℤ) (digits logExt : ℕ) :
    k.accumulate c digits logExt = ((List.range digits).zip k.rows).foldl
      (k.accumulateStep c logExt) (Poly.zero c.size, Poly.zero c.size) := rfl

section

variable {sum : Poly ℤ × Poly ℤ} {x : ℕ × Poly ℤ × Poly ℤ} {shift : ℕ}

theorem size_digit_mulMod {q : Poly ℤ} (hc : c.size = s.degree) (hq : q.size = s.degree) (i : ℕ) :
    ((k.digit c i).mulMod (q.reduce logExt) logExt).size = s.degree := by
  rw [mulMod, size_reduce, size_mul (by simp [hc, hq]), size_digit, hc]

theorem residue_digit_mulMod {q : Poly ℤ} (hc : c.size = s.degree) (hq : q.size = s.degree)
    (i : ℕ) : ((k.digit c i).mulMod (q.reduce logExt) logExt).residue s.degree logExt =
      (k.digit c i).residue s.degree logExt * q.residue s.degree logExt := by
  rw [residue_mulMod (by simp [hc]) (by simp [hq]), residue_reduce le_rfl]

theorem size_accumulateStep (hc : c.size = s.degree) (hx : IsRow s logExt shift B x.2)
    (hsum : sum.1.size = s.degree ∧ sum.2.size = s.degree) :
    (k.accumulateStep c logExt sum x).1.size = s.degree ∧
      (k.accumulateStep c logExt sum x).2.size = s.degree := by
  rw [accumulateStep, size_addMod, size_addMod, size_digit_mulMod hc hx.body_size,
    size_digit_mulMod hc hx.mask_size, hsum.1, hsum.2, min_self]
  exact ⟨rfl, rfl⟩

/-- One step adds the digit times the phase of the row. -/
theorem pairPhase_accumulateStep (hc : c.size = s.degree) (hx : IsRow s logExt shift B x.2)
    (hsum : sum.1.size = s.degree ∧ sum.2.size = s.degree) :
    pairPhase s logExt (k.accumulateStep c logExt sum x) =
      pairPhase s logExt sum + (k.digit c x.1).residue s.degree logExt * pairPhase s logExt x.2 := by
  rw [pairPhase, accumulateStep, residue_addMod hsum.1 (size_digit_mulMod hc hx.body_size _),
    residue_addMod hsum.2 (size_digit_mulMod hc hx.mask_size _),
    residue_digit_mulMod hc hx.body_size, residue_digit_mulMod hc hx.mask_size, pairPhase, pairPhase]
  ring

end

/-- The bound of the noise that one row contributes. -/
def noiseBound (k : RelinearizationKey) (n B : ℕ) : ℕ := n * ((2 ^ k.logSpecial - 1) * B)

/-- Adding up digits times rows: the phases of the rows without noise add up, and so does the
noise. -/
theorem pairPhase_foldl (hc : c.size = s.degree) (l : List (ℕ × Poly ℤ × Poly ℤ))
    (hl : ∀ x ∈ l, IsRow s logExt (k.logSpecial * (x.1 + 1)) B x.2) {start : Poly ℤ × Poly ℤ}
    (hstart : start.1.size = s.degree ∧ start.2.size = s.degree) :
    (l.foldl (k.accumulateStep c logExt) start).1.size = s.degree ∧
    (l.foldl (k.accumulateStep c logExt) start).2.size = s.degree ∧
    ∃ e : Poly ℤ, e.size = s.degree ∧ e.BoundedBy (l.length * k.noiseBound s.degree B) ∧
      pairPhase s logExt (l.foldl (k.accumulateStep c logExt) start) =
        pairPhase s logExt start +
          (l.map fun x => 2 ^ (k.logSpecial * (x.1 + 1)) *
            (k.digit c x.1).residue s.degree logExt).sum * s.residue logExt ^ 2 +
          e.residue s.degree logExt := by
  -- The induction goes along the rows; `start` is the sum of the rows before them.
  induction l generalizing start with
  | nil =>
    refine ⟨hstart.1, hstart.2, Poly.zero s.degree, size_zero _, ?_, by simp⟩
    simpa using boundedBy_zero s.degree
  | cons x l ih =>
    have hx := hl x (List.mem_cons_self ..)
    obtain ⟨e, he, heB, hphase⟩ := hx.phase
    obtain ⟨hbody, hmask, e', he', heB', hphase'⟩ :=
      ih (fun y hy => hl y (List.mem_cons_of_mem _ hy)) (size_accumulateStep (k := k) hc hx hstart)
    have hdigit : (k.digit c x.1).size = e.size := by rw [size_digit, hc, he]
    have hmul : ((k.digit c x.1).mul e).size = s.degree := by rw [size_mul hdigit, hdigit, he]
    refine ⟨hbody, hmask, ((k.digit c x.1).mul e).add e', by rw [size_add, hmul, he', min_self],
      ?_, ?_⟩
    · have hprod := (boundedBy_digit (k := k) c x.1).mul heB hdigit
      rw [hdigit, he] at hprod
      rw [List.length_cons, Nat.add_mul, Nat.one_mul, Nat.add_comm]
      exact hprod.add heB'
    · rw [List.foldl_cons, hphase', pairPhase_accumulateStep hc hx hstart, hphase,
        residue_add hmul he', residue_mul (hdigit.trans he) he, List.map_cons, List.sum_cons]
      ring

/-- Digits of the polynomial with the weights of their rows. -/
theorem sum_zip_rows (hc : c.IsReduced s.degree logQ) {digits : ℕ}
    (hcover : logQ ≤ k.logSpecial * digits) (hdigits : digits ≤ k.rows.length) :
    (((List.range digits).zip k.rows).map fun x => 2 ^ (k.logSpecial * (x.1 + 1)) *
      (k.digit c x.1).residue s.degree logExt).sum =
        2 ^ k.logSpecial * c.residue s.degree logExt := by
  have hfst : ((List.range digits).zip k.rows).map Prod.fst = List.range digits :=
    List.map_fst_zip (by simpa using hdigits)
  calc _ = (((List.range digits).zip k.rows).map Prod.fst |>.map fun i =>
          2 ^ (k.logSpecial * (i + 1)) * (k.digit c i).residue s.degree logExt).sum := by
        rw [List.map_map]; rfl
    _ = ∑ i ∈ Finset.range digits,
          2 ^ (k.logSpecial * (i + 1)) * (k.digit c i).residue s.degree logExt := by
        rw [hfst]; rfl
    _ = 2 ^ k.logSpecial * ∑ i ∈ Finset.range digits,
          2 ^ (k.logSpecial * i) * (k.digit c i).residue s.degree logExt := by
        rw [Finset.mul_sum]
        exact Finset.sum_congr rfl fun i _ => by rw [Nat.mul_succ, pow_add]; ring
    _ = _ := by rw [residue_digits hc hcover]

/-- The sum of digits times rows has `2 ^ p` times the phase that the third polynomial stands for,
up to the noise of the rows. -/
theorem phase_accumulate (hc : c.IsReduced s.degree logQ) {digits : ℕ}
    (hcover : logQ ≤ k.logSpecial * digits) (hdigits : digits ≤ k.rows.length)
    (hrows : ∀ i row, k.rows[i]? = some row → IsRow s logExt (k.logSpecial * (i + 1)) B row) :
    (k.accumulate c digits logExt).1.size = s.degree ∧
    (k.accumulate c digits logExt).2.size = s.degree ∧
    ∃ e : Poly ℤ, e.size = s.degree ∧ e.BoundedBy (digits * k.noiseBound s.degree B) ∧
      pairPhase s logExt (k.accumulate c digits logExt) =
        2 ^ k.logSpecial * (c.residue s.degree logExt * s.residue logExt ^ 2) +
          e.residue s.degree logExt := by
  have hzip : ∀ x ∈ (List.range digits).zip k.rows,
      IsRow s logExt (k.logSpecial * (x.1 + 1)) B x.2 := by
    intro x hx
    obtain ⟨i, hi⟩ := List.mem_iff_getElem?.1 hx
    obtain ⟨hfst, hsnd⟩ := List.getElem?_zip_eq_some.1 hi
    obtain ⟨hlt, hindex⟩ := List.getElem?_eq_some_iff.1 hfst
    rw [List.getElem_range] at hindex
    exact hindex ▸ hrows i x.2 hsnd
  have hstart : ((Poly.zero c.size, Poly.zero c.size) : Poly ℤ × Poly ℤ).1.size = s.degree ∧
      ((Poly.zero c.size, Poly.zero c.size) : Poly ℤ × Poly ℤ).2.size = s.degree := by
    simp [hc.size_eq]
  obtain ⟨hbody, hmask, e, he, heB, hphase⟩ := pairPhase_foldl (k := k) hc.size_eq _ hzip hstart
  refine ⟨hbody, hmask, e, he, ?_, ?_⟩
  · simpa [List.length_zip, hdigits] using heB
  rw [accumulate_eq, hphase, sum_zip_rows hc hcover hdigits]
  simp [pairPhase, mul_assoc]

end RelinearizationKey

namespace Ciphertext

variable {p : Parameters} {s : Secret} {k : RelinearizationKey} {B logQ : ℕ} {c : Ciphertext}

/-- All checks pass on every level. -/
theorem relinearize_eq_ok (hpos : ∀ b ∈ p.modulusBits, 0 < b) (hk : k.IsFor p s B)
    (hlevel : p.logQ c.level = .ok c.logQ) {c0 c1 c2 : Poly ℤ} (hpolys : c.polys = [c0, c1, c2])
    (hc2 : c2.size = s.degree) :
    0 < k.logSpecial ∧ c.logQ + k.logSpecial ≤ k.logPQ ∧
      digitCount c.logQ k.logSpecial ≤ k.rows.length ∧
      c.relinearize k = .ok (c.relinearized k c0 c1 c2) := by
  obtain ⟨top, logTop, htop, hlogTop, hcount⟩ := hk.count
  have hspecial : 0 < k.logSpecial := Parameters.logSpecial_pos hpos hk.logSpecial
  have hle : c.logQ ≤ logTop := Parameters.logQ_le_top hlevel htop hlogTop
  obtain ⟨hpq, hword⟩ := Parameters.logPQ_eq hk.logPQ htop hlogTop hk.logSpecial
  have hdigits : digitCount c.logQ k.logSpecial ≤ k.rows.length := by
    rw [hcount]
    exact digitCount_mono hle _
  have hsizes : (k.rows.take (digitCount c.logQ k.logSpecial)).all
      (fun row => row.1.size = c2.size) = true := by
    rw [List.all_eq_true]
    intro row hrow
    obtain ⟨i, hi⟩ := List.mem_iff_getElem?.1 (List.mem_of_mem_take hrow)
    simp [(hk.rows i row hi).body_size, hc2]
  refine ⟨hspecial, by omega, hdigits, ?_⟩
  rw [relinearize, hpolys]
  simp only []
  rw [require_of (show c.logQ + k.logSpecial < 2 ^ 32 by omega), require_of hspecial,
    if_neg (by omega), require_of hsizes]
  rfl

section

variable {pair : Poly ℤ × Poly ℤ} {c0 c1 c2 : Poly ℤ} {bits : ℕ}

/-- What relinearization changes in the phase: it adds the rounded sum `pair` in the place of the
third polynomial. -/
def phaseShift (s : Secret) (bits : ℕ) (pair : Poly ℤ × Poly ℤ) (c2 : Poly ℤ) : Poly ℤ :=
  ((pair.1.rounded bits).add ((pair.2.rounded bits).mulSmall s.coeffs)).sub (c2.mul s.squared)

theorem size_mul_squared (hc2 : c2.size = s.degree) : (c2.mul s.squared).size = s.degree := by
  rw [size_mul (hc2.trans s.size_squared.symm), hc2]

theorem size_phaseShift (hb : pair.1.size = s.degree) (ha : pair.2.size = s.degree)
    (hc2 : c2.size = s.degree) : (phaseShift s bits pair c2).size = s.degree := by
  simp [phaseShift, hb, ha, size_mul_squared hc2]

theorem residue_phaseShift (hb : pair.1.size = s.degree) (ha : pair.2.size = s.degree)
    (hc2 : c2.size = s.degree) (logQ : ℕ) :
    (phaseShift s bits pair c2).residue s.degree logQ =
      pairPhase s logQ (pair.1.rounded bits, pair.2.rounded bits) -
        c2.residue s.degree logQ * s.residue logQ ^ 2 := by
  have hs : s.coeffs.size = s.degree := rfl
  rw [phaseShift, residue_sub (by simp [hb, ha]) (size_mul_squared hc2),
    residue_add (by simp [hb]) (by simp [ha]), residue_mulSmall (by simp [ha]) hs,
    residue_mul hc2 s.size_squared, s.residue_squared]
  rfl

/-- Rounding both polynomials adds two errors to the phase, the second one times the secret. -/
theorem exists_roundingError (hbits : 0 < bits) (hb : pair.1.size = s.degree)
    (ha : pair.2.size = s.degree) (logQ : ℕ) :
    ∃ e : Poly ℤ, e.size = s.degree ∧ e.BoundedBy (2 ^ (bits - 1) * (1 + magnitude s.coeffs)) ∧
      2 ^ bits * pairPhase s logQ (pair.1.rounded bits, pair.2.rounded bits) =
        pairPhase s logQ pair + e.residue s.degree logQ := by
  have hs : s.coeffs.size = s.degree := rfl
  have heb : (pair.1.roundingError bits).size = s.degree := by simp [hb]
  have hea : (pair.2.roundingError bits).size = s.degree := by simp [ha]
  refine ⟨(pair.1.roundingError bits).add ((pair.2.roundingError bits).mulSmall s.coeffs),
    by simp [hb, ha], ?_, ?_⟩
  · rw [mul_one_add]
    exact (boundedBy_roundingError pair.1 hbits).add
      ((boundedBy_roundingError pair.2 hbits).mulSmall (hs.trans hea.symm))
  · have hbody : 2 ^ bits * (pair.1.rounded bits).residue s.degree logQ = _ :=
      residue_rounded hb bits
    have hmask : 2 ^ bits * (pair.2.rounded bits).residue s.degree logQ = _ :=
      residue_rounded ha bits
    rw [residue_add heb (by simp [ha]), residue_mulSmall hea hs, pairPhase, pairPhase]
    change _ = _ + (_ + _ * s.residue logQ)
    linear_combination hbody + hmask * s.residue logQ

/-- The noise of the sum and the two roundings are what separates the phases. -/
theorem exists_error {e : Poly ℤ} {logExt m : ℕ} (hbits : 0 < bits) (hb : pair.1.size = s.degree)
    (ha : pair.2.size = s.degree) (hc2 : c2.size = s.degree) (he : e.size = s.degree)
    (hB : e.BoundedBy m)
    (hphase : pairPhase s logExt pair = 2 ^ bits *
      (c2.residue s.degree logExt * s.residue logExt ^ 2) + e.residue s.degree logExt) :
    ∃ e' : Poly ℤ, e'.size = s.degree ∧
      e'.BoundedBy (m + 2 ^ (bits - 1) * (1 + magnitude s.coeffs)) ∧
      2 ^ bits * (phaseShift s bits pair c2).residue s.degree logExt =
        e'.residue s.degree logExt := by
  obtain ⟨e', he', hB', hrounded⟩ := exists_roundingError hbits hb ha logExt
  refine ⟨e.add e', by simp [he, he'], hB.add hB', ?_⟩
  rw [residue_phaseShift hb ha hc2, residue_add he he', mul_sub, hrounded, hphase]
  ring

theorem polys_relinearized (c : Ciphertext) (k : RelinearizationKey) (c0 c1 c2 : Poly ℤ) :
    (c.relinearized k c0 c1 c2).polys =
      [c0.addMod ((k.accumulate c2 (digitCount c.logQ k.logSpecial)
          (c.logQ + k.logSpecial)).1.divRoundMod k.logSpecial c.logQ) c.logQ,
        c1.addMod ((k.accumulate c2 (digitCount c.logQ k.logSpecial)
          (c.logQ + k.logSpecial)).2.divRoundMod k.logSpecial c.logQ) c.logQ] := rfl

variable (hbits : 0 < k.logSpecial) (h0 : c0.size = s.degree) (h1 : c1.size = s.degree)
  (hpair : k.accumulate c2 (digitCount c.logQ k.logSpecial) (c.logQ + k.logSpecial) = pair)
  (hb : pair.1.size = s.degree) (ha : pair.2.size = s.degree)

include h0 h1 hpair hb ha

theorem isReduced_relinearized : (c.relinearized k c0 c1 c2).IsReduced s.degree c.logQ := by
  refine ⟨rfl, by simp [polys_relinearized, size], by simp [polys_relinearized, size], ?_⟩
  intro q hq
  simp only [polys_relinearized, hpair, List.mem_cons, List.not_mem_nil, or_false] at hq
  rcases hq with rfl | rfl
  · exact isReduced_reduce (by simp [h0, hb])
  · exact isReduced_reduce (by simp [h1, ha])

include hbits in
theorem value_relinearized :
    (c.relinearized k c0 c1 c2).value s c.logQ = pairPhase s c.logQ (c0, c1) +
      pairPhase s c.logQ (pair.1.rounded k.logSpecial, pair.2.rounded k.logSpecial) := by
  have hround : ∀ q : Poly ℤ, (q.divRoundMod k.logSpecial c.logQ).residue s.degree c.logQ =
      (q.rounded k.logSpecial).residue s.degree c.logQ := by
    intro q
    rw [divRoundMod_eq_reduce q hbits, residue_reduce le_rfl]
  rw [value, polys_relinearized, hpair, atSecret_cons, atSecret_cons, atSecret_nil,
    residue_addMod h0 (by simp [hb]), residue_addMod h1 (by simp [ha]), hround, hround, pairPhase,
    pairPhase]
  ring

end

/-- Relinearization succeeds on every level, and `2 ^ p` times the difference of the phases is small:
`p` being the bits of the special modulus, it is bounded by the noise of one row for each digit of
the modulus of the level and by two roundings. -/
theorem relinearize_phase (hpos : ∀ b ∈ p.modulusBits, 0 < b) (hk : k.IsFor p s B)
    (hlevel : p.logQ c.level = .ok logQ) (hc : c.IsReduced s.degree logQ) (hsize : c.size = 3) :
    ∃ r tr tc, c.relinearize k = .ok r ∧ r.IsReduced s.degree logQ ∧ r.size = 2 ∧
      r.level = c.level ∧ r.scale = c.scale ∧
      r.decrypt s = .ok tr ∧ c.decrypt s = .ok tc ∧
      ∃ e : Poly ℤ, e.size = s.degree ∧
        e.BoundedBy (digitCount logQ k.logSpecial * (s.degree * ((2 ^ k.logSpecial - 1) * B)) +
          2 ^ (k.logSpecial - 1) * (1 + magnitude s.coeffs)) ∧
        ∀ j < s.degree, 2 ^ k.logSpecial * (tr.poly.coeff j - tc.poly.coeff j) ≡ e.coeff j
          [ZMOD 2 ^ (logQ + k.logSpecial)] := by
  obtain rfl := hc.logQ_eq
  obtain ⟨c0, c1, c2, hpolys⟩ := List.length_eq_three.1 hsize
  have h0 := (hc.polys c0 (by simp [hpolys])).size_eq
  have h1 := (hc.polys c1 (by simp [hpolys])).size_eq
  have h2 := hc.polys c2 (by simp [hpolys])
  obtain ⟨hspecial, hext, hdigits, hok⟩ := relinearize_eq_ok hpos hk hlevel hpolys h2.size_eq
  -- The sum is taken modulo the extended modulus, to which the rows of the key are reduced.
  obtain ⟨hb, ha, e, he, hB, hphase⟩ := RelinearizationKey.phase_accumulate h2
    (le_mul_digitCount hspecial) hdigits fun i row hi => (hk.rows i row hi).of_le hext
  obtain ⟨pair, hpair⟩ : ∃ pair, k.accumulate c2 (digitCount c.logQ k.logSpecial)
      (c.logQ + k.logSpecial) = pair := ⟨_, rfl⟩
  rw [hpair] at hb ha hphase
  -- Rounding can only be compared after scaling back, hence the factor `2 ^ p` in the statement.
  obtain ⟨e', he', hB', hscaled⟩ := exists_error hspecial hb ha h2.size_eq he hB hphase
  have hr := isReduced_relinearized (k := k) h0 h1 hpair hb ha
  obtain ⟨tr, htr, htrReduced, htrValue⟩ := decryptsTo_value hr
  obtain ⟨tc, htc, htcReduced, htcValue⟩ := decryptsTo_value hc
  refine ⟨c.relinearized k c0 c1 c2, tr, tc, hok, hr, rfl, rfl, rfl, htr, htc, e', he', hB', ?_⟩
  refine modEq_of_scaled_difference htrReduced.size_eq htcReduced.size_eq
    (size_phaseShift hb ha h2.size_eq) he' ?_ hscaled
  rw [htrValue, htcValue, value_relinearized hspecial h0 h1 hpair hb ha,
    residue_phaseShift hb ha h2.size_eq, value, hpolys, atSecret_cons, atSecret_cons,
    atSecret_cons, atSecret_nil, pairPhase, pairPhase]
  ring

/-- A chain whose special modulus does not divide the others. -/
def sampleChain : Parameters :=
  { ringDegree := 2, modulusBits := [3, 2, 2], scale := 2.0, sigma := 1.0 }

/-- The secret `1 - X`. -/
def sampleSecret : Secret := ⟨#[1, -1]⟩

/-- Three rows with noise `1`, `X` and `-1`. -/
def sampleKey : RelinearizationKey where
  rows := [(⟨#[121, 118]⟩, ⟨#[3, 5]⟩), (⟨#[79, 120]⟩, ⟨#[100, 77]⟩), (⟨#[32, 33]⟩, ⟨#[64, 31]⟩)]
  logSpecial := 2
  logPQ := 7

theorem isFor_sampleKey : sampleKey.IsFor sampleChain sampleSecret 1 where
  logSpecial := by decide
  logPQ := by decide
  count := ⟨1, 5, by decide, by decide, by decide⟩
  rows i row h := by
    match i, h with
    | 0, rfl => exact isRow_of_modEq (e := ⟨#[1, 0]⟩) rfl rfl rfl (by decide) (by decide +kernel)
    | 1, rfl => exact isRow_of_modEq (e := ⟨#[0, 1]⟩) rfl rfl rfl (by decide) (by decide +kernel)
    | 2, rfl => exact isRow_of_modEq (e := ⟨#[-1, 0]⟩) rfl rfl rfl (by decide) (by decide +kernel)
    | i + 3, h => simp [sampleKey] at h

/-- A product on the lowest level. -/
def sampleProduct : Ciphertext :=
  { polys := [⟨#[5, 1]⟩, ⟨#[0, 6]⟩, ⟨#[7, 3]⟩], level := 0, logQ := 3, scale := 4.0 }

/-- The lowest level has two digits, the upper one of a single bit. -/
theorem relinearize_phase_sample :
    ∃ r tr tc, sampleProduct.relinearize sampleKey = .ok r ∧ r.IsReduced 2 3 ∧ r.size = 2 ∧
      r.level = 0 ∧ r.scale = sampleProduct.scale ∧
      r.decrypt sampleSecret = .ok tr ∧ sampleProduct.decrypt sampleSecret = .ok tc ∧
      ∃ e : Poly ℤ, e.size = 2 ∧ e.BoundedBy 18 ∧
        ∀ j < 2, 2 ^ 2 * (tr.poly.coeff j - tc.poly.coeff j) ≡ e.coeff j [ZMOD 2 ^ 5] :=
  relinearize_phase (p := sampleChain) (by decide) isFor_sampleKey (by decide) (by decide)
    (by decide)

end Ciphertext

end Ckks

end CipherMonitor
