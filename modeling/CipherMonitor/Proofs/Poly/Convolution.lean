import CipherMonitor.Poly.Schoolbook
import CipherMonitor.Proofs.Poly.Residue

/-!
# The negacyclic convolution

* `Poly.convolution` — the coefficients of a product modulo `X ^ n + 1`.
* `Poly.mulTerms_eq_mul`, `Poly.mulSmallTerms_eq_mulSmall`, `Poly.mulSignedTerms_eq_mulSmallTerms` —
  the schoolbook loops compute the products.
* `Poly.coeff_mulMod`, `Poly.mulMod_comm`, `Poly.mulMod_assoc`, `Poly.mulMod_addMod`,
  `Poly.mulMod_congr`, `Poly.mulSmallMod_eq_mulMod` — the laws of the product.
* `Poly.existsUnique_residue` — the elements of the ring.
* `Poly.mulMod_negacyclic` — all of this.
-/

namespace CipherMonitor.Poly

open Finset Polynomial

variable {n : ℕ}

section Ring

variable {R : Type} [CommRing R] {p q : Poly R}

/-! ### Loops over terms -/

/-- Coefficient `l` of `X ^ k`, below `X ^ (2 * n)`. -/
def sign (n k l : ℕ) : R := (if k = l then 1 else 0) - (if k = l + n then 1 else 0)

@[simp] theorem size_addTerm (sum : Poly R) (k : ℕ) (c : R) : (sum.addTerm k c).size = sum.size := by
  unfold addTerm
  split <;> simp [size]

theorem coeff_modify (sum : Poly R) (f : R → R) {i l : ℕ} (hl : l < sum.size) :
    coeff ⟨sum.coeffs.modify i f⟩ l = if i = l then f (sum.coeff l) else sum.coeff l := by
  have hl' : l < (sum.coeffs.modify i f).size := hl.trans_eq (Array.size_modify ..).symm
  rw [coeff_of_lt (p := ⟨sum.coeffs.modify i f⟩) hl', coeff_of_lt hl, Array.getElem_modify]
  rfl

theorem coeff_addTerm {sum : Poly R} (hsum : sum.size = n) {l : ℕ} (hl : l < n) (k : ℕ) (c : R) :
    (sum.addTerm k c).coeff l = sum.coeff l + sign n k l * c := by
  unfold addTerm place sign
  rw [hsum]
  -- A term stands at one place, below `X ^ n` or behind it, and the other indicator is zero.
  by_cases hlow : k < n
  · rw [if_pos hlow]
    simp only
    rw [coeff_modify sum _ (hl.trans_eq hsum.symm), if_neg (show k ≠ l + n by omega)]
    split_ifs <;> simp
  · rw [if_neg hlow]
    simp only
    rw [coeff_modify sum _ (hl.trans_eq hsum.symm), if_neg (show k ≠ l by omega)]
    split_ifs with h h' h'
    · ring
    · omega
    · omega
    · simp

/-- The coefficients of a shifted polynomial, as a sum over all terms. -/
theorem sum_sign_mul_coeff (hq : q.size = n) {i l : ℕ} (hi : i < n) (hl : l < n) (c : R) :
    ∑ j ∈ range n, sign n (i + j) l * (c * q.coeff j) = c * (q.mulXPow i).coeff l := by
  simp only [mul_left_comm _ c, ← mul_sum]
  congr 1
  rw [coeff_mulXPow q (hi.trans_eq hq.symm) (hl.trans_eq hq.symm), hq]
  -- For every `i` a single `j` reaches `X ^ l`, without a turn or after half of one.
  by_cases hil : i ≤ l
  · rw [if_pos hil, sum_eq_single_of_mem (l - i) (mem_range.2 (by omega)) fun j hj hne => ?_]
    · rw [sign, if_pos (by omega), if_neg (by omega), sub_zero, one_mul]
    · rw [mem_range] at hj
      rw [sign, if_neg (by omega), if_neg (by omega), sub_zero, zero_mul]
  · rw [if_neg hil, sum_eq_single_of_mem (l + n - i) (mem_range.2 (by omega)) fun j hj hne => ?_]
    · rw [sign, if_neg (by omega), if_pos (by omega), zero_sub, neg_one_mul]
    · rw [mem_range] at hj
      rw [sign, if_neg (by omega), if_neg (by omega), sub_zero, zero_mul]

/-- The terms of one factor's coefficient are a shifted copy of the other factor. -/
theorem foldl_addTerm (hq : q.size = n) {sum : Poly R} (hsum : sum.size = n) {i : ℕ} (hi : i < n)
    (c : R) : (List.range n).foldl (fun sum j => sum.addTerm (i + j) (c * q.coeff j)) sum =
      sum.add ((q.mulXPow i).scale c) := by
  have hsize : ∀ sum : Poly R, sum.size = n → ∀ j,
      (sum.addTerm (i + j) (c * q.coeff j)).size = n := fun sum hsum j => by
    rw [size_addTerm, hsum]
  have hfold := size_foldl (List.range n) (fun sum hsum j _ => hsize sum hsum j) hsum
  have hshift : ((q.mulXPow i).scale c).size = n := by rw [size_scale, size_mulXPow, hq]
  refine ext_coeff (by rw [hfold, size_add, hsum, hshift, min_self]) fun l hl => ?_
  rw [hfold] at hl
  rw [coeff_foldl_range (fun sum hsum j _ => hsize sum hsum j)
    (fun sum hsum j _ => coeff_addTerm hsum hl (i + j) (c * q.coeff j)) hsum,
    coeff_add (by omega) (by omega), coeff_scale c (by rwa [size_mulXPow, hq]),
    sum_sign_mul_coeff hq hi hl]

/-- The loop over all terms is the sum of shifted copies. -/
theorem mulTerms_eq_mul [DecidableEq R] (hp : p.size = n) (hq : q.size = n) :
    p.mulTerms q = p.mul q := by
  refine foldl_congr (n := p.size) (g := mulStep p q) _
    (fun sum hsum i _ => size_mulStep (hq.trans hp.symm) hsum i) (fun sum hsum i hi => ?_)
    (size_zero _)
  rw [mulStep, foldl_addTerm (hq.trans hp.symm) hsum (List.mem_range.1 hi)]

theorem scale_one (p : Poly R) : p.scale 1 = p := by simp [scale, map]

theorem add_scale_neg_one (p q : Poly R) : p.add (q.scale (-1)) = p.sub q := by
  simp [add, sub, scale, map, Array.zipWith_map_right, sub_eq_add_neg]

/-- The loop over all terms of a short vector is the sum of shifted copies. -/
theorem mulSmallTerms_eq_mulSmall {s : Array ℤ} (hp : p.size = n) (hs : s.size = n) :
    p.mulSmallTerms s = p.mulSmall s := by
  refine foldl_congr (n := p.size) (g := mulSmallStep p s) _
    (fun sum hsum j _ => size_mulSmallStep rfl hsum j) (fun sum hsum j hj => ?_) (size_zero _)
  have hj : j < p.size := (List.mem_range.1 hj).trans_eq (hs.trans hp.symm)
  simp only [Nat.add_comm _ j, foldl_addTerm rfl hsum hj (s.getD j 0 : R)]
  rw [mulSmallStep]
  split_ifs with h0 h1 h2
  · rfl
  · rw [h1, Int.cast_one, scale_one]
  · rw [h2, Int.cast_neg, Int.cast_one, add_scale_neg_one]
  · rfl

/-- Coefficient `k` of the product of polynomials with `n` coefficients: the products of the
coefficients whose indices add up to `k`, less those whose indices add up to `k + n`. -/
def convolution (n : ℕ) (p q : Poly R) (k : ℕ) : R :=
  ∑ ij ∈ range n ×ˢ range n with ij.1 + ij.2 = k, p.coeff ij.1 * q.coeff ij.2 -
    ∑ ij ∈ range n ×ˢ range n with ij.1 + ij.2 = k + n, p.coeff ij.1 * q.coeff ij.2

theorem coeff_mul [DecidableEq R] (hp : p.size = n) (hq : q.size = n) {k : ℕ} (hk : k < n) :
    (p.mul q).coeff k = convolution n p q k := by
  have hstep : ∀ sum : Poly R, sum.size = n → ∀ i < n, (mulStep p q sum i).coeff k =
      sum.coeff k + ∑ j ∈ range n, sign n (i + j) k * (p.coeff i * q.coeff j) := by
    intro sum hsum i hi
    rw [sum_sign_mul_coeff hq hi hk, mulStep]
    split_ifs with h0
    · rw [h0, zero_mul, add_zero]
    · have hshift : k < (q.mulXPow i).size := by rwa [size_mulXPow, hq]
      rw [coeff_add (hk.trans_eq hsum.symm) (by rwa [size_scale]), coeff_scale _ hshift]
  calc (p.mul q).coeff k
      = ∑ i ∈ range n, ∑ j ∈ range n, sign n (i + j) k * (p.coeff i * q.coeff j) := by
        rw [mul, hp]
        exact (coeff_foldl_range (fun sum hsum i _ => size_mulStep hq hsum i) hstep
          (size_zero n)).trans (by rw [coeff_zero, zero_add])
    _ = convolution n p q k := by
        rw [convolution, sum_filter, sum_filter, ← sum_sub_distrib, sum_product]
        refine sum_congr rfl fun i _ => sum_congr rfl fun j _ => ?_
        rw [sign]
        split_ifs <;> simp

end Ring

/-! ### Integers with shortcuts -/

variable {logQ : ℕ} {p q r : Poly ℤ}

/-- The special cases for `1` and `-1` add the same term. -/
theorem addSignedTerm_eq_addTerm (sum : Poly ℤ) (k : ℕ) (c d : ℤ) :
    sum.addSignedTerm k c d = sum.addTerm k (c * d) := by
  unfold addSignedTerm addTerm
  rcases place sum.size k with ⟨i, _ | _⟩ <;> split <;> simp_all [sub_eq_add_neg]

theorem mulSignedTerms_eq_mulSmallTerms (p : Poly ℤ) (s : Array ℤ) :
    p.mulSignedTerms s = p.mulSmallTerms s := by
  unfold mulSignedTerms mulSmallTerms
  simp only [addSignedTerm_eq_addTerm, mul_comm (p.coeff _), Int.cast_id]

/-! ### The ring -/

/-- Every element of the ring is represented by a reduced polynomial. -/
theorem exists_residue (hn : 1 ≤ n) (z : NegacyclicRing n logQ) :
    ∃ p : Poly ℤ, p.IsReduced n logQ ∧ p.residue n logQ = z := by
  obtain ⟨g, rfl⟩ := AdjoinRoot.mk_surjective z
  rcases subsingleton_or_nontrivial (ZMod (2 ^ logQ)) with _ | _
  · exact ⟨zero n, isReduced_zero, by rw [Subsingleton.elim g 0, map_zero, residue_zero]⟩
  have hmonic : (X ^ n + 1 : (ZMod (2 ^ logQ))[X]).Monic := by
    rw [← C_1]; exact monic_X_pow_add_C 1 (by omega)
  have hdegree : (g %ₘ (X ^ n + 1)).degree < n := by
    have hlt := degree_modByMonic_lt g hmonic
    rwa [← C_1, degree_X_pow_add_C (by omega), C_1] at hlt
  -- The remainder of a representative has no more than `n` coefficients.
  let p : Poly ℤ := ofFn n fun i => ((g %ₘ (X ^ n + 1)).coeff i).val
  have hp : p.size = n := size_ofFn n _
  refine ⟨p, ⟨hp, fun i hi => ?_⟩, ?_⟩
  · rw [coeff_ofFn _ hi]
    exact ⟨Int.natCast_nonneg _, by exact_mod_cast ZMod.val_lt _⟩
  · have hpolynomial : p.toPolynomial logQ = g %ₘ (X ^ n + 1) := by
      ext i
      rcases Nat.lt_or_ge i n with hi | hi
      · rw [coeff_toPolynomial hp hi, coeff_ofFn _ hi, Int.cast_natCast, ZMod.natCast_zmod_val]
      · have hle : (n : WithBot ℕ) ≤ i := by exact_mod_cast hi
        rw [coeff_eq_zero_of_degree_lt ((degree_toPolynomial_lt hp).trans_le hle),
          coeff_eq_zero_of_degree_lt (hdegree.trans_le hle)]
    rw [← mk_toPolynomial, hpolynomial, AdjoinRoot.mk_eq_mk, modByMonic_eq_sub_mul_div,
      sub_sub_cancel_left]
    exact (dvd_mul_right _ _).neg_right

theorem existsUnique_residue (hn : 1 ≤ n) (z : NegacyclicRing n logQ) :
    ∃! p : Poly ℤ, p.IsReduced n logQ ∧ p.residue n logQ = z := by
  obtain ⟨p, hp, hz⟩ := exists_residue hn z
  exact ⟨p, ⟨hp, hz⟩, fun q hq => hq.1.ext hp (hq.2.trans hz.symm)⟩

section

variable {p' q' : Poly ℤ} (hp : p.size = n) (hq : q.size = n) (hr : r.size = n)

include hp hq

theorem isReduced_mulMod_of_size : (p.mulMod q logQ).IsReduced n logQ :=
  isReduced_reduce ((size_mul (hp.trans hq.symm)).trans hp)

theorem isReduced_addMod_of_size : (p.addMod q logQ).IsReduced n logQ :=
  isReduced_reduce (by rw [size_add, hp, hq, min_self])

theorem Checked.mulMod_of_size : Checked.mulMod p q logQ = .ok (p.mulMod q logQ) := by
  rw [Checked.mulMod, sameSize, require_of (hp.trans hq.symm)]
  rfl

theorem coeff_mulMod {k : ℕ} (hk : k < n) :
    (p.mulMod q logQ).coeff k = convolution n p q k % 2 ^ logQ := by
  have hsize := (size_mul (hp.trans hq.symm)).trans hp
  rw [mulMod, coeff_reduce (hk.trans_eq hsize.symm), coeff_mul hp hq hk]

theorem mulMod_comm : p.mulMod q logQ = q.mulMod p logQ := by
  refine (isReduced_mulMod_of_size hp hq).ext (isReduced_mulMod_of_size hq hp) ?_
  rw [residue_mulMod hp hq, residue_mulMod hq hp, mul_comm]

/-- Congruent factors have the same product. -/
theorem mulMod_congr (hp' : p'.size = n) (hq' : q'.size = n)
    (hpp' : ∀ k < n, p.coeff k ≡ p'.coeff k [ZMOD 2 ^ logQ])
    (hqq' : ∀ k < n, q.coeff k ≡ q'.coeff k [ZMOD 2 ^ logQ]) :
    p.mulMod q logQ = p'.mulMod q' logQ := by
  refine (isReduced_mulMod_of_size hp hq).ext (isReduced_mulMod_of_size hp' hq') ?_
  rw [residue_mulMod hp hq, residue_mulMod hp' hq', (residue_eq_iff hp hp').2 hpp',
    (residue_eq_iff hq hq').2 hqq']

include hr

theorem mulMod_assoc : (p.mulMod q logQ).mulMod r logQ = p.mulMod (q.mulMod r logQ) logQ := by
  have hpq : (p.mulMod q logQ).size = n := (isReduced_mulMod_of_size hp hq).size_eq
  have hqr : (q.mulMod r logQ).size = n := (isReduced_mulMod_of_size hq hr).size_eq
  refine (isReduced_mulMod_of_size hpq hr).ext (isReduced_mulMod_of_size hp hqr) ?_
  rw [residue_mulMod hpq hr, residue_mulMod hp hq, residue_mulMod hp hqr, residue_mulMod hq hr,
    mul_assoc]

theorem mulMod_addMod :
    p.mulMod (q.addMod r logQ) logQ = (p.mulMod q logQ).addMod (p.mulMod r logQ) logQ := by
  have hpq : (p.mulMod q logQ).size = n := (isReduced_mulMod_of_size hp hq).size_eq
  have hpr : (p.mulMod r logQ).size = n := (isReduced_mulMod_of_size hp hr).size_eq
  have hsum : (q.addMod r logQ).size = n := (isReduced_addMod_of_size hq hr).size_eq
  refine (isReduced_mulMod_of_size hp hsum).ext (isReduced_addMod_of_size hpq hpr) ?_
  rw [residue_mulMod hp hsum, residue_addMod hq hr, residue_addMod hpq hpr, residue_mulMod hp hq,
    residue_mulMod hp hr, mul_add]

end

section

variable {s : Array ℤ} (hp : p.size = n) (hs : s.size = n)

include hp hs

/-- A short vector is a polynomial with these coefficients. -/
theorem mulSmallMod_eq_mulMod : p.mulSmallMod s logQ = p.mulMod ⟨s⟩ logQ := by
  have hreduced : (p.mulSmallMod s logQ).IsReduced n logQ :=
    isReduced_reduce ((size_mulSmall p s).trans hp)
  refine hreduced.ext (isReduced_mulMod_of_size hp hs) ?_
  rw [residue_mulSmallMod hp hs, residue_mulMod hp hs]

theorem Checked.mulSmallMod_of_size : Checked.mulSmallMod p s logQ = .ok (p.mulSmallMod s logQ) := by
  rw [Checked.mulSmallMod, require_of (hs.trans hp.symm)]
  rfl

end

/-- For any number of bits, the product of polynomials with any coefficients is the negacyclic
convolution, reduced.  So it is commutative and associative, distributes over the sum, depends on
residues alone, and is the product with a short vector if one factor is a vector; and each element of
the ring of polynomials modulo `2 ^ logQ` and `X ^ n + 1` is represented by one reduced polynomial. -/
theorem mulMod_negacyclic (hn : 1 ≤ n) (hp : p.size = n) (hq : q.size = n) (hr : r.size = n)
    (logQ : ℕ) :
    (Checked.mulMod p q logQ = .ok (p.mulMod q logQ) ∧
      p.mulMod q logQ = (p.mulTerms q).reduce logQ) ∧
    ((p.mulMod q logQ).IsReduced n logQ ∧
      ∀ k < n, (p.mulMod q logQ).coeff k = convolution n p q k % 2 ^ logQ) ∧
    p.mulMod q logQ = q.mulMod p logQ ∧
    (p.mulMod q logQ).mulMod r logQ = p.mulMod (q.mulMod r logQ) logQ ∧
    p.mulMod (q.addMod r logQ) logQ = (p.mulMod q logQ).addMod (p.mulMod r logQ) logQ ∧
    (∀ p' q' : Poly ℤ, p'.size = n → q'.size = n →
      (∀ k < n, p.coeff k ≡ p'.coeff k [ZMOD 2 ^ logQ]) →
      (∀ k < n, q.coeff k ≡ q'.coeff k [ZMOD 2 ^ logQ]) →
      p.mulMod q logQ = p'.mulMod q' logQ) ∧
    (∀ s : Array ℤ, s.size = n →
      Checked.mulSmallMod p s logQ = Checked.mulMod p ⟨s⟩ logQ ∧
      p.mulSmallMod s logQ = (p.mulSignedTerms s).reduce logQ) ∧
    (p.mulMod q logQ).residue n logQ = p.residue n logQ * q.residue n logQ ∧
    (p.addMod q logQ).residue n logQ = p.residue n logQ + q.residue n logQ ∧
    ∀ z : NegacyclicRing n logQ, ∃! p : Poly ℤ, p.IsReduced n logQ ∧ p.residue n logQ = z := by
  refine ⟨⟨Checked.mulMod_of_size hp hq, by rw [mulTerms_eq_mul hp hq, mulMod]⟩,
    ⟨isReduced_mulMod_of_size hp hq, fun k hk => coeff_mulMod hp hq hk⟩, mulMod_comm hp hq,
    mulMod_assoc hp hq hr, mulMod_addMod hp hq hr,
    fun p' q' hp' hq' => mulMod_congr hp hq hp' hq', fun s hs => ⟨?_, ?_⟩,
    residue_mulMod hp hq, residue_addMod hp hq, existsUnique_residue hn⟩
  · rw [Checked.mulSmallMod_of_size hp hs, Checked.mulMod_of_size hp hs,
      mulSmallMod_eq_mulMod hp hs]
  · rw [mulSignedTerms_eq_mulSmallTerms, mulSmallTerms_eq_mulSmall hp hs, mulSmallMod]

/-- Two coefficients modulo eight, some of them negative or too large. -/
theorem mulMod_negacyclic_two :
    Checked.mulMod ⟨#[-3, 10]⟩ ⟨#[7, -1]⟩ 3 = .ok ⟨#[5, 1]⟩ ∧
    Checked.mulSmallMod ⟨#[-3, 10]⟩ #[7, -1] 3 = .ok ⟨#[5, 1]⟩ ∧
    (mulMod ⟨#[-3, 10]⟩ ⟨#[7, -1]⟩ 3).mulMod ⟨#[0, 9]⟩ 3 =
      mulMod ⟨#[-3, 10]⟩ (mulMod ⟨#[7, -1]⟩ ⟨#[0, 9]⟩ 3) 3 := by
  obtain ⟨⟨hproduct, -⟩, -, -, hassoc, -, -, hsmall, -⟩ :=
    mulMod_negacyclic (n := 2) (p := ⟨#[-3, 10]⟩) (q := ⟨#[7, -1]⟩) (r := ⟨#[0, 9]⟩)
      (by decide) rfl rfl rfl 3
  have hvalue : mulMod ⟨#[-3, 10]⟩ ⟨#[7, -1]⟩ 3 = ⟨#[5, 1]⟩ := by decide +kernel
  rw [hvalue] at hproduct
  exact ⟨hproduct, (hsmall #[7, -1] rfl).1.trans hproduct, hassoc⟩

end CipherMonitor.Poly
