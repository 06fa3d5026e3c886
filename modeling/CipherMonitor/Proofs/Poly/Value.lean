import Mathlib.Algebra.BigOperators.Group.Finset.Basic
import Mathlib.Algebra.BigOperators.Ring.Finset
import Mathlib.Tactic.Ring
import CipherMonitor.Poly.Basic

/-!
# Values of negacyclic polynomials

A polynomial with `n` coefficients is evaluated at an element `x` of a commutative ring, its
coefficients being taken along a ring homomorphism `φ`.  When `x ^ n = -1`, the operations on
coefficient arrays become the operations of the ring.

* `Poly.value` — the sum of `φ (coeff i) * x ^ i`.
* `Poly.coeff_constant`, `Poly.coeff_mulXPow` — the coefficients of a constant and of a shifted
  polynomial.
* `Poly.size_foldl`, `Poly.foldl_congr`, `Poly.coeff_foldl`, `Poly.value_foldl` — loops that add up
  polynomials.
* `Poly.value_mulXPow`, `Poly.value_mul`, `Poly.value_mulSmall` — the products.
-/

namespace CipherMonitor.Poly

open Finset

section Coefficients

variable {R : Type} [Zero R]

/-- Coefficient `i` of the product with `X ^ k`: what moves up past the top comes back negated. -/
theorem coeff_mulXPow [Neg R] (p : Poly R) {k i : ℕ} (hk : k < p.size) (hi : i < p.size) :
    (p.mulXPow k).coeff i = if k ≤ i then p.coeff (i - k) else -p.coeff (i + p.size - k) := by
  have hmod : ((k : ℤ) % (2 * p.size : ℕ)).toNat = k := by
    rw [Int.emod_eq_of_lt (by omega) (by omega), Int.toNat_natCast]
  rw [mulXPow, hmod, coeff_ofFn _ hi]
  split_ifs with h1 h2
  · rfl
  · rfl
  · omega

@[simp] theorem coeff_zero (n i : ℕ) : (zero n : Poly R).coeff i = 0 := by
  by_cases h : i < n
  · rw [coeff_of_lt (by simpa [zero, replicate] using h)]; simp [zero, replicate]
  · exact coeff_of_le (by simpa using h)

theorem coeff_constant {n k : ℕ} (hk : k < n) (m : R) :
    (constant n m).coeff k = if k = 0 then m else 0 := by
  have hk' : k < (constant n m).size := by simpa using hk
  rw [coeff_of_lt hk']
  rcases eq_or_ne k 0 with rfl | h0
  · rw [if_pos rfl]
    simp [constant]
  · have hreplicate : k < (Array.replicate n (0 : R)).size := by simpa using hk
    rw [if_neg h0]
    exact (Array.getElem_setIfInBounds_ne hreplicate h0.symm).trans (Array.getElem_replicate _)

theorem coeff_neg [Neg R] {p : Poly R} {i : ℕ} (h : i < p.size) : p.neg.coeff i = -p.coeff i :=
  coeff_map _ h

theorem coeff_scale [Mul R] (c : R) {p : Poly R} {i : ℕ} (h : i < p.size) :
    (p.scale c).coeff i = c * p.coeff i := coeff_map _ h

end Coefficients

section Sizes

variable {R : Type} {n : ℕ}

/-- A loop whose steps keep the size keeps the size. -/
theorem size_foldl {ι : Type} {f : Poly R → ι → Poly R} (l : List ι)
    (hf : ∀ p, p.size = n → ∀ i ∈ l, (f p i).size = n) {start : Poly R}
    (hs : start.size = n) : (l.foldl f start).size = n := by
  induction l generalizing start with
  | nil => exact hs
  | cons i l ih =>
    exact ih (fun p hp j hj => hf p hp j (List.mem_cons_of_mem _ hj))
      (hf start hs i (List.mem_cons_self ..))

/-- Loops whose steps agree on polynomials of one size agree. -/
theorem foldl_congr {ι : Type} {f g : Poly R → ι → Poly R} (l : List ι)
    (hg : ∀ p, p.size = n → ∀ i ∈ l, (g p i).size = n)
    (h : ∀ p, p.size = n → ∀ i ∈ l, f p i = g p i) {start : Poly R} (hs : start.size = n) :
    l.foldl f start = l.foldl g start := by
  induction l generalizing start with
  | nil => rfl
  | cons i l ih =>
    have hi : i ∈ i :: l := List.mem_cons_self ..
    rw [List.foldl_cons, List.foldl_cons, h start hs i hi]
    exact ih (fun p hp j hj => hg p hp j (List.mem_cons_of_mem _ hj))
      (fun p hp j hj => h p hp j (List.mem_cons_of_mem _ hj)) (hg start hs i hi)

variable [Zero R] [Add R] [Neg R] [Mul R]

/-- What `mul` does with coefficient `i` of its first factor. -/
def mulStep [DecidableEq R] (p q sum : Poly R) (i : ℕ) : Poly R :=
  if p.coeff i = 0 then sum else sum.add ((q.mulXPow i).scale (p.coeff i))

/-- What `mulSmall` does with coefficient `j` of the vector. -/
def mulSmallStep [Sub R] [IntCast R] (p : Poly R) (s : Array ℤ) (sum : Poly R) (j : ℕ) : Poly R :=
  if s.getD j 0 = 0 then sum
  else if s.getD j 0 = 1 then sum.add (p.mulXPow j)
  else if s.getD j 0 = -1 then sum.sub (p.mulXPow j)
  else sum.add ((p.mulXPow j).scale (s.getD j 0))

theorem size_mulStep [DecidableEq R] {p q sum : Poly R} (hq : q.size = n) (hs : sum.size = n)
    (i : ℕ) : (mulStep p q sum i).size = n := by
  unfold mulStep
  split_ifs <;> simp [hq, hs]

theorem size_mulSmallStep [Sub R] [IntCast R] {p sum : Poly R} {s : Array ℤ} (hp : p.size = n)
    (hs : sum.size = n) (j : ℕ) : (mulSmallStep p s sum j).size = n := by
  unfold mulSmallStep
  split_ifs <;> simp [hp, hs]

theorem size_mul [DecidableEq R] {p q : Poly R} (h : p.size = q.size) :
    (p.mul q).size = p.size :=
  size_foldl (f := mulStep p q) _ (fun _ hr i _ => size_mulStep h.symm hr i) (size_zero _)

@[simp] theorem size_mulSmall [Sub R] [IntCast R] (p : Poly R) (s : Array ℤ) :
    (p.mulSmall s).size = p.size :=
  size_foldl (f := mulSmallStep p s) _ (fun _ hr j _ => size_mulSmallStep rfl hr j)
    (size_zero _)

end Sizes

variable {R A : Type} [CommRing R] [CommRing A] (φ : R →+* A) (x : A)

/-- The value at `x`, with the coefficients taken along `φ`. -/
def value (p : Poly R) : A := ∑ i ∈ range p.size, φ (p.coeff i) * x ^ i

theorem value_eq_sum_map (p : Poly R) :
    p.value φ x = ((List.range p.size).map fun i => φ (p.coeff i) * x ^ i).sum := rfl

@[simp] theorem value_zero (n : ℕ) : (zero n : Poly R).value φ x = 0 := by
  simp [value]

theorem value_add {p q : Poly R} (h : p.size = q.size) :
    (p.add q).value φ x = p.value φ x + q.value φ x := by
  simp only [value, size_add, h, min_self, ← sum_add_distrib]
  refine sum_congr rfl fun i hi => ?_
  rw [mem_range] at hi
  rw [coeff_add (by omega) hi, map_add, add_mul]

theorem value_sub {p q : Poly R} (h : p.size = q.size) :
    (p.sub q).value φ x = p.value φ x - q.value φ x := by
  simp only [value, size_sub, h, min_self, ← sum_sub_distrib]
  refine sum_congr rfl fun i hi => ?_
  rw [mem_range] at hi
  rw [coeff_sub (by omega) hi, map_sub, sub_mul]

theorem value_neg (p : Poly R) : p.neg.value φ x = -p.value φ x := by
  simp only [value, size_neg, ← sum_neg_distrib]
  refine sum_congr rfl fun i hi => ?_
  rw [coeff_neg (mem_range.1 hi), map_neg, neg_mul]

theorem value_scale (c : R) (p : Poly R) : (p.scale c).value φ x = φ c * p.value φ x := by
  simp only [value, size_scale, mul_sum]
  refine sum_congr rfl fun i hi => ?_
  rw [coeff_scale c (mem_range.1 hi), map_mul, mul_assoc]

variable {x}

/-- Shifting by `k` multiplies the value by `x ^ k`. -/
theorem value_mulXPow {p : Poly R} (hx : x ^ p.size = -1) {k : ℕ} (hk : k < p.size) :
    (p.mulXPow k).value φ x = x ^ k * p.value φ x := by
  obtain ⟨m, hm⟩ := Nat.exists_eq_add_of_le hk.le
  -- The lower `k` coefficients come from the top, the others from `k` places below.
  have low : ∀ i ∈ range k, φ ((p.mulXPow k).coeff i) * x ^ i =
      x ^ k * (φ (p.coeff (m + i)) * x ^ (m + i)) := by
    intro i hi
    rw [mem_range] at hi
    rw [coeff_mulXPow p hk (by omega), if_neg (by omega), show i + p.size - k = m + i by omega,
      map_neg]
    calc -φ (p.coeff (m + i)) * x ^ i = φ (p.coeff (m + i)) * (x ^ p.size * x ^ i) := by
          rw [hx]; ring
      _ = x ^ k * (φ (p.coeff (m + i)) * x ^ (m + i)) := by rw [hm]; ring
  have high : ∀ i ∈ range m, φ ((p.mulXPow k).coeff (k + i)) * x ^ (k + i) =
      x ^ k * (φ (p.coeff i) * x ^ i) := by
    intro i hi
    rw [mem_range] at hi
    rw [coeff_mulXPow p hk (by omega), if_pos (by omega), Nat.add_sub_cancel_left]
    ring
  calc (p.mulXPow k).value φ x
      = ∑ i ∈ range (k + m), φ ((p.mulXPow k).coeff i) * x ^ i := by
        rw [value, size_mulXPow, hm]
    _ = x ^ k * (∑ i ∈ range k, φ (p.coeff (m + i)) * x ^ (m + i)) +
          x ^ k * ∑ i ∈ range m, φ (p.coeff i) * x ^ i := by
        rw [sum_range_add, sum_congr rfl low, sum_congr rfl high, mul_sum, mul_sum]
    _ = x ^ k * ∑ i ∈ range (m + k), φ (p.coeff i) * x ^ i := by
        rw [sum_range_add]; ring
    _ = x ^ k * p.value φ x := by rw [value, hm, Nat.add_comm]

/-- A loop that adds `term i` to a coefficient for each `i` adds up these terms. -/
theorem coeff_foldl {ι : Type} {n k : ℕ} {step : Poly R → ι → Poly R} {term : ι → R} (l : List ι)
    (hsize : ∀ p, p.size = n → ∀ i ∈ l, (step p i).size = n)
    (hstep : ∀ p, p.size = n → ∀ i ∈ l, (step p i).coeff k = p.coeff k + term i)
    {start : Poly R} (hs : start.size = n) :
    (l.foldl step start).coeff k = start.coeff k + (l.map term).sum := by
  induction l generalizing start with
  | nil => simp
  | cons i l ih =>
    have hi : i ∈ i :: l := List.mem_cons_self ..
    rw [List.foldl_cons, ih (fun p hp j hj => hsize p hp j (List.mem_cons_of_mem _ hj))
      (fun p hp j hj => hstep p hp j (List.mem_cons_of_mem _ hj)) (hsize start hs i hi),
      hstep start hs i hi, List.map_cons, List.sum_cons, add_assoc]

theorem coeff_foldl_range {n k m : ℕ} {step : Poly R → ℕ → Poly R} {term : ℕ → R}
    (hsize : ∀ p, p.size = n → ∀ i < m, (step p i).size = n)
    (hstep : ∀ p, p.size = n → ∀ i < m, (step p i).coeff k = p.coeff k + term i)
    {start : Poly R} (hs : start.size = n) :
    ((List.range m).foldl step start).coeff k = start.coeff k + ∑ i ∈ range m, term i :=
  coeff_foldl (List.range m) (fun p hp i hi => hsize p hp i (List.mem_range.1 hi))
    (fun p hp i hi => hstep p hp i (List.mem_range.1 hi)) hs

variable (x)

/-- A loop that adds a polynomial of value `term i` for each `i` adds up these values. -/
theorem value_foldl {ι : Type} {n : ℕ} {step : Poly R → ι → Poly R} {term : ι → A} (l : List ι)
    (hsize : ∀ p, p.size = n → ∀ i ∈ l, (step p i).size = n)
    (hstep : ∀ p, p.size = n → ∀ i ∈ l, (step p i).value φ x = p.value φ x + term i)
    {start : Poly R} (hs : start.size = n) :
    (l.foldl step start).value φ x = start.value φ x + (l.map term).sum := by
  induction l generalizing start with
  | nil => simp
  | cons i l ih =>
    have hi : i ∈ i :: l := List.mem_cons_self ..
    rw [List.foldl_cons, ih (fun p hp j hj => hsize p hp j (List.mem_cons_of_mem _ hj))
      (fun p hp j hj => hstep p hp j (List.mem_cons_of_mem _ hj)) (hsize start hs i hi),
      hstep start hs i hi, List.map_cons, List.sum_cons, add_assoc]

variable {x}

/-- The negacyclic product has the product of the values. -/
theorem value_mul [DecidableEq R] {p q : Poly R} (h : p.size = q.size) (hx : x ^ p.size = -1) :
    (p.mul q).value φ x = p.value φ x * q.value φ x := by
  have step : ∀ r : Poly R, r.size = p.size → ∀ i ∈ List.range p.size,
      (mulStep p q r i).value φ x = r.value φ x + φ (p.coeff i) * x ^ i * q.value φ x := by
    intro r hr i hi
    rw [List.mem_range] at hi
    unfold mulStep
    split_ifs with h0
    · rw [h0]; simp
    · rw [value_add φ x (by simp [hr, h]), value_scale, value_mulXPow φ (h ▸ hx) (h ▸ hi)]
      ring
  calc (p.mul q).value φ x = _ :=
        value_foldl φ x _ (fun _ hr i _ => size_mulStep h.symm hr i) step (size_zero _)
    _ = _ := by rw [value_zero, zero_add, List.sum_map_mul_right, value_eq_sum_map φ x p]

/-- The product with a short vector has the product of the value with that of the vector. -/
theorem value_mulSmall {p : Poly R} {s : Array ℤ} (h : s.size = p.size)
    (hx : x ^ p.size = -1) :
    (p.mulSmall s).value φ x = p.value φ x * (⟨s⟩ : Poly ℤ).value (Int.castRingHom A) x := by
  have step : ∀ r : Poly R, r.size = p.size → ∀ j ∈ List.range s.size,
      (mulSmallStep p s r j).value φ x =
        r.value φ x + p.value φ x * ((s.getD j 0 : A) * x ^ j) := by
    intro r hr j hj
    rw [List.mem_range, h] at hj
    have shifted := value_mulXPow φ hx hj
    unfold mulSmallStep
    split_ifs with h0 h1 h2
    · rw [h0]; simp
    · rw [value_add φ x (by simp [hr]), shifted, h1]; push_cast; ring
    · rw [value_sub φ x (by simp [hr]), shifted, h2]; push_cast; ring
    · rw [value_add φ x (by simp [hr]), value_scale, shifted, map_intCast]; ring
  calc (p.mulSmall s).value φ x = _ :=
        value_foldl φ x _ (fun _ hr j _ => size_mulSmallStep rfl hr j) step (size_zero _)
    _ = _ := by rw [value_zero, zero_add, List.sum_map_mul_left]; rfl

end CipherMonitor.Poly
