import CipherMonitor.Proofs.Poly.Bound
import CipherMonitor.Proofs.Poly.Rotation

/-!
# Products with vectors of small integers

* `Poly.coeff_mulSmall_comm` — two such products can be taken in any order.
* `Poly.coeff_mulSmall_sum`, `Poly.coeff_constant_mulSmall` — sums of polynomials, and constants.
* `Poly.distance_mulSmall_le` — close torus polynomials have close products.
-/

namespace CipherMonitor.Poly

open Finset

section Ring

variable {R : Type} [CommRing R] {p : Poly R} {n k : ℕ} {s d : Array ℤ}

/-- The product with one vector and then another does not depend on their order. -/
theorem coeff_mulSmall_comm (s d : Array ℤ) (hk : k < p.size) :
    ((p.mulSmall d).mulSmall s).coeff k = ((p.mulSmall s).mulSmall d).coeff k := by
  have hpos : 0 < p.size := by omega
  have hentry : ∀ s d : Array ℤ, ((p.mulSmall d).mulSmall s).coeff k =
      ∑ i ∈ range s.size, ∑ j ∈ range d.size, (s.getD i 0 : R) * ((d.getD j 0 : R) * p.entry (k - i - j)) := by
    intro s d
    rw [← entry_natCast (by simpa using hk), entry_mulSmall _ (by simpa using hpos)]
    refine sum_congr rfl fun i _ => ?_
    rw [entry_mulSmall d hpos, mul_sum]
  rw [hentry, hentry, sum_comm]
  refine sum_congr rfl fun j _ => sum_congr rfl fun i _ => ?_
  rw [mul_left_comm, sub_right_comm]

/-- The product with a sum of polynomials is the sum of the products. -/
theorem coeff_mulSmall_sum {ι : Type} {l : Finset ι} {q : ι → Poly R} (hp : p.size = n)
    (hq : ∀ i ∈ l, (q i).size = n) (hsum : ∀ k < n, p.coeff k = ∑ i ∈ l, (q i).coeff k)
    (hs : s.size = n) (hk : k < n) :
    (p.mulSmall s).coeff k = ∑ i ∈ l, ((q i).mulSmall s).coeff k := by
  have hterm : ∀ i ∈ l, ((q i).mulSmall s).coeff k =
      ∑ j ∈ range s.size, (s.getD j 0 : R) * ((q i).mulXPow j).coeff k := fun i hi =>
    coeff_mulSmall (hk.trans_eq (hq i hi).symm)
  rw [coeff_mulSmall (hk.trans_eq hp.symm), sum_congr rfl hterm, sum_comm]
  refine sum_congr rfl fun j hj => ?_
  have hj : j < n := (mem_range.1 hj).trans_eq hs
  rw [← mul_sum, coeff_mulXPow _ (hj.trans_eq hp.symm) (hk.trans_eq hp.symm)]
  congr 1
  have hshift : ∀ i ∈ l, ((q i).mulXPow j).coeff k =
      if j ≤ k then (q i).coeff (k - j) else -(q i).coeff (k + n - j) := fun i hi => by
    rw [coeff_mulXPow _ (hj.trans_eq (hq i hi).symm) (hk.trans_eq (hq i hi).symm), hq i hi]
  rw [sum_congr rfl hshift, hp]
  split_ifs with hjk
  · exact hsum _ (by omega)
  · rw [hsum _ (by omega), sum_neg_distrib]

/-- The product of a constant. -/
theorem coeff_constant_mulSmall (hs : s.size = n) (c : R) (hk : k < n) :
    ((constant n c).mulSmall s).coeff k = (s.getD k 0 : R) * c := by
  have hsize : (constant n c).size = n := size_constant n c
  rw [coeff_mulSmall (hk.trans_eq hsize.symm),
    sum_eq_single_of_mem k (mem_range.2 (hk.trans_eq hs.symm)) fun j hj hne => ?_]
  · rw [coeff_mulXPow _ (hk.trans_eq hsize.symm) (hk.trans_eq hsize.symm), if_pos le_rfl,
      Nat.sub_self, coeff_constant (by omega), if_pos rfl]
  · have hj : j < n := (mem_range.1 hj).trans_eq hs
    rw [coeff_mulXPow _ (hj.trans_eq hsize.symm) (hk.trans_eq hsize.symm), hsize]
    split_ifs with hjk
    · rw [coeff_constant (by omega), if_neg (by omega), mul_zero]
    · rw [coeff_constant (by omega), if_neg (by omega), neg_zero, mul_zero]

end Ring

/-! ### Distances -/

open Torus

variable {w n e : ℕ} {p q : Poly (BitVec w)} {s : Array ℤ}

/-- Polynomials that are close in every coefficient have products that are close in every
coefficient. -/
theorem distance_mulSmall_le (hp : p.size = n) (hq : q.size = n) (hs : s.size = n)
    (h : ∀ k < n, distance (p.coeff k) (q.coeff k) ≤ e) {k : ℕ} (hk : k < n) :
    distance ((p.mulSmall s).coeff k) ((q.mulSmall s).coeff k) ≤ magnitude s * e := by
  rw [coeff_mulSmall (hk.trans_eq hp.symm),
    coeff_mulSmall (hk.trans_eq hq.symm)]
  refine (distance_sum _ _ _).trans ?_
  have hbound : ∀ j ∈ range s.size, distance ((s.getD j 0 : BitVec w) * (p.mulXPow j).coeff k)
      ((s.getD j 0 : BitVec w) * (q.mulXPow j).coeff k) ≤ (s.getD j 0).natAbs * e := by
    intro j hj
    have hj : j < n := (mem_range.1 hj).trans_eq hs
    refine (distance_scale_le _ _ (s.getD j 0)).trans (Nat.mul_le_mul_left _ ?_)
    rw [coeff_mulXPow _ (hj.trans_eq hp.symm) (hk.trans_eq hp.symm),
      coeff_mulXPow _ (hj.trans_eq hq.symm) (hk.trans_eq hq.symm), hp, hq]
    split_ifs with hjk
    · exact h _ (by omega)
    · rw [distance_neg]
      exact h _ (by omega)
  refine (sum_le_sum hbound).trans_eq ?_
  rw [← sum_mul, magnitude_eq_sum_range]
  rfl

/-- The magnitude of a vector of numbers of at most `size`. -/
theorem magnitude_le {size : ℕ} (h : ∀ d ∈ s.toList, d.natAbs ≤ size) :
    magnitude s ≤ s.size * size := by
  have hsum := List.sum_le_card_nsmul (s.toList.map Int.natAbs) size (by simpa using h)
  simpa [magnitude] using hsum

end CipherMonitor.Poly
