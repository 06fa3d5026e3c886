import Mathlib.Algebra.Order.Group.Unbundled.Abs
import Mathlib.Algebra.Order.Ring.Abs
import Mathlib.Tactic.GCongr
import Mathlib.Tactic.Positivity
import CipherMonitor.Proofs.Poly.Value

/-!
# Bounds of integer polynomials

The arithmetic of integer polynomials, followed by the magnitude of the largest coefficient.

* `Poly.BoundedBy` — no coefficient is larger than a number.
* `Poly.BoundedBy.add`, `Poly.BoundedBy.mulXPow`, `Poly.BoundedBy.scale` — the linear operations.
* `Poly.BoundedBy.mul`, `Poly.BoundedBy.mulSmall` — the products.
* `Poly.magnitude_of_binary` — the magnitude of bits is their sum.
-/

namespace CipherMonitor.Poly

/-- No coefficient has a magnitude above `m`. -/
def BoundedBy (p : Poly ℤ) (m : ℕ) : Prop := ∀ i, |p.coeff i| ≤ m

variable {p q : Poly ℤ} {m m' n : ℕ}

/-- Only the coefficients below the size matter. -/
theorem boundedBy_of_lt (h : ∀ i < p.size, |p.coeff i| ≤ m) : p.BoundedBy m := by
  intro i
  rcases lt_or_ge i p.size with hi | hi
  · exact h i hi
  · rw [coeff_of_le hi]; simp

theorem BoundedBy.mono (h : p.BoundedBy m) (hm : m ≤ m') : p.BoundedBy m' := fun i =>
  (h i).trans (by exact_mod_cast hm)

theorem boundedBy_zero (n : ℕ) : (zero n : Poly ℤ).BoundedBy 0 := fun i => by simp

theorem BoundedBy.add (hp : p.BoundedBy m) (hq : q.BoundedBy m') : (p.add q).BoundedBy (m + m') :=
  boundedBy_of_lt fun i hi => by
    rw [size_add] at hi
    rw [coeff_add (by omega) (by omega)]
    push_cast
    exact (abs_add_le _ _).trans (add_le_add (hp i) (hq i))

theorem BoundedBy.sub (hp : p.BoundedBy m) (hq : q.BoundedBy m') : (p.sub q).BoundedBy (m + m') :=
  boundedBy_of_lt fun i hi => by
    rw [size_sub] at hi
    rw [coeff_sub (by omega) (by omega)]
    push_cast
    exact (abs_sub _ _).trans (add_le_add (hp i) (hq i))

theorem BoundedBy.scale (c : ℤ) (hp : p.BoundedBy m) : (p.scale c).BoundedBy (c.natAbs * m) :=
  boundedBy_of_lt fun i hi => by
    rw [size_scale] at hi
    rw [coeff_scale c hi, abs_mul]
    push_cast
    exact mul_le_mul_of_nonneg_left (hp i) (abs_nonneg c)

theorem BoundedBy.mulXPow (hp : p.BoundedBy m) {k : ℕ} (hk : k < p.size) :
    (p.mulXPow k).BoundedBy m :=
  boundedBy_of_lt fun i hi => by
    rw [size_mulXPow] at hi
    rw [coeff_mulXPow p hk hi]
    split_ifs
    · exact hp _
    · rw [abs_neg]; exact hp _

/-- A loop whose step for `i` adds at most `term i` to every coefficient. -/
theorem boundedBy_foldl {ι : Type} {step : Poly ℤ → ι → Poly ℤ} {term : ι → ℕ} (l : List ι)
    (hstep : ∀ i ∈ l, ∀ (r : Poly ℤ) (k : ℕ), r.BoundedBy k → (step r i).BoundedBy (k + term i))
    {start : Poly ℤ} (hs : start.BoundedBy m) :
    (l.foldl step start).BoundedBy (m + (l.map term).sum) := by
  induction l generalizing start m with
  | nil => simpa using hs
  | cons i l ih =>
    rw [List.map_cons, List.sum_cons, ← Nat.add_assoc]
    exact ih (fun j hj => hstep j (List.mem_cons_of_mem _ hj))
      (hstep i (List.mem_cons_self ..) _ _ hs)

/-- A product with `n` coefficients of at most `m` in the first factor. -/
theorem BoundedBy.mul (hp : p.BoundedBy m) (hq : q.BoundedBy m') (h : p.size = q.size) :
    (p.mul q).BoundedBy (p.size * (m * m')) := by
  have step : ∀ i ∈ List.range p.size, ∀ (r : Poly ℤ) (k : ℕ), r.BoundedBy k →
      (mulStep p q r i).BoundedBy (k + m * m') := by
    intro i hi r k hr
    rw [List.mem_range, h] at hi
    unfold mulStep
    split_ifs with h0
    -- Coefficients that are zero are skipped.
    · exact hr.mono (Nat.le_add_right _ _)
    · have hterm := (hq.mulXPow hi).scale (p.coeff i)
      refine hr.add (hterm.mono (Nat.mul_le_mul_right _ ?_))
      have := hp i
      rw [Int.abs_eq_natAbs] at this
      exact_mod_cast this
  have hsum : ((List.range p.size).map fun _ => m * m').sum = p.size * (m * m') := by simp
  rw [← hsum, ← Nat.zero_add (List.sum _)]
  exact boundedBy_foldl _ step (boundedBy_zero p.size)

/-- The sum of the magnitudes of integers. -/
def magnitude (s : Array ℤ) : ℕ := (s.toList.map Int.natAbs).sum

theorem magnitude_eq_sum_range (s : Array ℤ) :
    magnitude s = ((List.range s.size).map fun j => (s.getD j 0).natAbs).sum := by
  rw [magnitude]
  congr 1
  apply List.ext_getElem <;> simp +contextual

/-- Bits are their own magnitudes. -/
theorem magnitude_of_binary {s : Array ℤ} (h : ∀ d ∈ s.toList, d = 0 ∨ d = 1) :
    (magnitude s : ℤ) = s.toList.sum := by
  rw [magnitude, Nat.cast_list_sum, List.map_map]
  congr 1
  refine (List.map_congr_left fun d hd => ?_).trans (List.map_id _)
  rcases h d hd with rfl | rfl <;> rfl

/-- A product with a vector is bounded by the sum of its magnitudes. -/
theorem BoundedBy.mulSmall (hp : p.BoundedBy m) {s : Array ℤ} (h : s.size = p.size) :
    (p.mulSmall s).BoundedBy (m * magnitude s) := by
  have step : ∀ j ∈ List.range s.size, ∀ (r : Poly ℤ) (k : ℕ), r.BoundedBy k →
      (mulSmallStep p s r j).BoundedBy (k + m * (s.getD j 0).natAbs) := by
    intro j hj r k hr
    rw [List.mem_range, h] at hj
    unfold mulSmallStep
    split_ifs with h0 h1 h2
    · exact hr.mono (Nat.le_add_right _ _)
    · simpa [h1] using hr.add (hp.mulXPow hj)
    · simpa [h2] using hr.sub (hp.mulXPow hj)
    · rw [Nat.mul_comm m]
      exact hr.add ((hp.mulXPow hj).scale _)
  have := boundedBy_foldl _ step (boundedBy_zero p.size)
  rwa [List.sum_map_mul_left, Nat.zero_add, ← magnitude_eq_sum_range] at this

end CipherMonitor.Poly
