import Mathlib.Algebra.Ring.Periodic
import Mathlib.Tactic.Linarith
import CipherMonitor.Proofs.Glwe.Phase

/-!
# Rotations of negacyclic polynomials

Multiplying by a power of `X` moves coefficients along the integers, where the coefficient of
`X ^ (i + size)` is the opposite of that of `X ^ i`.

* `Poly.entry` — the coefficient of a power of `X` with any exponent.
* `Poly.forall_of_periodic`, `Poly.eq_of_antiperiodic` — what holds of coefficients holds of entries.
* `Poly.coeff_mulXPow_eq_entry`, `Poly.entry_mulXPow` — rotations read entries further down.
* `Poly.entry_mulSmall` — the entries of a product with a vector.
* `Glwe.coeff_phase_mulXPow`, `Glwe.coeff_phase_mulXPowSubOne` — the phase turns along.
-/

namespace CipherMonitor

open Finset

namespace Poly

variable {R : Type} [CommRing R] {p q : Poly R} {n : ℕ}

/-- The coefficient of `X ^ i` for any integer `i`, where `X ^ size` is `-1`. -/
def entry (p : Poly R) (i : ℤ) : R :=
  if Even (i / p.size) then p.coeff (i % p.size).toNat else -p.coeff (i % p.size).toNat

theorem entry_natCast {i : ℕ} (hi : i < p.size) : p.entry i = p.coeff i := by
  rw [entry, Int.ediv_eq_zero_of_lt (by omega) (by omega), if_pos Even.zero,
    Int.emod_eq_of_lt (by omega) (by omega), Int.toNat_natCast]

/-- Half a turn changes the sign. -/
theorem antiperiodic_entry (hp : p.size = n) (hn : 0 < n) : Function.Antiperiodic p.entry n := by
  intro i
  have hsize : (n : ℤ) ≠ 0 := by omega
  rw [entry, entry, hp, Int.add_ediv_of_dvd_right (dvd_refl _), Int.ediv_self hsize,
    Int.add_emod_right]
  by_cases h : Even (i / n)
  · rw [if_pos h, if_neg (by rwa [Int.even_add_one, not_not])]
  · rw [if_neg h, if_pos (Int.even_add_one.2 h), neg_neg]

/-- What is periodic holds everywhere if it holds on one period. -/
theorem forall_of_periodic {P : ℤ → Prop} (hn : 0 < n) (hP : Function.Periodic P n)
    (h : ∀ i : ℕ, i < n → P i) (i : ℤ) : P i := by
  have hlo := Int.emod_nonneg i (b := n) (by omega)
  have hhi := Int.emod_lt_of_pos i (b := n) (by omega)
  have hperiod := hP.int_mul (i / n) (i % n)
  rw [Int.cast_id, mul_comm, Int.emod_add_mul_ediv] at hperiod
  rw [hperiod, ← Int.toNat_of_nonneg hlo]
  exact h _ (by omega)

theorem eq_of_antiperiodic {f g : ℤ → R} (hn : 0 < n) (hf : Function.Antiperiodic f n)
    (hg : Function.Antiperiodic g n) (h : ∀ i : ℕ, i < n → f i = g i) (i : ℤ) : f i = g i :=
  forall_of_periodic (P := fun i => f i = g i) hn (fun j => by simp only [hf j, hg j, neg_inj]) h i

/-- The product with `X ^ k` has the entries `k` places further down. -/
theorem coeff_mulXPow_eq_entry (p : Poly R) (k : ℤ) {i : ℕ} (hi : i < p.size) :
    (p.mulXPow k).coeff i = p.entry (i - k) := by
  have hhalf : Function.Antiperiodic p.entry p.size := antiperiodic_entry rfl (by omega)
  have hlo := Int.emod_nonneg k (b := (2 * p.size : ℕ)) (by omega)
  have hhi := Int.emod_lt_of_pos k (b := (2 * p.size : ℕ)) (by omega)
  -- Whole turns are left out first, so that the exponent is below two half turns.
  have hturn : p.entry (i - k) = p.entry (i - k % (2 * p.size : ℕ)) := by
    have hk := Int.emod_add_mul_ediv k (2 * p.size : ℕ)
    have hback : (i : ℤ) - k + k / (2 * p.size : ℕ) * (2 * p.size) = i - k % (2 * p.size : ℕ) := by
      push_cast at hk ⊢
      linarith
    rw [← hback]
    exact (hhalf.periodic_two_mul.int_mul _ _).symm
  rw [mulXPow, coeff_ofFn _ hi, hturn]
  generalize k % (2 * p.size : ℕ) = m at hlo hhi ⊢
  split_ifs with hup hmid
  · rw [← entry_natCast (by omega), Nat.cast_sub hup, Int.toNat_of_nonneg hlo]
  · rw [← entry_natCast (by omega), ← hhalf.sub_eq, Nat.cast_sub hmid, Int.toNat_of_nonneg hlo]
    congr 1
    push_cast
    ring
  · rw [← entry_natCast (by omega), ← hhalf.periodic_two_mul (i - m),
      Nat.cast_sub (by omega), Int.toNat_of_nonneg hlo]
    congr 1
    push_cast
    ring

theorem entry_mulXPow (hp : 0 < p.size) (k i : ℤ) : (p.mulXPow k).entry i = p.entry (i - k) := by
  refine eq_of_antiperiodic hp (antiperiodic_entry (size_mulXPow p k) hp)
    ((antiperiodic_entry rfl hp).sub_const k) (fun j hj => ?_) i
  rw [entry_natCast (by rwa [size_mulXPow]), coeff_mulXPow_eq_entry p k hj]

/-- The entries of a product with a vector. -/
theorem entry_mulSmall (s : Array ℤ) (hp : 0 < p.size) (i : ℤ) :
    (p.mulSmall s).entry i = ∑ j ∈ range s.size, (s.getD j 0 : R) * p.entry (i - j) := by
  have hhalf := antiperiodic_entry (p := p) rfl hp
  refine eq_of_antiperiodic (g := fun i => ∑ j ∈ range s.size, (s.getD j 0 : R) * p.entry (i - j)) hp
    (antiperiodic_entry (size_mulSmall p s) hp) (fun k => ?_) (fun k hk => ?_) i
  · rw [← sum_neg_distrib]
    refine sum_congr rfl fun j _ => ?_
    rw [add_sub_right_comm, hhalf, mul_neg]
  · rw [entry_natCast (by rwa [size_mulSmall]), coeff_mulSmall hk]
    refine sum_congr rfl fun j _ => ?_
    rw [coeff_mulXPow_eq_entry p j hk]

theorem entry_add (hp : p.size = n) (hq : q.size = n) (hn : 0 < n) (i : ℤ) :
    (p.add q).entry i = p.entry i + q.entry i := by
  have hsum : (p.add q).size = n := by rw [size_add, hp, hq, min_self]
  refine eq_of_antiperiodic (g := fun i => p.entry i + q.entry i) hn (antiperiodic_entry hsum hn)
    (fun k => ?_) (fun k hk => ?_) i
  · beta_reduce
    rw [antiperiodic_entry hp hn, antiperiodic_entry hq hn, neg_add]
  · rw [entry_natCast (by omega), entry_natCast (by omega), entry_natCast (by omega),
      coeff_add (by omega) (by omega)]

end Poly

namespace Glwe

open CipherMonitor.Poly

variable {w n : ℕ} {s : GlweSecret} {c : Glwe w}

theorem ofDegree_mulXPow (hc : c.OfDegree n) (k : ℤ) : (c.mulXPow k).OfDegree n :=
  ⟨(size_mulXPow _ k).trans hc.1, (size_mulXPow _ k).trans hc.2⟩

/-- Rotating a ciphertext rotates its phase. -/
theorem coeff_phase_mulXPow (hc : c.OfDegree n) (k : ℤ) {i : ℕ} (hi : i < n) :
    ((c.mulXPow k).phase s).coeff i = (c.phase s).entry (i - k) := by
  have hn : 0 < n := by omega
  obtain ⟨hb, ha⟩ := hc
  have hmask : ((c.a.mulXPow k).mulSmall s.coeffs).coeff i = (c.a.mulSmall s.coeffs).entry (i - k) := by
    rw [← entry_natCast (by rw [size_mulSmall, size_mulXPow]; omega),
      entry_mulSmall _ (by rw [size_mulXPow]; omega), entry_mulSmall _ (by omega)]
    refine sum_congr rfl fun j _ => ?_
    rw [entry_mulXPow (by omega), sub_right_comm]
  rw [coeff_phase (ofDegree_mulXPow ⟨hb, ha⟩ k) hi, mulXPow, coeff_mulXPow_eq_entry _ k (by omega),
    hmask, phase, entry_add hb ((size_mulSmall _ _).trans ha) hn]

theorem coeff_phase_mulXPowSubOne (hs : s.degree = n) (hc : c.OfDegree n) (k : ℤ) {i : ℕ}
    (hi : i < n) : ((c.mulXPowSubOne k).phase s).coeff i =
      (c.phase s).entry (i - k) - (c.phase s).coeff i := by
  have hdifference : c.mulXPowSubOne k = (c.mulXPow k).sub c := rfl
  rw [hdifference, coeff_phase_sub hs (ofDegree_mulXPow hc k) hc hi, coeff_phase_mulXPow hc k hi]

end Glwe

end CipherMonitor
