import Mathlib.Data.ZMod.Basic
import Mathlib.RingTheory.AdjoinRoot
import CipherMonitor.Poly.Modular
import CipherMonitor.Proofs.Poly.Value

/-!
# The ring of negacyclic polynomials modulo a power of two

Integer polynomials with `n` coefficients are representatives of the elements of
`(ZMod (2 ^ logQ))[X] / (X ^ n + 1)`.

* `NegacyclicRing`, `Poly.residue` — the ring, and the element that a polynomial represents.
* `Poly.IsReduced` — the coefficients are in `[0, 2 ^ logQ)`.
* `Poly.residue_eq_iff` — two polynomials represent the same element exactly when their coefficients
  agree modulo `2 ^ logQ`.
* `Poly.residue_mulMod`, `Poly.residue_mulSmallMod`, … — the arithmetic represents that of the ring.
* `center_keepBits`, `center_mem` — the representative around zero.
-/

namespace CipherMonitor

open Polynomial

/-- `(ZMod (2 ^ logQ))[X]` modulo `X ^ n + 1`. -/
abbrev NegacyclicRing (n logQ : ℕ) : Type := AdjoinRoot (X ^ n + 1 : (ZMod (2 ^ logQ))[X])

namespace NegacyclicRing

/-- The class of `X`. -/
noncomputable abbrev root (n logQ : ℕ) : NegacyclicRing n logQ := AdjoinRoot.root _

theorem root_pow (n logQ : ℕ) : root n logQ ^ n = -1 := by
  have h := AdjoinRoot.mk_self (f := (X ^ n + 1 : (ZMod (2 ^ logQ))[X]))
  rw [map_add, map_pow, AdjoinRoot.mk_X, map_one] at h
  exact eq_neg_of_add_eq_zero_left h

theorem intCast_eq_of_modEq {n logQ : ℕ} {a b : ℤ} (h : a ≡ b [ZMOD 2 ^ logQ]) :
    (a : NegacyclicRing n logQ) = b := by
  have hz : (a : ZMod (2 ^ logQ)) = b := (ZMod.intCast_eq_intCast_iff _ _ _).2 (by exact_mod_cast h)
  calc (a : NegacyclicRing n logQ) = AdjoinRoot.of _ (a : ZMod (2 ^ logQ)) := (map_intCast _ a).symm
    _ = b := by rw [hz, map_intCast]

end NegacyclicRing

namespace Poly

/-- The element of the ring that a polynomial with `n` coefficients represents. -/
noncomputable def residue (n logQ : ℕ) (p : Poly ℤ) : NegacyclicRing n logQ :=
  p.value (Int.castRingHom _) (NegacyclicRing.root n logQ)

/-- The polynomial has `n` coefficients, all of them in `[0, 2 ^ logQ)`. -/
structure IsReduced (n logQ : ℕ) (p : Poly ℤ) : Prop where
  size_eq : p.size = n
  range : ∀ i < n, 0 ≤ p.coeff i ∧ p.coeff i < 2 ^ logQ

variable {n logQ m : ℕ} {p q : Poly ℤ}

instance : Decidable (p.IsReduced n logQ) :=
  decidable_of_iff (p.size = n ∧ ∀ i < n, 0 ≤ p.coeff i ∧ p.coeff i < 2 ^ logQ)
    ⟨fun h => ⟨h.1, h.2⟩, fun h => ⟨h.1, h.2⟩⟩

theorem coeff_reduce {i : ℕ} (h : i < p.size) : (p.reduce m).coeff i = p.coeff i % 2 ^ m :=
  coeff_map _ h

theorem isReduced_reduce (h : p.size = n) : (p.reduce logQ).IsReduced n logQ where
  size_eq := by simpa using h
  range i hi := by
    rw [coeff_reduce (h ▸ hi)]
    exact ⟨Int.emod_nonneg _ (by positivity), Int.emod_lt_of_pos _ (by positivity)⟩

theorem isReduced_zero : (zero n : Poly ℤ).IsReduced n logQ where
  size_eq := size_zero n
  range i _ := by rw [coeff_zero]; exact ⟨le_rfl, by positivity⟩

/-! ### Representatives -/

/-- The polynomial with the coefficients of `p` modulo `2 ^ logQ`. -/
noncomputable def toPolynomial (logQ : ℕ) (p : Poly ℤ) : (ZMod (2 ^ logQ))[X] :=
  ∑ i ∈ Finset.range p.size, C (p.coeff i : ZMod (2 ^ logQ)) * X ^ i

theorem mk_toPolynomial (n logQ : ℕ) (p : Poly ℤ) :
    AdjoinRoot.mk _ (p.toPolynomial logQ) = p.residue n logQ := by
  simp [toPolynomial, residue, value]

theorem coeff_toPolynomial (hp : p.size = n) {i : ℕ} (hi : i < n) :
    (p.toPolynomial logQ).coeff i = p.coeff i := by
  simp [toPolynomial, coeff_X_pow, hp, hi]

theorem degree_toPolynomial_lt (hp : p.size = n) : (p.toPolynomial logQ).degree < n := by
  rw [toPolynomial, hp]
  refine (degree_sum_le _ _).trans_lt ((Finset.sup_lt_iff (WithBot.bot_lt_coe n)).2 fun i hi => ?_)
  exact (degree_C_mul_X_pow_le i _).trans_lt (Nat.cast_lt.2 (Finset.mem_range.1 hi))

/-- Polynomials with `n` coefficients represent the same element exactly when their coefficients are
congruent. -/
theorem residue_eq_iff (hp : p.size = n) (hq : q.size = n) :
    p.residue n logQ = q.residue n logQ ↔ ∀ i < n, p.coeff i ≡ q.coeff i [ZMOD 2 ^ logQ] := by
  constructor
  · intro h i hi
    suffices hz : (p.coeff i : ZMod (2 ^ logQ)) = q.coeff i by
      exact_mod_cast (ZMod.intCast_eq_intCast_iff _ _ _).1 hz
    -- Modulo one there is a single element, and no polynomial has a degree.
    rcases subsingleton_or_nontrivial (ZMod (2 ^ logQ)) with _ | _
    · exact Subsingleton.elim _ _
    rw [← mk_toPolynomial, ← mk_toPolynomial, AdjoinRoot.mk_eq_mk] at h
    have hlt : (p.toPolynomial logQ - q.toPolynomial logQ).degree <
        (X ^ n + 1 : (ZMod (2 ^ logQ))[X]).degree := by
      rw [← C_1, degree_X_pow_add_C (by omega)]
      exact (degree_sub_le _ _).trans_lt
        (max_lt (degree_toPolynomial_lt hp) (degree_toPolynomial_lt hq))
    have hmonic : (X ^ n + 1 : (ZMod (2 ^ logQ))[X]).Monic := by
      rw [← C_1]; exact monic_X_pow_add_C 1 (by omega)
    -- A multiple of a monic polynomial of larger degree is zero.
    have heq : p.toPolynomial logQ = q.toPolynomial logQ := by
      by_contra hne
      exact hmonic.not_dvd_of_degree_lt (sub_ne_zero.2 hne) hlt h
    rw [← coeff_toPolynomial hp hi, ← coeff_toPolynomial hq hi, heq]
  · intro h
    rw [residue, residue, value, value, hp, hq]
    refine Finset.sum_congr rfl fun i hi => ?_
    rw [eq_intCast, eq_intCast, NegacyclicRing.intCast_eq_of_modEq (h i (Finset.mem_range.1 hi))]

/-- Equal elements stay equal modulo a smaller power of two. -/
theorem residue_eq_of_le (hp : p.size = n) (hq : q.size = n) (hm : logQ ≤ m)
    (h : p.residue n m = q.residue n m) : p.residue n logQ = q.residue n logQ :=
  (residue_eq_iff hp hq).2 fun i hi =>
    ((residue_eq_iff hp hq).1 h i hi).of_dvd (pow_dvd_pow 2 hm)

/-- A reduced polynomial is determined by the element that it represents. -/
theorem IsReduced.ext (hp : p.IsReduced n logQ) (hq : q.IsReduced n logQ)
    (h : p.residue n logQ = q.residue n logQ) : p = q := by
  refine ext_coeff (hp.size_eq.trans hq.size_eq.symm) fun i hi => ?_
  rw [hp.size_eq] at hi
  have := (residue_eq_iff hp.size_eq hq.size_eq).1 h i hi
  obtain ⟨hp0, hp1⟩ := hp.range i hi
  obtain ⟨hq0, hq1⟩ := hq.range i hi
  rwa [Int.ModEq, Int.emod_eq_of_lt hp0 hp1, Int.emod_eq_of_lt hq0 hq1] at this

end Poly

/-! ### Representatives around zero -/

/-- A modulus larger than one has two halves. -/
theorem two_pow_eq_double {logQ : ℕ} (h : 1 ≤ logQ) : (2 : ℤ) ^ logQ = 2 * 2 ^ (logQ - 1) := by
  rw [← pow_succ', Nat.sub_add_cancel h]

section

variable {logQ : ℕ} (h : 1 ≤ logQ) (x : ℤ)

include h

/-- Centering a reduced number gives the representative of the smallest magnitude. -/
theorem center_keepBits : center (keepBits x logQ) logQ = x.bmod (2 ^ logQ) := by
  have hdouble := two_pow_eq_double h
  have hhalf : (0 : ℤ) < 2 ^ (logQ - 1) := by positivity
  rw [center, keepBits, Int.bmod_def, Nat.cast_pow, Nat.cast_ofNat, hdouble]
  have hlo := Int.emod_nonneg x (by omega : (2 * 2 ^ (logQ - 1) : ℤ) ≠ 0)
  have hhi := Int.emod_lt_of_pos x (by omega : (0 : ℤ) < 2 * 2 ^ (logQ - 1))
  generalize x % (2 * 2 ^ (logQ - 1)) = r at hlo hhi ⊢
  generalize (2 : ℤ) ^ (logQ - 1) = half at hhalf hhi ⊢
  -- The upper half of the residues starts where the quotient by `half` is one.
  rcases lt_or_ge r half with hr | hr
  · rw [Int.ediv_eq_zero_of_lt hlo hr, if_neg (by decide), if_pos (by omega)]
  · have hquotient : r / half = 1 := by
      rw [Int.ediv_eq_iff_of_pos hhalf]
      omega
    rw [hquotient, if_pos (by decide), if_neg (by omega)]

theorem center_keepBits_of_lt (hlo : -2 ^ (logQ - 1) ≤ x) (hhi : x < 2 ^ (logQ - 1)) :
    center (keepBits x logQ) logQ = x := by
  have hdouble := two_pow_eq_double h
  rw [center_keepBits h]
  exact Int.bmod_eq_of_le (by push_cast; omega) (by push_cast; omega)

/-- Centered residues are below half of the modulus. -/
theorem center_mem {x : ℤ} (h0 : 0 ≤ x) (h1 : x < 2 ^ logQ) :
    -2 ^ (logQ - 1) ≤ center x logQ ∧ center x logQ < 2 ^ (logQ - 1) := by
  have hdouble := two_pow_eq_double h
  have hreduced : keepBits x logQ = x := Int.emod_eq_of_lt h0 h1
  have hlo := Int.le_bmod (x := x) (m := 2 ^ logQ) (by positivity)
  have hhi := Int.bmod_lt (x := x) (m := 2 ^ logQ) (by positivity)
  rw [← hreduced, center_keepBits h]
  push_cast at hlo hhi
  omega

end

namespace Poly

variable {n logQ m : ℕ} {p q : Poly ℤ}

/-! ### Arithmetic -/

@[simp] theorem residue_zero (k : ℕ) : (zero k : Poly ℤ).residue n logQ = 0 := value_zero _ _ k

theorem residue_add (hp : p.size = n) (hq : q.size = n) :
    (p.add q).residue n logQ = p.residue n logQ + q.residue n logQ :=
  value_add _ _ (hp.trans hq.symm)

theorem residue_sub (hp : p.size = n) (hq : q.size = n) :
    (p.sub q).residue n logQ = p.residue n logQ - q.residue n logQ :=
  value_sub _ _ (hp.trans hq.symm)

theorem residue_neg (p : Poly ℤ) : p.neg.residue n logQ = -p.residue n logQ := value_neg _ _ p

theorem residue_scale (c : ℤ) (p : Poly ℤ) :
    (p.scale c).residue n logQ = c * p.residue n logQ := by
  rw [residue, value_scale, eq_intCast, residue]

theorem residue_constant (hn : 0 < n) (c : ℤ) : (constant n c).residue n logQ = c := by
  have hcoeff : ∀ i ∈ Finset.range (constant n c).size, i ≠ 0 → (constant n c).coeff i = 0 := by
    intro i hi hne
    rw [Finset.mem_range, size_constant] at hi
    rw [coeff_constant hi, if_neg hne]
  rw [residue, value, Finset.sum_eq_single 0]
  · rw [coeff_constant hn, if_pos rfl, pow_zero, mul_one, eq_intCast]
  · intro i hi hne
    rw [hcoeff i hi hne, map_zero, zero_mul]
  · intro h
    rw [Finset.mem_range, size_constant] at h
    exact absurd hn h

theorem residue_mul (hp : p.size = n) (hq : q.size = n) :
    (p.mul q).residue n logQ = p.residue n logQ * q.residue n logQ :=
  value_mul _ (hp.trans hq.symm) (hp ▸ NegacyclicRing.root_pow n logQ)

theorem residue_mulSmall {s : Array ℤ} (hp : p.size = n) (hs : s.size = n) :
    (p.mulSmall s).residue n logQ = p.residue n logQ * residue n logQ ⟨s⟩ :=
  value_mulSmall _ (hs.trans hp.symm) (hp ▸ NegacyclicRing.root_pow n logQ)

/-- Reducing by a larger power of two keeps the element. -/
theorem residue_reduce (h : logQ ≤ m) (p : Poly ℤ) :
    (p.reduce m).residue n logQ = p.residue n logQ := by
  rw [residue, residue, value, value, size_reduce]
  refine Finset.sum_congr rfl fun i hi => ?_
  rw [eq_intCast, eq_intCast, coeff_reduce (Finset.mem_range.1 hi),
    NegacyclicRing.intCast_eq_of_modEq ((Int.mod_modEq _ _).of_dvd (pow_dvd_pow 2 h))]

theorem residue_addMod (hp : p.size = n) (hq : q.size = n) :
    (p.addMod q logQ).residue n logQ = p.residue n logQ + q.residue n logQ := by
  rw [addMod, residue_reduce le_rfl, residue_add hp hq]

theorem residue_subMod (hp : p.size = n) (hq : q.size = n) :
    (p.subMod q logQ).residue n logQ = p.residue n logQ - q.residue n logQ := by
  rw [subMod, residue_reduce le_rfl, residue_sub hp hq]

theorem residue_negMod (p : Poly ℤ) : (p.negMod logQ).residue n logQ = -p.residue n logQ := by
  rw [negMod, residue_reduce le_rfl, residue_neg]

theorem residue_scaleMod (c : ℤ) (p : Poly ℤ) :
    (p.scaleMod c logQ).residue n logQ = c * p.residue n logQ := by
  rw [scaleMod, residue_reduce le_rfl, residue_scale]

theorem residue_mulMod (hp : p.size = n) (hq : q.size = n) :
    (p.mulMod q logQ).residue n logQ = p.residue n logQ * q.residue n logQ := by
  rw [mulMod, residue_reduce le_rfl, residue_mul hp hq]

theorem residue_mulSmallMod {s : Array ℤ} (hp : p.size = n) (hs : s.size = n) :
    (p.mulSmallMod s logQ).residue n logQ = p.residue n logQ * residue n logQ ⟨s⟩ := by
  rw [mulSmallMod, residue_reduce le_rfl, residue_mulSmall hp hs]

/-- A difference known modulo `2 ^ logQ` is known modulo `2 ^ (logQ + bits)` after scaling. -/
theorem modEq_of_scaled_difference {d e : Poly ℤ} {bits : ℕ} (hp : p.size = n) (hq : q.size = n)
    (hd : d.size = n) (he : e.size = n)
    (hdiff : p.residue n logQ - q.residue n logQ = d.residue n logQ)
    (hscaled : 2 ^ bits * d.residue n (logQ + bits) = e.residue n (logQ + bits)) :
    ∀ i < n, 2 ^ bits * (p.coeff i - q.coeff i) ≡ e.coeff i [ZMOD 2 ^ (logQ + bits)] := by
  intro i hi
  have hlow : p.coeff i - q.coeff i ≡ d.coeff i [ZMOD 2 ^ logQ] := by
    rw [← residue_sub hp hq] at hdiff
    rw [← coeff_sub (hp ▸ hi) (hq ▸ hi)]
    exact (residue_eq_iff (by rw [size_sub, hp, hq, min_self]) hd).1 hdiff i hi
  have hhigh : 2 ^ bits * d.coeff i ≡ e.coeff i [ZMOD 2 ^ (logQ + bits)] := by
    have hscale : (d.scale (2 ^ bits)).residue n (logQ + bits) = e.residue n (logQ + bits) := by
      rw [residue_scale, ← hscaled]
      push_cast
      rfl
    rw [← coeff_scale _ (hd ▸ hi)]
    exact (residue_eq_iff (by rw [size_scale, hd]) he).1 hscale i hi
  -- Scaling a congruence scales its modulus along.
  refine Int.ModEq.trans ?_ hhigh
  rw [Nat.add_comm, pow_add]
  exact hlow.mul_left'

end Poly

end CipherMonitor
