import CipherMonitor.Ggsw
import CipherMonitor.Proofs.Gadget
import CipherMonitor.Proofs.Poly.Product

/-!
# Ciphertexts combined with polynomials of digits

A gadget ciphertext is multiplied by combining its rows with the digits of another ciphertext: digit `i`
of every coefficient is a polynomial, and row `i` is multiplied with it.

* `Glwe.sumOfProducts`, `Glwe.sumOfProducts_spec` — sums of ciphertexts times vectors of integers.
* `Gadget.digitPoly`, `Gadget.digitRows_eq` — one digit of every coefficient.
* `Gadget.roundPoly`, `Gadget.sum_message_mulSmall` — multiples of the weights combined with the digits
  give the multiple of the rounded polynomial.
* `Gadget.distance_roundPoly_le` — how far the rounded polynomial is off.
-/

namespace CipherMonitor

open Finset CipherMonitor.Poly Torus

/-! ### Sums of products -/

/-- The negacyclic sum of torus polynomials times vectors of integers. -/
def Poly.sumOfProducts {w : ℕ} (n : ℕ) (pairs : List (Array ℤ × TorusPoly w)) : TorusPoly w :=
  pairs.foldl (fun sum (d, p) => sum.add (p.mulSmall d)) (Poly.zero n)

namespace Glwe

variable {w n k : ℕ} {s : GlweSecret} {c : Glwe w} {d : Array ℤ}

/-- Both polynomials times a vector of integers. -/
def mulSmall (c : Glwe w) (d : Array ℤ) : Glwe w := ⟨c.b.mulSmall d, c.a.mulSmall d⟩

theorem ofDegree_mulSmall (hc : c.OfDegree n) (d : Array ℤ) : (c.mulSmall d).OfDegree n :=
  ⟨(size_mulSmall _ d).trans hc.1, (size_mulSmall _ d).trans hc.2⟩

/-- The phase is multiplied, too. -/
theorem coeff_phase_mulSmall (hs : s.degree = n) (hc : c.OfDegree n) (hd : d.size = n) (hk : k < n) :
    ((c.mulSmall d).phase s).coeff k = ((c.phase s).mulSmall d).coeff k := by
  obtain ⟨hb, ha⟩ := hc
  have hs : s.coeffs.size = n := hs
  rw [coeff_phase (ofDegree_mulSmall ⟨hb, ha⟩ d) hk, mulSmall,
    coeff_mulSmall_comm _ _ (by omega), phase,
    coeff_mulSmall_add (by rw [size_mulSmall]; omega) (by omega) (by omega)]

/-- The sum of ciphertexts times vectors of integers. -/
def sumOfProducts (n : ℕ) (pairs : List (Array ℤ × Glwe w)) : Glwe w :=
  pairs.foldl (fun sum (d, c) => sum.add (c.mulSmall d)) (zero n)

/-- The two polynomials of a sum are sums of products. -/
theorem sumOfProducts_eq (n : ℕ) (pairs : List (Array ℤ × Glwe w)) : sumOfProducts n pairs =
    ⟨Poly.sumOfProducts n (pairs.map fun (d, c) => (d, c.b)),
      Poly.sumOfProducts n (pairs.map fun (d, c) => (d, c.a))⟩ := by
  have hloop : ∀ start : Glwe w,
      pairs.foldl (fun sum (d, c) => sum.add (c.mulSmall d)) start =
        ⟨(pairs.map fun (d, c) => (d, c.b)).foldl (fun sum (d, p) => sum.add (p.mulSmall d)) start.b,
          (pairs.map fun (d, c) => (d, c.a)).foldl (fun sum (d, p) => sum.add (p.mulSmall d))
            start.a⟩ := by
    induction pairs with
    | nil => exact fun _ => rfl
    | cons x pairs ih => exact fun start => ih (start.add (x.2.mulSmall x.1))
  exact hloop (zero n)

/-- The phase of a sum is the sum of the phases times the vectors. -/
theorem sumOfProducts_spec (hs : s.degree = n) {pairs : List (Array ℤ × Glwe w)}
    (h : ∀ x ∈ pairs, x.1.size = n ∧ x.2.OfDegree n) : (sumOfProducts n pairs).OfDegree n ∧
      ∀ k < n, ((sumOfProducts n pairs).phase s).coeff k =
        (pairs.map fun (d, c) => ((c.phase s).mulSmall d).coeff k).sum := by
  have hloop : ∀ start : Glwe w, start.OfDegree n →
      let r := pairs.foldl (fun sum (d, c) => sum.add (c.mulSmall d)) start
      r.OfDegree n ∧ ∀ k < n, (r.phase s).coeff k = (start.phase s).coeff k +
        (pairs.map fun (d, c) => ((c.phase s).mulSmall d).coeff k).sum := by
    induction pairs with
    | nil => exact fun start hstart => ⟨hstart, fun k _ => by simp⟩
    | cons x pairs ih =>
      intro start hstart
      obtain ⟨⟨hd, hc⟩, h⟩ := List.forall_mem_cons.1 h
      have hproduct := ofDegree_mulSmall hc x.1
      obtain ⟨hdegree, hphase⟩ := ih h _ (ofDegree_add hstart hproduct)
      refine ⟨hdegree, fun k hk => (hphase k hk).trans ?_⟩
      rw [coeff_phase_add hs hstart hproduct hk, coeff_phase_mulSmall hs hc hd hk, List.map_cons,
        List.sum_cons, add_assoc]
  obtain ⟨hdegree, hphase⟩ := hloop (zero n) (ofDegree_zero n)
  refine ⟨hdegree, fun k hk => (hphase k hk).trans ?_⟩
  rw [coeff_phase_zero hs hk, zero_add]

end Glwe

/-! ### Digit polynomials -/

namespace Gadget

variable {g : Gadget} {n k : ℕ} {p : TorusPoly 32}

/-- Digit `i` of every word. -/
def digitPoly (g : Gadget) (i : ℕ) (words : Array (BitVec 32)) : Array ℤ :=
  words.map fun x => g.signedDigit x i

@[simp] theorem size_digitPoly (g : Gadget) (i : ℕ) (words : Array (BitVec 32)) :
    (g.digitPoly i words).size = words.size := by
  rw [digitPoly, Array.size_map]

theorem digitRows_eq (g : Gadget) (words : Array (BitVec 32)) :
    g.digitRows words = (List.range g.rows).map fun i => g.digitPoly i words := by
  refine List.map_congr_left fun i hi => ?_
  have hi : i < g.rows := List.mem_range.1 hi
  simp [digitPoly, signedDigits_eq, hi]

theorem magnitude_digitPoly_le (g : Gadget) (i : ℕ) (words : Array (BitVec 32)) :
    magnitude (g.digitPoly i words) ≤ words.size * (2 ^ g.base2k / 2) := by
  have hdigits : ∀ d ∈ (g.digitPoly i words).toList, d.natAbs ≤ 2 ^ g.base2k / 2 := by
    intro d hd
    rw [digitPoly, Array.toList_map] at hd
    obtain ⟨x, -, rfl⟩ := List.mem_map.1 hd
    exact natAbs_signedDigit_le g x i
  exact (magnitude_le hdigits).trans_eq (by rw [size_digitPoly])

/-- Every word replaced by the word of its digits. -/
def roundPoly (g : Gadget) (p : TorusPoly 32) : TorusPoly 32 :=
  p.map fun x => g.recompose 32 (g.signedDigits x)

/-- The multiple `m` of weight `i` as a constant polynomial. -/
def message (g : Gadget) (n : ℕ) (m : ℤ) (i : ℕ) : TorusPoly 32 := constant n (scale (g.weight 32 i) m)

@[simp] theorem size_message (g : Gadget) (n : ℕ) (m : ℤ) (i : ℕ) : (g.message n m i).size = n :=
  size_constant n _

/-- Multiples of the weights times the digit polynomials give the multiple of the rounded
polynomial. -/
theorem sum_message_mulSmall (hp : p.size = n) (m : ℤ) (hk : k < n) :
    ∑ i ∈ range g.rows, ((g.message n m i).mulSmall (g.digitPoly i p.coeffs)).coeff k =
      ((g.roundPoly p).scale (BitVec.ofInt 32 m)).coeff k := by
  have hk' : k < p.size := hk.trans_eq hp.symm
  have hterm : ∀ i ∈ range g.rows, ((g.message n m i).mulSmall (g.digitPoly i p.coeffs)).coeff k =
      BitVec.ofInt 32 m * scale (g.weight 32 i) (g.signedDigit (p.coeff k) i) := by
    intro i _
    have hdigit : (g.digitPoly i p.coeffs).getD k 0 = g.signedDigit (p.coeff k) i := by
      have hlt : k < (g.digitPoly i p.coeffs).size := hk'.trans_eq (size_digitPoly g i p.coeffs).symm
      rw [← Array.getElem_eq_getD (h := hlt), coeff_of_lt hk']
      exact Array.getElem_map ..
    rw [message, coeff_constant_mulSmall ((size_digitPoly g i p.coeffs).trans hp) _ hk, hdigit]
    exact mul_left_comm _ _ _
  rw [sum_congr rfl hterm, coeff_scale _ (by rwa [roundPoly, size_map]), roundPoly, coeff_map _ hk',
    signedDigits_eq, recompose_map_range, mul_sum]

/-- A multiple of the rounded polynomial is close to the multiple of the polynomial. -/
theorem distance_roundPoly_le (hg : g.precision ≤ 32) (m : ℤ) (hk : k < p.size) :
    distance (((g.roundPoly p).scale (BitVec.ofInt 32 m)).coeff k)
        ((p.scale (BitVec.ofInt 32 m)).coeff k) ≤
      m.natAbs * (2 ^ 32 / 2 ^ (g.precision + 1)) := by
  rw [coeff_scale _ (by rwa [roundPoly, size_map]), coeff_scale _ hk, roundPoly, coeff_map _ hk]
  exact (distance_scale_le _ _ m).trans
    (Nat.mul_le_mul_left _ (distance_recompose_le (by decide) hg _))

end Gadget

end CipherMonitor
