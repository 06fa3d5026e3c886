import CipherMonitor.Poly.Basic

/-!
# Schoolbook multiplication

The negacyclic products one term after the other, each added at its place.

* `Poly.place` — where a power of `X` stands among the coefficients.
* `Poly.addTerm`, `Poly.mulTerms` — the product with a polynomial.
* `Poly.mulSmallTerms` — the product with a short vector.
* `Poly.addSignedTerm`, `Poly.mulSignedTerms` — the same for integers, where a coefficient `1` or `-1`
  of the vector needs no multiplication.
-/

namespace CipherMonitor.Poly

/-- The place of `X ^ k` among `n` coefficients, for `k < 2 * n`, and whether it stands there
negated. -/
def place (n k : Nat) : Nat × Bool := if k < n then (k, false) else (k - n, true)

variable {R : Type}

/-- Adds `c * X ^ k`. -/
def addTerm [Add R] [Sub R] (sum : Poly R) (k : Nat) (c : R) : Poly R :=
  match place sum.size k with
  | (i, false) => ⟨sum.coeffs.modify i (· + c)⟩
  | (i, true) => ⟨sum.coeffs.modify i (· - c)⟩

section

variable [Zero R] [Add R] [Sub R] [Mul R]

/-- The product, term by term; a zero coefficient of the first factor has no terms. -/
def mulTerms [DecidableEq R] (p q : Poly R) : Poly R :=
  (List.range p.size).foldl
    (fun sum i =>
      if p.coeff i = 0 then sum
      else
        (List.range p.size).foldl (fun sum j => sum.addTerm (i + j) (p.coeff i * q.coeff j)) sum)
    (zero p.size)

/-- The product with a short vector, term by term; a zero entry has no terms. -/
def mulSmallTerms [IntCast R] (p : Poly R) (s : Array Int) : Poly R :=
  (List.range s.size).foldl
    (fun sum j =>
      let d := s.getD j 0
      if d = 0 then sum
      else (List.range p.size).foldl (fun sum i => sum.addTerm (i + j) (d * p.coeff i)) sum)
    (zero p.size)

end

/-- Adds `c * d * X ^ k`; no multiplication is needed if `d` is `1` or `-1`. -/
def addSignedTerm (sum : Poly Int) (k : Nat) (c d : Int) : Poly Int :=
  match d, place sum.size k with
  | 1, (i, false) => ⟨sum.coeffs.modify i (· + c)⟩
  | -1, (i, true) => ⟨sum.coeffs.modify i (· + c)⟩
  | -1, (i, false) => ⟨sum.coeffs.modify i (· - c)⟩
  | 1, (i, true) => ⟨sum.coeffs.modify i (· - c)⟩
  | d, (i, true) => ⟨sum.coeffs.modify i (· - c * d)⟩
  | d, (i, false) => ⟨sum.coeffs.modify i (· + c * d)⟩

/-- The product of integer polynomials with a short vector, term by term. -/
def mulSignedTerms (p : Poly Int) (s : Array Int) : Poly Int :=
  (List.range s.size).foldl
    (fun sum j =>
      let d := s.getD j 0
      if d = 0 then sum
      else (List.range p.size).foldl (fun sum i => sum.addSignedTerm (i + j) (p.coeff i) d) sum)
    (zero p.size)

end CipherMonitor.Poly
