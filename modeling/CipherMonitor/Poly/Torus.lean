import CipherMonitor.Fourier
import CipherMonitor.Poly.Basic

/-!
# Torus polynomials

Negacyclic polynomials over torus words.

* `TorusPoly` — polynomials over words of `w` bits.
* `TorusPoly.addScaled` — accumulation of an integer multiple.
* `TorusPoly.mulFourier` — the product through the Fourier transform.
* `TorusPoly.uniform`, `TorusPoly.addNoise` — random masks and noise.
* `TorusPoly.Checked` — the operations with their preconditions: ring degrees have to be powers of
  two, and sizes to agree.
-/

namespace CipherMonitor

/-- A polynomial over torus words. -/
abbrev TorusPoly (w : Nat) := Poly (BitVec w)

namespace TorusPoly

variable {w : Nat}

/-- `p + d * q`; coefficients of `p` beyond those of `q` stay as they are. -/
def addScaled (p q : TorusPoly w) (d : Int) : TorusPoly w :=
  Poly.ofFn p.size fun i => p.coeff i + Torus.scale (q.coeff i) d

/-- The product with an integer polynomial through the Fourier transform. -/
def mulFourier (p : TorusPoly w) (t : Fourier) (s : Array Int) : TorusPoly w :=
  ⟨t.toWords w (t.zero.addMul (t.ofWords p.coeffs) (t.ofInts s))⟩

/-- A uniform polynomial with `n` coefficients. -/
def uniform (w n : Nat) : Draw (TorusPoly w) := do
  let coeffs ← Draw.many n (Draw.torus w)
  pure ⟨coeffs.toArray⟩

/-- Adds noise to every coefficient. -/
def addNoise (p : TorusPoly w) (d : BoundedNormal) : Draw (TorusPoly w) := do
  let coeffs ← Torus.addNoise d p.coeffs
  pure ⟨coeffs⟩

@[simp] theorem size_addScaled (p q : TorusPoly w) (d : Int) : (addScaled p q d).size = p.size :=
  Poly.size_ofFn _ _

/-! ### Checked operations -/

namespace Checked

/-- The zero polynomial of a ring degree. -/
def zero (w n : Nat) : Outcome (TorusPoly w) := do
  Poly.degreeOk n
  pure (Poly.zero n)

/-- The sum of two polynomials of one size. -/
def add (p q : TorusPoly w) : Outcome (TorusPoly w) := do
  p.sameSize q
  pure (p.add q)

/-- The difference of two polynomials of one size. -/
def sub (p q : TorusPoly w) : Outcome (TorusPoly w) := do
  p.sameSize q
  pure (p.sub q)

/-- The product with `X ^ k`, for a ring degree. -/
def mulXPow (p : TorusPoly w) (k : Int) : Outcome (TorusPoly w) := do
  Poly.degreeOk p.size
  pure (p.mulXPow k)

/-- The product with `X ^ k - 1`, for a ring degree. -/
def mulXPowSubOne (p : TorusPoly w) (k : Int) : Outcome (TorusPoly w) := do
  Poly.degreeOk p.size
  pure (p.mulXPowSubOne k)

/-- The product with an integer polynomial of the same ring degree. -/
def mulSmall (p : TorusPoly w) (s : Array Int) : Outcome (TorusPoly w) := do
  Poly.degreeOk p.size
  require (s.size = p.size) .shape
  pure (p.mulSmall s)

/-- The product with an integer polynomial through the Fourier transform of degree `n`. -/
def mulFourier (p : TorusPoly w) (s : Array Int) (n : Nat) : Outcome (TorusPoly w) := do
  let t ← Fourier.make n
  Poly.degreeOk p.size
  t.covers s.size
  require (p.size = n) .shape
  pure (p.mulFourier t s)

end Checked

end TorusPoly

end CipherMonitor
