import CipherMonitor.Fault

/-!
# Negacyclic polynomials

Polynomials with `n` coefficients modulo `X ^ n + 1`, over any type of coefficients with the
operations of a ring.  The same arithmetic serves torus words and integers.

* `Poly` — the coefficients, constant one first.
* `Poly.mulXPow` — the product with a power of `X`: the coefficients move up, and those that leave
  at the top come back at the bottom with the opposite sign.
* `Poly.mul`, `Poly.mulSmall` — the product with a polynomial and with a vector of integers.

Operations on two polynomials expect equal sizes; `Poly.sameSize` is the check.
-/

namespace CipherMonitor

/-- A polynomial modulo `X ^ size + 1`. -/
structure Poly (R : Type) where
  coeffs : Array R
  deriving DecidableEq

namespace Poly

variable {R : Type}

/-- The number of coefficients. -/
def size (p : Poly R) : Nat := p.coeffs.size

/-- Coefficient `i`, and zero beyond the last one. -/
def coeff [Zero R] (p : Poly R) (i : Nat) : R := p.coeffs.getD i 0

/-- The polynomial with the same coefficient everywhere. -/
def replicate (n : Nat) (c : R) : Poly R := ⟨Array.replicate n c⟩

/-- The zero polynomial. -/
def zero [Zero R] (n : Nat) : Poly R := replicate n 0

/-- The polynomial with coefficients `f 0, …, f (n - 1)`. -/
def ofFn (n : Nat) (f : Nat → R) : Poly R := ⟨Array.ofFn fun i : Fin n => f i⟩

/-- Applies a function to every coefficient. -/
def map {S : Type} (f : R → S) (p : Poly R) : Poly S := ⟨p.coeffs.map f⟩

/-- Coefficientwise sum. -/
def add [Add R] (p q : Poly R) : Poly R := ⟨Array.zipWith (· + ·) p.coeffs q.coeffs⟩

/-- Coefficientwise difference. -/
def sub [Sub R] (p q : Poly R) : Poly R := ⟨Array.zipWith (· - ·) p.coeffs q.coeffs⟩

/-- Coefficientwise opposite. -/
def neg [Neg R] (p : Poly R) : Poly R := p.map (- ·)

/-- The product with a constant. -/
def scale [Mul R] (c : R) (p : Poly R) : Poly R := p.map (c * ·)

/-- Adds `c` to the constant coefficient. -/
def addConstant [Add R] (p : Poly R) (c : R) : Poly R := ⟨p.coeffs.modify 0 (· + c)⟩

/-- The constant polynomial `c`. -/
def constant [Zero R] (n : Nat) (c : R) : Poly R := ⟨(Array.replicate n 0).setIfInBounds 0 c⟩

/-- The product with `X ^ k`, for any integer `k`; only `k` modulo `2 * size` matters. -/
def mulXPow [Zero R] [Neg R] (p : Poly R) (k : Int) : Poly R :=
  let n := p.size
  let k := (k % (2 * n : Nat)).toNat
  ofFn n fun i =>
    if k ≤ i then p.coeff (i - k)
    else if k ≤ i + n then -p.coeff (i + n - k)
    else p.coeff (i + 2 * n - k)

/-- The product with `X ^ k - 1`. -/
def mulXPowSubOne [Zero R] [Neg R] [Sub R] (p : Poly R) (k : Int) : Poly R := (p.mulXPow k).sub p

/-- The negacyclic product: the sum of the shifted copies of `q` that the nonzero coefficients of
`p` select. -/
def mul [Zero R] [Add R] [Neg R] [Mul R] [DecidableEq R] (p q : Poly R) : Poly R :=
  (List.range p.size).foldl
    (fun sum i =>
      let c := p.coeff i
      if c = 0 then sum else sum.add ((q.mulXPow i).scale c))
    (zero p.size)

/-- The product with an integer polynomial, at a cost proportional to its nonzero coefficients;
coefficients `1` and `-1` need no multiplication. -/
def mulSmall [Zero R] [Add R] [Sub R] [Neg R] [Mul R] [IntCast R] (p : Poly R) (s : Array Int) :
    Poly R :=
  (List.range s.size).foldl
    (fun sum j =>
      let d := s.getD j 0
      if d = 0 then sum
      else if d = 1 then sum.add (p.mulXPow j)
      else if d = -1 then sum.sub (p.mulXPow j)
      else sum.add ((p.mulXPow j).scale d))
    (zero p.size)

/-- The check that two polynomials have the same size. -/
def sameSize (p q : Poly R) : Outcome Unit := require (p.size = q.size) .shape

/-- The check that `n` is a ring degree. -/
def degreeOk (n : Nat) : Outcome Unit := require n.isPowerOfTwo (.degreeNotPowerOfTwo n)

@[simp] theorem size_ofFn (n : Nat) (f : Nat → R) : (ofFn n f).size = n := by simp [size, ofFn]

@[simp] theorem size_replicate (n : Nat) (c : R) : (replicate n c).size = n := by
  simp [size, replicate]

@[simp] theorem size_zero [Zero R] (n : Nat) : (zero n : Poly R).size = n := size_replicate n 0

@[simp] theorem size_map {S : Type} (f : R → S) (p : Poly R) : (p.map f).size = p.size := by
  simp [size, map]

@[simp] theorem size_add [Add R] (p q : Poly R) : (p.add q).size = min p.size q.size := by
  simp [size, add]

@[simp] theorem size_sub [Sub R] (p q : Poly R) : (p.sub q).size = min p.size q.size := by
  simp [size, sub]

@[simp] theorem size_neg [Neg R] (p : Poly R) : p.neg.size = p.size := size_map _ p

@[simp] theorem size_scale [Mul R] (c : R) (p : Poly R) : (p.scale c).size = p.size :=
  size_map _ p

@[simp] theorem size_addConstant [Add R] (p : Poly R) (c : R) :
    (p.addConstant c).size = p.size := by
  simp [size, addConstant]

@[simp] theorem size_constant [Zero R] (n : Nat) (c : R) : (constant n c).size = n := by
  simp [size, constant]

@[simp] theorem size_mulXPow [Zero R] [Neg R] (p : Poly R) (k : Int) :
    (p.mulXPow k).size = p.size := size_ofFn _ _

theorem coeff_of_lt [Zero R] {p : Poly R} {i : Nat} (h : i < p.coeffs.size) :
    p.coeff i = p.coeffs[i] := by
  simp [coeff, Array.getD, h]

theorem coeff_of_le [Zero R] {p : Poly R} {i : Nat} (h : p.size ≤ i) : p.coeff i = 0 := by
  simp only [size] at h
  simp [coeff, Array.getD, Nat.not_lt.mpr h]

@[simp] theorem coeff_ofFn [Zero R] {n i : Nat} (f : Nat → R) (h : i < n) :
    (ofFn n f).coeff i = f i := by
  simp [coeff, ofFn, h]

theorem coeff_add [Zero R] [Add R] {p q : Poly R} {i : Nat} (hp : i < p.size) (hq : i < q.size) :
    (p.add q).coeff i = p.coeff i + q.coeff i := by
  have h : i < (p.add q).size := by simp; omega
  rw [coeff_of_lt h, coeff_of_lt hp, coeff_of_lt hq]; simp [add]; rfl

theorem coeff_sub [Zero R] [Sub R] {p q : Poly R} {i : Nat} (hp : i < p.size) (hq : i < q.size) :
    (p.sub q).coeff i = p.coeff i - q.coeff i := by
  have h : i < (p.sub q).size := by simp; omega
  rw [coeff_of_lt h, coeff_of_lt hp, coeff_of_lt hq]; simp [sub]; rfl

theorem coeff_map [Zero R] {S : Type} [Zero S] (f : R → S) {p : Poly R} {i : Nat}
    (h : i < p.size) : (p.map f).coeff i = f (p.coeff i) := by
  have h' : i < (p.map f).size := by simpa
  rw [coeff_of_lt h', coeff_of_lt h]; simp [map]; rfl

/-- Polynomials of one size are equal when their coefficients are. -/
theorem ext_coeff [Zero R] {p q : Poly R} (hs : p.size = q.size)
    (h : ∀ i, i < p.size → p.coeff i = q.coeff i) : p = q := by
  obtain ⟨p⟩ := p
  obtain ⟨q⟩ := q
  congr 1
  apply Array.ext hs
  intro i hp hq
  have := h i hp
  rwa [coeff_of_lt (p := ⟨p⟩) hp, coeff_of_lt (p := ⟨q⟩) hq] at this

end Poly

end CipherMonitor
