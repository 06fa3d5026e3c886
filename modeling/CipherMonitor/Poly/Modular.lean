import CipherMonitor.Bytes.LittleEndian
import CipherMonitor.Poly.Basic
import CipherMonitor.Torus

/-!
# Polynomials modulo a power of two

Integer polynomials whose coefficients are kept in `[0, 2 ^ logQ)`.  The modulus is not part of the
polynomial, so every operation is given the one to reduce by.

* `Poly.reduce`, `Poly.addMod`, `Poly.subMod`, `Poly.negMod`, `Poly.mulMod`, … — the arithmetic.
* `Poly.divRoundMod` — rounded division by a power of two.
* `Poly.centered` — the representative of a coefficient around zero.
* `Poly.toBytes`, `Poly.ofBytes?` — coefficients in fixed width.
-/

namespace CipherMonitor

/-- The number modulo `2 ^ logQ`. -/
def keepBits (x : Int) (logQ : Nat) : Int := x % 2 ^ logQ

/-- Floor division by `2 ^ bits` after adding a half: the nearest integer, a half going up. -/
def divRound (x : Int) (bits : Nat) : Int :=
  if bits = 0 then x else (x + 2 ^ (bits - 1)) / 2 ^ bits

/-- The representative of `x` modulo `2 ^ logQ` in `[-2 ^ (logQ - 1), 2 ^ (logQ - 1))`, for an `x` in
`[0, 2 ^ logQ)`. -/
def center (x : Int) (logQ : Nat) : Int :=
  if x / 2 ^ (logQ - 1) % 2 = 1 then x - 2 ^ logQ else x

/-- The number of bytes of a coefficient. -/
def coeffBytes (logQ : Nat) : Nat := (logQ + 7) / 8

namespace Poly

/-- Reduces every coefficient. -/
def reduce (p : Poly Int) (logQ : Nat) : Poly Int := p.map (keepBits · logQ)

/-- Reduced sum. -/
def addMod (p q : Poly Int) (logQ : Nat) : Poly Int := (p.add q).reduce logQ

/-- Reduced difference. -/
def subMod (p q : Poly Int) (logQ : Nat) : Poly Int := (p.sub q).reduce logQ

/-- Reduced opposite. -/
def negMod (p : Poly Int) (logQ : Nat) : Poly Int := p.neg.reduce logQ

/-- Reduced product with a constant. -/
def scaleMod (c : Int) (p : Poly Int) (logQ : Nat) : Poly Int := (p.scale c).reduce logQ

/-- Reduced negacyclic product. -/
def mulMod (p q : Poly Int) (logQ : Nat) : Poly Int := (p.mul q).reduce logQ

/-- Reduced negacyclic product with a short vector, such as a secret. -/
def mulSmallMod (p : Poly Int) (s : Array Int) (logQ : Nat) : Poly Int :=
  (p.mulSmall s).reduce logQ

/-- Adds to the constant coefficient and reduces it. -/
def addConstantMod (p : Poly Int) (c : Int) (logQ : Nat) : Poly Int :=
  ⟨p.coeffs.modify 0 fun x => keepBits (x + c) logQ⟩

/-- Rounded division of every coefficient; dividing by one leaves the polynomial as it is. -/
def divRoundMod (p : Poly Int) (bits logQ : Nat) : Poly Int :=
  if bits = 0 then p else p.map fun x => keepBits (divRound x bits) logQ

/-- Coefficient `i` around zero. -/
def centered (p : Poly Int) (i logQ : Nat) : Int := center (p.coeff i) logQ

/-- All coefficients around zero. -/
def centeredCoeffs (p : Poly Int) (logQ : Nat) : Array Int := p.coeffs.map (center · logQ)

/-- The magnitudes of the coefficients, each in as many bytes as the modulus has. -/
def toBytes (p : Poly Int) (logQ : Nat) : List UInt8 :=
  p.coeffs.toList.flatMap fun c => Bytes.ofNat (coeffBytes logQ) c.natAbs

/-- The first `n` pieces of `width` bytes as reduced coefficients. -/
def coeffsOfBytes (width logQ : Nat) : (n : Nat) → List UInt8 → List Int
  | 0, _ => []
  | n + 1, bytes =>
    keepBits (Bytes.toNat (bytes.take width)) logQ :: coeffsOfBytes width logQ n (bytes.drop width)

/-- The polynomial with `n` coefficients in the given bytes, unless their number is wrong. -/
def ofBytes? (n logQ : Nat) (bytes : List UInt8) : Option (Poly Int) :=
  if bytes.length = n * coeffBytes logQ then
    some ⟨(coeffsOfBytes (coeffBytes logQ) logQ n bytes).toArray⟩
  else none

/-- A uniform polynomial with `n` coefficients in `[0, 2 ^ logQ)`. -/
def uniformMod (n logQ : Nat) : Draw (Poly Int) := do
  let coeffs ← Draw.many n do
    let bytes ← Draw.bytes (coeffBytes logQ)
    pure (keepBits (Bytes.toNat bytes) logQ)
  pure ⟨coeffs.toArray⟩

/-- A noise term rounded to an integer of 64 bits. -/
def roundedNoise (e : Float) : Int :=
  (Binary64.ofFloat e.round).clamp (-9223372036854775808) 9223372036854775807

/-- Adds rounded noise to every coefficient, without reducing. -/
def addRoundedNoise (p : Poly Int) (d : BoundedNormal) : Draw (Poly Int) := do
  let coeffs ← p.coeffs.mapM fun c => do
    let e ← d.sample
    pure (c + roundedNoise e)
  pure ⟨coeffs⟩

@[simp] theorem size_reduce (p : Poly Int) (logQ : Nat) : (p.reduce logQ).size = p.size :=
  size_map _ p

@[simp] theorem size_addMod (p q : Poly Int) (logQ : Nat) :
    (p.addMod q logQ).size = min p.size q.size := by simp [addMod]

@[simp] theorem size_subMod (p q : Poly Int) (logQ : Nat) :
    (p.subMod q logQ).size = min p.size q.size := by simp [subMod]

@[simp] theorem size_negMod (p : Poly Int) (logQ : Nat) : (p.negMod logQ).size = p.size := by
  simp [negMod]

@[simp] theorem size_scaleMod (c : Int) (p : Poly Int) (logQ : Nat) :
    (p.scaleMod c logQ).size = p.size := by simp [scaleMod]

@[simp] theorem size_divRoundMod (p : Poly Int) (bits logQ : Nat) :
    (p.divRoundMod bits logQ).size = p.size := by
  unfold divRoundMod; split <;> simp

end Poly

/-! ### Checked operations: sizes have to agree, indices to exist -/

namespace Poly.Checked

/-- Reduced sum. -/
def addMod (p q : Poly Int) (logQ : Nat) : Outcome (Poly Int) := do
  p.sameSize q
  pure (p.addMod q logQ)

/-- Reduced difference. -/
def subMod (p q : Poly Int) (logQ : Nat) : Outcome (Poly Int) := do
  p.sameSize q
  pure (p.subMod q logQ)

/-- Reduced product. -/
def mulMod (p q : Poly Int) (logQ : Nat) : Outcome (Poly Int) := do
  p.sameSize q
  pure (p.mulMod q logQ)

/-- Reduced product with a short vector. -/
def mulSmallMod (p : Poly Int) (s : Array Int) (logQ : Nat) : Outcome (Poly Int) := do
  require (s.size = p.size) .shape
  pure (p.mulSmallMod s logQ)

/-- Adds to the constant coefficient. -/
def addConstantMod (p : Poly Int) (c : Int) (logQ : Nat) : Outcome (Poly Int) := do
  require (0 < p.size) .index
  pure (p.addConstantMod c logQ)

/-- Coefficient `i` around zero, for a modulus larger than one. -/
def centered (p : Poly Int) (i logQ : Nat) : Outcome Int := do
  require (i < p.size) .index
  require (0 < logQ) .arithmetic
  pure (p.centered i logQ)

/-- Reads `n` coefficients; a modulus of one has coefficients of no bytes, which cannot be cut. -/
def ofBytes (n logQ : Nat) (bytes : List UInt8) : Outcome (Option (Poly Int)) := do
  require (n * coeffBytes logQ < 2 ^ 64) .arithmetic
  require (bytes.length ≠ n * coeffBytes logQ ∨ 0 < logQ) .shape
  pure (Poly.ofBytes? n logQ bytes)

/-- Adds rounded noise to every coefficient. -/
def addRoundedNoise (p : Poly Int) (sigma bound : Float) : Draw (Poly Int) := do
  let d ← BoundedNormal.make sigma bound
  p.addRoundedNoise d

end Poly.Checked

end CipherMonitor
