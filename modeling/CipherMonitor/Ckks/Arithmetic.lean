import CipherMonitor.Ckks.Ciphertext

/-!
# Arithmetic on ciphertexts

Additive operations need operands on one level and of one scale, products only one level; nothing
is aligned implicitly.

* `Ckks.Ciphertext.add`, `sub`, `negate` — linear operations.
* `Ckks.Ciphertext.addPlain`, `subPlain`, `multiplyPlain` — operations with a plaintext.
* `Ckks.Ciphertext.multiply`, `square` — products, of three polynomials.
* `Ckks.Ciphertext.rescale`, `modSwitch`, `normalize` — moving down the levels.
-/

namespace CipherMonitor.Ckks

/-- Levels and scales have to agree. -/
def aligned (levelA : Nat) (scaleA : Float) (levelB : Nat) (scaleB : Float) : Outcome Unit :=
  if levelA ≠ levelB then .error (.ckks (.levelMismatch levelA levelB))
  else if scaleA != scaleB then .error (.ckks (.scaleMismatch scaleA scaleB))
  else .ok ()

namespace Ciphertext

/-- Combines polynomials in pairs; what the first list has more stays as it is. -/
def zipLong (f : Poly Int → Poly Int → Poly Int) : List (Poly Int) → List (Poly Int) →
    List (Poly Int)
  | p :: ps, q :: qs => f p q :: zipLong f ps qs
  | ps, [] => ps
  | [], _ :: _ => []

/-- The check that the polynomials of two ciphertexts can be combined. -/
def sameDegree (a b : Ciphertext) : Outcome Unit :=
  require (a.polys = [] ∨ b.polys = [] ∨ a.degree = b.degree) .shape

/-- The sum; it has as many polynomials as the longer operand. -/
def add (a b : Ciphertext) : Outcome Ciphertext := do
  aligned a.level a.scale b.level b.scale
  sameDegree a b
  let (long, short) := if b.size ≤ a.size then (a, b) else (b, a)
  pure { long with polys := zipLong (fun p q => p.addMod q a.logQ) long.polys short.polys }

/-- The difference; missing polynomials of the first operand count as zero. -/
def sub (a b : Ciphertext) : Outcome Ciphertext := do
  aligned a.level a.scale b.level b.scale
  sameDegree a b
  let padded := a.polys ++ List.replicate (b.size - a.size) (Poly.zero b.degree)
  pure { a with polys := zipLong (fun p q => p.subMod q a.logQ) padded b.polys }

/-- The opposite. -/
def negate (a : Ciphertext) : Ciphertext := { a with polys := a.polys.map (·.negMod a.logQ) }

/-- Applies a function to the first polynomial and the plaintext. -/
def withFirst (f : Poly Int → Poly Int → Nat → Poly Int) (a : Ciphertext) (t : Plaintext) :
    Outcome Ciphertext := do
  aligned a.level a.scale t.level t.scale
  match a.polys with
  | [] => throw (.breach .index)
  | p :: ps =>
    p.sameSize t.poly
    pure { a with polys := f p t.poly a.logQ :: ps }

/-- The sum with a plaintext. -/
def addPlain (a : Ciphertext) (t : Plaintext) : Outcome Ciphertext := withFirst Poly.addMod a t

/-- The difference with a plaintext. -/
def subPlain (a : Ciphertext) (t : Plaintext) : Outcome Ciphertext := withFirst Poly.subMod a t

/-- The product with a plaintext of the same level; the scales multiply. -/
def multiplyPlain (a : Ciphertext) (t : Plaintext) : Outcome Ciphertext :=
  if a.level ≠ t.level then .error (.ckks (.levelMismatch a.level t.level))
  else do
    require (a.polys = [] ∨ t.poly.size = a.degree) .shape
    pure { a with
      polys := a.polys.map fun p => t.poly.mulMod p a.logQ
      scale := a.scale * t.scale }

/-- The product of two ciphertexts of two polynomials. -/
def multiply (a b : Ciphertext) : Outcome Ciphertext :=
  if a.level ≠ b.level then .error (.ckks (.levelMismatch a.level b.level))
  else
    match a.polys, b.polys with
    | [a0, a1], [b0, b1] => do
      a0.sameSize b0
      let q := a.logQ
      pure { a with
        polys := [a0.mulMod b0 q, (a0.mulMod b1 q).addMod (a1.mulMod b0 q) q, a1.mulMod b1 q]
        scale := a.scale * b.scale }
    | [_, _], ps => .error (.ckks (.unsupportedSize ps.length))
    | ps, _ => .error (.ckks (.unsupportedSize ps.length))

/-- The square of a ciphertext of two polynomials. -/
def square (a : Ciphertext) : Outcome Ciphertext :=
  match a.polys with
  | [a0, a1] =>
    let q := a.logQ
    .ok { a with
      polys := [a0.mulMod a0 q, (a0.mulMod a1 q).scaleMod 2 q, a1.mulMod a1 q]
      scale := a.scale * a.scale }
  | ps => .error (.ckks (.unsupportedSize ps.length))

/-- Divides by the top modulus factor and drops one level. -/
def rescale (p : Parameters) (a : Ciphertext) : Outcome Ciphertext :=
  if a.level = 0 then .error (.ckks .endOfModulusChain)
  else do
    let bits ← p.rescaleBits a.level
    require (bits ≤ a.logQ) .arithmetic
    let q := a.logQ - bits
    pure
      { polys := a.polys.map (·.divRoundMod bits q)
        level := a.level - 1
        logQ := q
        scale := a.scale / powTwo bits }

/-- Drops to a level without touching the scale. -/
def modSwitch (p : Parameters) (a : Ciphertext) (level : Nat) : Outcome Ciphertext :=
  if a.level < level then .error (.ckks (.invalidTargetLevel a.level level))
  else do
    let q ← p.logQ level
    pure { a with polys := a.polys.map (·.reduce q), level, logQ := q }

/-- Drops one level without touching the scale. -/
def modSwitchNext (p : Parameters) (a : Ciphertext) : Outcome Ciphertext :=
  if a.level = 0 then .error (.ckks .endOfModulusChain) else a.modSwitch p (a.level - 1)

/-- Rescales at most `steps` times, while the scale is above twice the nominal one. -/
def rescaleDown (p : Parameters) : (steps : Nat) → Ciphertext → Outcome Ciphertext
  | 0, a => .ok a
  | steps + 1, a =>
    if a.scale > 2.0 * p.scale then do
      let next ← a.rescale p
      rescaleDown p steps next
    else .ok a

/-- Rescales while the scale is above twice the nominal one, then drops the remaining levels. -/
def normalize (p : Parameters) (a : Ciphertext) : Outcome Ciphertext := do
  let a ← rescaleDown p a.level a
  if 0 < a.level then a.modSwitch p 0 else pure a

end Ciphertext

end CipherMonitor.Ckks
