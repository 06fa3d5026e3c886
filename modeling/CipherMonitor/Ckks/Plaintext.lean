import CipherMonitor.Ckks.Parameters
import CipherMonitor.Poly.Modular

/-!
# Plaintexts

A real number `v` is stored as the integer nearest to `v * scale` in one coefficient.

* `Ckks.Plaintext` — an integer polynomial with its level, modulus and scale.
* `Ckks.encode`, `Ckks.encodeAll` — one number in the constant coefficient, or one per coefficient.
* `Ckks.Plaintext.decode`, `Ckks.Plaintext.decodeAll` — the numbers held.
-/

namespace CipherMonitor.Ckks

/-- A polynomial modulo `2 ^ logQ` on a level, whose numbers are multiplied by the scale. -/
structure Plaintext where
  poly : Poly Int
  level : Nat
  logQ : Nat
  scale : Float
  deriving DecidableEq

/-- The integer nearest to `v * scale`, if it is below half of the modulus. -/
def quantize (v scale : Float) (logQ : Nat) (bound : Float) : Outcome Int :=
  let x := Binary64.round (v * scale)
  match (Binary64.ofFloat x).truncate? with
  | some n =>
    if x.abs >= bound then .error (.ckks (.encodingOverflow v scale logQ)) else .ok n
  | none => .error (.ckks (.encodingOverflow v scale logQ))

/-- Encodes one number per coefficient, from the constant one on. -/
def encodeAll (p : Parameters) (values : List Float) (level : Nat) (scale : Float) :
    Outcome Plaintext := do
  let levels ← p.levels
  if levels ≤ level then
    let top ← p.topLevel
    throw (.ckks (.invalidTargetLevel top level))
  else
    require (values.length ≤ p.ringDegree) (.valueCount values.length p.ringDegree)
    let logQ ← p.logQ level
    require (0 < logQ) .arithmetic
    if Binary64.log2 scale >= (logQ - 1).toFloat then
      throw (.ckks (.scaleOutOfBounds (Binary64.log2 scale) logQ))
    else
      require (logQ ≠ 2 ^ 31) .arithmetic
      let coeffs ← values.mapM fun v => quantize v scale logQ (powTwo (logQ - 1))
      let poly := Poly.ofFn p.ringDegree fun i => coeffs.getD i 0
      pure { poly := poly.reduce logQ, level, logQ, scale }

/-- Encodes a number in the constant coefficient. -/
def encode (p : Parameters) (value : Float) (level : Nat) (scale : Float) : Outcome Plaintext :=
  encodeAll p [value] level scale

namespace Plaintext

/-- The number of a coefficient. -/
def toNumber (t : Plaintext) (c : Int) : Float := Binary64.ofIntTowardZero c / t.scale

/-- The number in the constant coefficient. -/
def decode (t : Plaintext) : Outcome Float := do
  let c ← Poly.Checked.centered t.poly 0 t.logQ
  pure (t.toNumber c)

/-- The numbers of all coefficients. -/
def decodeAll (t : Plaintext) : Outcome (List Float) := do
  require (t.poly.size = 0 ∨ 0 < t.logQ) .arithmetic
  pure ((t.poly.centeredCoeffs t.logQ).toList.map t.toNumber)

end Plaintext

end CipherMonitor.Ckks
