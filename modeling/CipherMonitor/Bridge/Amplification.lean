import CipherMonitor.Ckks.Arithmetic
import CipherMonitor.Glwe.Basic

/-!
# From the approximate scheme to the torus

A value bounded by a reference is multiplied until it fills the modulus, and the polynomials of its
ciphertext are then read as words of 64 bits.

* `factorIn`, `amplificationFactor`, `amplify` — the multiplication by a whole number.
* `torusWord` — a coefficient modulo a power of two as a word; the sign is kept.
* `reduceToTorus` — the ring ciphertext of the same phase.
-/

namespace CipherMonitor

open Ckks

/-- The fraction of half of the modulus that an amplified value may reach. -/
def amplifyMargin : Float := 0.9

/-- The whole number, at least one, that is nearest to the margin of half of the modulus divided by
the largest coefficient of a bounded value, in numbers `α` that are rounded to `β`. -/
def factorIn {α β : Type} [Mul α] [Div α] [OfNat α 2] [OfNat β 1] [LT β] [DecidableLT β]
    (round : α → β) (modulus margin scale reference : α) : β :=
  let f := round (modulus * margin / (2 * reference * scale))
  if 1 < f then f else 1

/-- The whole number, at least one, that brings values up to the reference close to half of the
modulus `2 ^ logQ`. -/
def amplificationFactor (logQ : Nat) (scale reference : Float) : Float :=
  factorIn Binary64.round (powTwo logQ) amplifyMargin scale reference

/-- Multiplies by the amplification factor; level and scale stay the same. -/
def amplify (params : Parameters) (c : Ciphertext) (reference : Float) : Outcome Ciphertext := do
  let f := amplificationFactor c.logQ c.scale reference
  c.multiplyPlain (← encode params f c.level 1.0)

/-- `x * 2 ^ 64 / 2 ^ logQ` rounded to the nearest integer, a half going up. -/
def rescaleToTorus (x : Int) (logQ : Nat) : Int := (x * 2 ^ 64 + 2 ^ (logQ - 1)) / 2 ^ logQ

/-- An integer brought into `0..bound`, where negative ones and those of more than 64 bits become the
bound. -/
def saturate (bound v : Int) : Int := if v < 0 ∨ 2 ^ 64 ≤ v then bound else min v bound

/-- The word of a coefficient: the upper half of the residues modulo `2 ^ logQ` stands for negative
numbers, whose magnitude is rounded and negated; others stop below `2 ^ 63`. -/
def torusWord (c : Int) (logQ : Nat) : BitVec 64 :=
  if 2 ^ (logQ - 1) ≤ c then
    -BitVec.ofInt 64 (saturate (2 ^ 63) (rescaleToTorus (2 ^ logQ - c) logQ))
  else BitVec.ofInt 64 (saturate (2 ^ 63 - 1) (rescaleToTorus c logQ))

/-- The word of a coefficient modulo at least two. -/
def torusWordChecked (c : Int) (logQ : Nat) : Outcome (BitVec 64) := do
  require (0 < logQ) .arithmetic
  pure (torusWord c logQ)

/-- The words of a polynomial. -/
def torusPoly (p : Poly Int) (logQ : Nat) : TorusPoly 64 := ⟨p.coeffs.map (torusWord · logQ)⟩

/-- The ring ciphertext of the phase of a ciphertext of two polynomials. -/
def reduceToTorus (c : Ciphertext) : Outcome (Glwe 64) :=
  match c.polys with
  | [b, a] => do
    require (0 < c.logQ ∨ b.size + a.size = 0) .arithmetic
    pure ⟨torusPoly b c.logQ, torusPoly a c.logQ⟩
  | polys => .error (.ckks (.unsupportedSize polys.length))

end CipherMonitor
