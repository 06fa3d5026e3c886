import CipherMonitor.Source.Basic
import CipherMonitor.Source.Ziggurat

/-!
# Normal noise

* `Draw.standardNormal` — a standard normal number, by the ziggurat method.
* `BoundedNormal` — normal noise that never leaves an interval around zero.
-/

namespace CipherMonitor

namespace Draw

/-- A number strictly between zero and one. -/
def openUnit : Draw Float := do
  let x ← word64
  pure (Float.ofBits ((x >>> 12) ||| 0x3ff0000000000000) - (1.0 - 1.1102230246251565e-16))

/-- The distance of a number of the tail from the beginning of the tail, negated. -/
def tailOffset (limit : Nat) : Draw Float := do
  let (x, _) ← drawUntil
    (do
      let a ← openUnit
      let b ← openUnit
      pure (a.log / Ziggurat.tailStart, b.log))
    (fun (x, y) => !(-2.0 * y < x * x)) limit
  pure x

/-- One attempt: a point of a layer, accepted when it is below the curve. -/
def normalAttempt (limit : Nat) : Draw (Option Float) := do
  let bits ← word64
  let i := (bits &&& 255).toNat
  let u := Float.ofBits ((bits >>> 12) ||| 0x4000000000000000) - 3.0
  let x := u * Ziggurat.edge i
  if x.abs < Ziggurat.edge (i + 1) then pure (some x)
  else if i = 0 then do
    let offset ← tailOffset limit
    pure (some (if u < 0.0 then offset - Ziggurat.tailStart else Ziggurat.tailStart - offset))
  else do
    let bits ← word64
    let part := (bits >>> 11).toFloat * 1.1102230246251565e-16
    let level := Ziggurat.height (i + 1) + (Ziggurat.height i - Ziggurat.height (i + 1)) * part
    pure (if level < (-x * x / 2.0).exp then some x else none)

/-- A standard normal number. -/
def standardNormal (limit : Nat := patience) : Draw Float := do
  let x ← drawUntil (normalAttempt limit) Option.isSome limit
  pure (x.getD 0.0)

end Draw

/-- Normal noise of standard deviation `sigma`, drawn again while it is outside of
`-bound .. bound`. -/
structure BoundedNormal where
  sigma : Float
  bound : Float

namespace BoundedNormal

/-- The deviation has to be finite, and the bound no smaller. -/
def make (sigma bound : Float) : Outcome BoundedNormal := do
  require sigma.isFinite (.deviation sigma)
  require (bound >= sigma) (.noiseBound bound sigma)
  pure { sigma, bound }

/-- One number of the distribution. -/
def sample (d : BoundedNormal) (limit : Nat := patience) : Draw Float :=
  drawUntil
    (do
      let z ← Draw.standardNormal limit
      pure (0.0 + d.sigma * z))
    (fun x => !(x.abs > d.bound)) limit

end BoundedNormal

/-- Noise is cut off at six standard deviations. -/
def sixSigma : Float := 6.0

end CipherMonitor
