import CipherMonitor.Source.Normal

/-!
# The discretized torus

A word of `w` bits stands for the multiple `x / 2 ^ w` of the real torus; addition, negation and
products with integers are those of `BitVec w`.  Words of different widths are compared through
their position in the 64-bit torus.

* `Torus.toWide`, `Torus.ofWide` — embedding into the 64-bit torus and rounding back.
* `Torus.toFloat`, `Torus.ofFloat` — the centered real number of a word, and the nearest word.
* `Torus.modSwitch` — the nearest multiple of a coarser power of two.
* `Torus.addNoise` — normal noise, given as a fraction of the torus.
-/

namespace CipherMonitor

/-- Noise of deviation `sigma`, cut off at six deviations. -/
def noise (sigma : Float) : Outcome BoundedNormal := BoundedNormal.make sigma (sixSigma * sigma)

namespace Torus

variable {w : Nat}

/-- The word at the same place in the 64-bit torus. -/
def toWide (x : BitVec w) : BitVec 64 := BitVec.ofNat 64 (x.toNat * 2 ^ (64 - w))

/-- The nearest word of `w` bits, a half going up. -/
def ofWide (w : Nat) (x : BitVec 64) : BitVec w :=
  BitVec.ofNat w ((x.toNat + 2 ^ 64 / 2 ^ (w + 1)) / 2 ^ (64 - w))

/-- The product with an integer. -/
def scale (x : BitVec w) (d : Int) : BitVec w := BitVec.ofInt w d * x

/-- The product with a power of two. -/
def shiftLeft (x : BitVec w) (bits : Nat) : BitVec w := if w ≤ bits then 0 else x <<< bits

/-- The real number in `[-1/2, 1/2)` that the word stands for. -/
def toFloat (x : BitVec w) : Float := Float.ofInt x.toInt / Float.scaleB 1.0 w

/-- The word nearest to a real number modulo one. -/
def ofFloat (w : Nat) (x : Float) : BitVec w :=
  Binary64.roundToWord w ((x - x.floor) * Float.scaleB 1.0 w)

/-- The nearest multiple of `1 / twoN`, as a number below `twoN`. -/
def modSwitch (x : BitVec w) (twoN : Nat) : Outcome Nat := do
  require (twoN.isPowerOfTwo) .shape
  let shift := 64 - Nat.log2 twoN
  require (shift < 64) .arithmetic
  pure ((toWide x + BitVec.ofNat 64 (2 ^ (shift - 1))).toNat / 2 ^ shift)

/-- Adds noise to every word. -/
def addNoise (d : BoundedNormal) (xs : Array (BitVec w)) : Draw (Array (BitVec w)) :=
  xs.mapM fun x => do
    let e ← d.sample
    pure (x + ofFloat w e)

/-- One word of noise. -/
def noiseWord (d : BoundedNormal) (w : Nat) : Draw (BitVec w) := do
  let e ← d.sample
  pure (ofFloat w e)

/-- One eighth of the torus: the phase of an accepting verdict. -/
def eighth : BitVec 32 := 0x20000000

/-- One quarter of the torus. -/
def quarter : BitVec 32 := 0x40000000

end Torus

end CipherMonitor
