import CipherMonitor.Source.Basic

/-!
# Distributions of secrets

* `SecretDistribution` — binary coefficients, or ternary ones with a given probability or a given
  number of nonzero coefficients.
* `SecretDistribution.generate` — the coefficients of a secret.
* `SecretDistribution.fill` — the same, written over given coefficients with all accesses checked.
* `Shuffle` — the partial shuffle that places a given number of signs.
-/

namespace CipherMonitor

/-- How the coefficients of a secret are chosen. -/
inductive SecretDistribution
  /-- In `-1, 0, 1`, nonzero with the given probability. -/
  | ternary (p : Float)
  /-- In `-1, 0, 1`, with exactly `h` nonzero ones. -/
  | weight (h : Nat)
  /-- In `0, 1`. -/
  | binary

/-- The positions of a secret in the order in which they are chosen, and the signs placed so
far. -/
structure Shuffle where
  order : Array Nat
  signs : Array Int

namespace Shuffle

/-- All positions in ascending order, and no sign placed. -/
def start (n : Nat) : Shuffle := ⟨Array.range n, Array.replicate n 0⟩

/-- Chooses the position at `j` as number `i` and places a sign there. -/
def place (s : Shuffle) (i j : Nat) (positive : Bool) : Shuffle :=
  let order := s.order.swapIfInBounds i j
  ⟨order, s.signs.setIfInBounds (order.getD i 0) (if positive then 1 else -1)⟩

end Shuffle

namespace SecretDistribution

/-- Whether the coefficients are binary. -/
def isBinary : SecretDistribution → Bool
  | binary => true
  | _ => false

/-- A ternary coefficient that is nonzero with probability `p`. -/
def ternaryCoefficient (p : Float) : Draw Int := do
  let x ← Draw.float 0.0 1.0
  if x < p then do
    let positive ← Draw.flag
    pure (if positive then 1 else -1)
  else pure 0

/-- Places one sign at a position not yet chosen, the `i`-th of `n`. -/
def placeNext (n : Nat) (limit : Nat) (s : Shuffle) (i : Nat) : Draw Shuffle := do
  let mask := n.nextPowerOfTwo - 1
  let j ← Draw.below (UInt64.ofNat (n - i)) (UInt64.ofNat mask) limit
  let positive ← Draw.flag
  pure (s.place i (i + j.toNat) positive)

/-- The `n` coefficients of a secret. -/
def generate (d : SecretDistribution) (n : Nat) (limit : Nat := patience) : Draw (Array Int) :=
  match d with
  | ternary p => do
    require (0.0 <= p ∧ p <= 1.0) (.probability p)
    let coefficients ← Draw.many n (ternaryCoefficient p)
    pure coefficients.toArray
  | weight h => do
    require (h ≤ n) (.hammingWeight h n)
    let s ← (List.range h).foldlM (placeNext n limit) (Shuffle.start n)
    pure s.signs
  | binary => do
    let coefficients ← Draw.many n Draw.flag
    pure (coefficients.map fun b => if b then 1 else 0).toArray

/-- `placeNext` with checked arithmetic and checked accesses. -/
def placeNextChecked (n : Nat) (limit : Nat) (s : Shuffle) (i : Nat) : Draw Shuffle := do
  require (i ≤ n) .arithmetic
  let mask := n.nextPowerOfTwo - 1
  let j ← Draw.below (UInt64.ofNat (n - i)) (UInt64.ofNat mask) limit
  require (i + j.toNat < 2 ^ 64) .arithmetic
  require (i < s.order.size ∧ i + j.toNat < s.order.size) .index
  let positive ← Draw.flag
  let placed := s.place i (i + j.toNat) positive
  require (placed.order.getD i 0 < s.signs.size) .index
  pure placed

/-- Writes a secret over the coefficients `data`. -/
def fill (d : SecretDistribution) (data : Array Int) (limit : Nat := patience) : Draw (Array Int) :=
  match d with
  | ternary p => do
    require (0.0 <= p ∧ p <= 1.0) (.probability p)
    data.mapM fun _ => ternaryCoefficient p
  | weight h => do
    require (h ≤ data.size) (.hammingWeight h data.size)
    require (data.size.nextPowerOfTwo < 2 ^ 64) .arithmetic
    let cleared : Shuffle := ⟨Array.range data.size, data.map fun _ => 0⟩
    let s ← (List.range h).foldlM (placeNextChecked data.size limit) cleared
    pure s.signs
  | binary => data.mapM fun _ => do
    let positive ← Draw.flag
    pure (if positive then 1 else 0)

end SecretDistribution

end CipherMonitor
