import CipherMonitor.Torus

/-!
# Gadget decomposition

A torus word is approximated by digits in base `2 ^ base2k`, most significant first: digit `i` has
the weight `2 ^ -((i + 1) * base2k)`, and what is below the last digit is rounded away.

* `Gadget` — the base and the number of digits, at most 64 bits in all.
* `Gadget.weight` — the torus word of a digit.
* `Gadget.signedDigits`, `Gadget.unsignedDigits` — the two decompositions.
* `Gadget.recompose` — the word that digits stand for.
* `Gadget.weightChecked`, `Gadget.decomposeSigned`, `Gadget.decomposeUnsigned` — the same with the
  machine's checks of shifts.
* `Gadget.decomposePoly` — the digits of all words of a polynomial, by weight.
-/

namespace CipherMonitor

/-- A base `2 ^ base2k` and a number of digits. -/
structure Gadget where
  base2k : Nat
  rows : Nat
  deriving DecidableEq, Repr

namespace Gadget

/-- Bits covered by the digits. -/
def precision (g : Gadget) : Nat := g.base2k * g.rows

/-- The base has to be larger than one, and the digits to fit 64 bits. -/
def make (base2k rows : Nat) : Outcome Gadget := do
  require (1 ≤ base2k) .gadgetBase
  require (base2k * rows < 2 ^ 64) .arithmetic
  require (base2k * rows ≤ 64) (.gadgetWidth (base2k * rows))
  pure { base2k, rows }

/-- The number of bits below digit `i` in the 64-bit torus. -/
def place (g : Gadget) (i : Nat) : Nat := 64 - (i + 1) * g.base2k

/-- The word of `w` bits that digit `i` counts; zero when it is smaller than the last bit. -/
def weight (g : Gadget) (w i : Nat) : BitVec w :=
  if w < (i + 1) * g.base2k then 0 else Torus.ofWide w (BitVec.ofNat 64 (2 ^ g.place i))

/-- The weight, when neither the width of the digits above nor the shift leaves a machine word. -/
def weightChecked (g : Gadget) (w i : Nat) : Outcome (BitVec w) := do
  require ((i + 1) * g.base2k < 2 ^ 64) .arithmetic
  require (w < (i + 1) * g.base2k ∨ (i + 1) * g.base2k ≤ 64 ∧ g.place i < 64) .arithmetic
  pure (g.weight w i)

/-- The word with half of the last digit's weight added. -/
def rounded (g : Gadget) (x : BitVec 64) : BitVec 64 :=
  if 64 ≤ g.precision then x else x + BitVec.ofNat 64 (2 ^ (63 - g.precision))

/-- Half of the base in every digit. -/
def offset (g : Gadget) : BitVec 64 :=
  (List.range g.rows).foldl
    (fun sum i => sum + BitVec.ofNat 64 (2 ^ g.base2k / 2 * 2 ^ g.place i)) 0

/-- Digit `i` of a 64-bit word. -/
def digit (g : Gadget) (x : BitVec 64) (i : Nat) : Nat :=
  x.toNat / 2 ^ g.place i % 2 ^ g.base2k

/-- Digits in `[0, 2 ^ base2k)`. -/
def unsignedDigits {w : Nat} (g : Gadget) (a : BitVec w) : List Nat :=
  (List.range g.rows).map (g.digit (g.rounded (Torus.toWide a)))

/-- Digits in `[-2 ^ (base2k - 1), 2 ^ (base2k - 1))`: half of the base is added to every digit of the
word at once, and taken away from each digit afterwards. -/
def signedDigits {w : Nat} (g : Gadget) (a : BitVec w) : List Int :=
  let x := g.rounded (Torus.toWide a) + g.offset
  (List.range g.rows).map fun i => (g.digit x i : Int) - (2 ^ g.base2k / 2 : Nat)

/-- The word that a list of digits stands for. -/
def recompose (g : Gadget) (w : Nat) (digits : List Int) : BitVec w :=
  (digits.zipIdx.map fun (d, i) => Torus.scale (g.weight w i) d).sum

/-- A word is cut into digits by shifts of a machine word, for the base and for every digit. -/
def decomposable (g : Gadget) : Outcome Unit := do
  require (g.base2k < 64) .arithmetic
  require (∀ i < g.rows, (i + 1) * g.base2k ≤ 64 ∧ g.place i < 64) .arithmetic

/-- Signed digits of a word. -/
def decomposeSigned {w : Nat} (g : Gadget) (a : BitVec w) : Outcome (List Int) := do
  g.decomposable
  pure (g.signedDigits a)

/-- Unsigned digits of a word. -/
def decomposeUnsigned {w : Nat} (g : Gadget) (a : BitVec w) : Outcome (List Nat) := do
  g.decomposable
  pure (g.unsignedDigits a)

/-- Digit `i` of every word, for every `i`: row `i` holds the digits of weight `i`. -/
def digitRows {w : Nat} (g : Gadget) (words : Array (BitVec w)) : List (Array Int) :=
  let digits := words.map g.signedDigits
  (List.range g.rows).map fun i => digits.map fun ds => ds.getD i 0

/-- The digit rows of a polynomial, whose words are decomposed one by one. -/
def decomposePoly {w : Nat} (g : Gadget) (words : Array (BitVec w)) :
    Outcome (List (Array Int)) := do
  let digits ← words.mapM g.decomposeSigned
  pure ((List.range g.rows).map fun i => digits.map fun ds => ds.getD i 0)

end Gadget

end CipherMonitor
