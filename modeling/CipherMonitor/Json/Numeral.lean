import CipherMonitor.Binary64.Shortest

/-!
# Numerals of JSON texts

A numeral is kept as it is written, so that an integer is told from a fraction and a numeral that
nobody reads may denote any number.

* `Numeral` — sign, whole part, fraction and exponent, each as its digits.
* `Numeral.toNat?`, `Numeral.ofNat` — natural numbers.
* `Numeral.toFloat?`, `Numeral.ofFloat?` — doubles.
-/

namespace CipherMonitor.Json

/-- A numeral by its parts; an exponent is a sign, true for minus, with digits. -/
structure Numeral where
  negative : Bool
  whole : List Nat
  fraction : Option (List Nat)
  exponent : Option (Bool × List Nat)
  deriving DecidableEq, Repr

/-- The number written by decimal digits. -/
def ofDigits (digits : List Nat) : Nat := digits.foldl (fun n d => 10 * n + d) 0

/-- The decimal digits of a number. -/
def digitsOf (n : Nat) : List Nat :=
  if n < 10 then [n] else digitsOf (n / 10) ++ [n % 10]
termination_by n

theorem ofDigits_append (xs : List Nat) (d : Nat) :
    ofDigits (xs ++ [d]) = 10 * ofDigits xs + d := by
  simp [ofDigits]

theorem ofDigits_digitsOf (n : Nat) : ofDigits (digitsOf n) = n := by
  fun_induction digitsOf n with
  | case1 n h => simp [ofDigits]
  | case2 n h ih => rw [ofDigits_append, ih]; omega

namespace Numeral

/-- The numeral of a natural number. -/
def ofNat (n : Nat) : Numeral :=
  { negative := false, whole := digitsOf n, fraction := none, exponent := none }

/-- The natural number of a numeral without sign, point and exponent. -/
def toNat? (n : Numeral) : Option Nat :=
  if n.negative || n.fraction.isSome || n.exponent.isSome then none else some (ofDigits n.whole)

theorem toNat?_ofNat (n : Nat) : (ofNat n).toNat? = some n := by
  simp [ofNat, toNat?, ofDigits_digitsOf]

/-! ### Reading doubles

The digits are gathered in a significand of 64 bits; digits that do not fit are dropped.  The
significand is rounded to a double and then scaled by powers of ten up to `10 ^ 308`, each step
rounded.  Short numerals are read exactly; long ones may be off in the last bits. -/

/-- Significands are smaller than this. -/
def significandBound : Nat := 2 ^ 64

/-- The digits of a whole part that fit, and the number of those dropped after them. -/
def gatherWhole (digits : List Nat) : Nat × Nat :=
  digits.foldl (fun (n, dropped) d =>
    if dropped = 0 ∧ 10 * n + d < significandBound then (10 * n + d, 0) else (n, dropped + 1)) (0, 0)

/-- Appends the digits of a fraction up to the first that does not fit; the second component counts
the digits taken. -/
def gatherFraction : (n taken : Nat) → List Nat → Nat × Nat
  | n, taken, [] => (n, taken)
  | n, taken, d :: digits =>
    if 10 * n + d < significandBound then gatherFraction (10 * n + d) (taken + 1) digits
    else (n, taken)

/-- A double times a power of ten, unless it leaves the range. -/
def scaleTen (x : Float) (exponent : Int) : Option Float :=
  if exponent < -308 then
    if x == 0.0 then some x else scaleTen (x / Binary64.ofRatio false (10 ^ 308) 1) (exponent + 308)
  else if 308 < exponent then
    if x == 0.0 then some x else none
  else
    let power := Binary64.ofRatio false (10 ^ exponent.natAbs) 1
    if exponent < 0 then some (x / power)
    else if (x * power).isInf then none else some (x * power)
termination_by (-exponent).toNat

/-- The value of the exponent part. -/
def exponentValue (n : Numeral) : Int :=
  match n.exponent with
  | none => 0
  | some (negative, digits) => if negative then -(ofDigits digits : Int) else ofDigits digits

/-- The double that a numeral denotes; numerals beyond the range denote none. -/
def toFloat? (n : Numeral) : Option Float :=
  let (whole, dropped) := gatherWhole n.whole
  let (significand, taken) := gatherFraction whole 0 (n.fraction.getD [])
  let exponent := n.exponentValue + dropped - taken
  (scaleTen (Binary64.ofRatio false significand 1) exponent).map fun x => if n.negative then -x else x

/-! ### Writing doubles -/

/-- The number of zeros that positional notation allows after the point before the first digit. -/
def leadingZeros : Nat := 4

/-- The number of whole digits that positional notation allows. -/
def wholeDigits : Nat := 16

/-- The numeral of `± digits · 10 ^ k`: positional from `10 ^ -5` to `10 ^ 16`, with at least one
digit after the point, and with an exponent and one whole digit outside of that. -/
def ofDecimal (negative : Bool) (digits : List Nat) (k : Int) : Numeral :=
  let length : Int := digits.length
  let point := length + k
  if 0 ≤ k ∧ point ≤ wholeDigits then
    { negative, whole := digits ++ List.replicate k.toNat 0, fraction := some [0], exponent := none }
  else if 0 < point ∧ point ≤ wholeDigits then
    { negative, whole := digits.take point.toNat, fraction := some (digits.drop point.toNat)
      exponent := none }
  else if -(leadingZeros : Int) ≤ point ∧ point ≤ 0 then
    { negative, whole := [0], fraction := some (List.replicate (-point).toNat 0 ++ digits)
      exponent := none }
  else
    { negative, whole := digits.take 1
      fraction := if digits.length = 1 then none else some (digits.drop 1)
      exponent := some (decide (point - 1 < 0), digitsOf (point - 1).natAbs) }

/-- The numeral of a finite double: the fewest digits that identify it, the last one even when two
are equally near. -/
def ofFloat? (x : Float) : Option Numeral :=
  match Binary64.ofFloat x with
  | .finite negative m e =>
    if m = 0 then some (ofDecimal negative [0] 0)
    else
      let (digits, k) := Binary64.shortest .even m e
      some (ofDecimal negative (digitsOf digits) k)
  | _ => none

end Numeral

end CipherMonitor.Json
