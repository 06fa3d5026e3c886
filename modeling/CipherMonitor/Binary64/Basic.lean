import CipherMonitor.Number

/-!
# Binary floating-point numbers as exact values

A `Float` is decoded into a sign, a mantissa and a power of two; everything that has to be exact
(printing, reading, conversion to integers) works on the decoded form.

* `Binary64` / `Binary64.ofFloat` — the exact value of a double.
* `Binary64.truncate`, `Binary64.clamp` — conversion to integers, toward zero.
* `Binary64.nearest?` — conversion to the nearest integer.
* `Binary64.ofRatio` — the double nearest to a quotient, ties to the even mantissa.
* `Binary64.ofIntTowardZero` — the double nearest to an integer on the side of zero.
* `Binary64.round`, `Binary64.twoPow` — the nearest whole number, and powers of two, as doubles.
* `Binary64.log2` — the logarithm of a double to base two.
-/

namespace CipherMonitor

/-- The value of a double: a finite one is `± mantissa · 2 ^ exponent`. -/
inductive Binary64
  | nan
  | infinite (negative : Bool)
  | finite (negative : Bool) (mantissa : Nat) (exponent : Int)
  deriving Repr, DecidableEq

namespace Binary64

/-- Reads the sign, exponent and fraction fields of a bit pattern. -/
def ofBits (bits : Nat) : Binary64 :=
  let negative := bits / 2 ^ 63 % 2 == 1
  let field : Nat := bits / 2 ^ 52 % 2 ^ 11
  let fraction := bits % 2 ^ 52
  if field = 2047 then
    if fraction = 0 then .infinite negative else .nan
  else if field = 0 then .finite negative fraction (-1074)
  else .finite negative (2 ^ 52 + fraction) ((field : Int) - 1075)

/-- The exact value of a double. -/
def ofFloat (x : Float) : Binary64 := ofBits x.toBits.toNat

/-- The integer part, toward zero; not-a-number and the infinities have none. -/
def truncate? : Binary64 → Option Int
  | .finite negative m e =>
    let magnitude : Nat := if 0 ≤ e then m * 2 ^ e.toNat else m / 2 ^ (-e).toNat
    some (if negative then -(magnitude : Int) else magnitude)
  | _ => none

/-- The nearest integer, a half going away from zero; not-a-number and the infinities have none. -/
def nearest? : Binary64 → Option Int
  | .finite negative m e =>
    let magnitude : Nat :=
      if 0 ≤ e then m * 2 ^ e.toNat else (m + 2 ^ ((-e).toNat - 1)) / 2 ^ (-e).toNat
    some (if negative then -(magnitude : Int) else magnitude)
  | _ => none

/-- The integer part toward zero of a finite value, and `0` for all others. -/
def truncate (x : Binary64) : Int := x.truncate?.getD 0

/-- The integer part toward zero, limited to `lo..hi`; not-a-number becomes `0`. -/
def clamp (lo hi : Int) : Binary64 → Int
  | .nan => 0
  | .infinite true => lo
  | .infinite false => hi
  | .finite negative m e => max lo (min hi (Binary64.finite negative m e).truncate)

/-- The bit pattern of a sign with a magnitude pattern; patterns past the largest finite double
become the infinity. -/
def withSign (negative : Bool) (magnitude : Nat) : Float :=
  let bits := min magnitude (2047 * 2 ^ 52)
  Float.ofBits (UInt64.ofNat (if negative then 2 ^ 63 + bits else bits))

/-- The exponent `e` of the mantissa unit used for the quotient `num / den`: the mantissa
`num / (den · 2 ^ e)` is below `2 ^ 53`, and `e` is as small as that and the subnormal range
allow. -/
def unitExponent (num den : Nat) : Int :=
  let e : Int := (Nat.log2 num : Int) - Nat.log2 den - 53
  let quotient := if 0 ≤ e then num / (den * 2 ^ e.toNat) else num * 2 ^ (-e).toNat / den
  max (-1074) (if 2 ^ 53 ≤ quotient then e + 1 else e)

/-- Division rounded to the nearest integer, ties to the even one. -/
def divRoundEven (num den : Nat) : Nat :=
  let q := num / den
  let r := num % den
  if 2 * r < den then q else if 2 * r = den ∧ q % 2 = 0 then q else q + 1

/-- The double nearest to `± num / den`, ties to the even mantissa. -/
def ofRatio (negative : Bool) (num den : Nat) : Float :=
  if num = 0 then withSign negative 0
  else
    let e := unitExponent num den
    let mantissa :=
      if 0 ≤ e then divRoundEven num (den * 2 ^ e.toNat) else divRoundEven (num * 2 ^ (-e).toNat) den
    withSign negative ((e + 1074).toNat * 2 ^ 52 + mantissa)

/-- The double nearest to an integer among those not farther from zero. -/
def ofIntTowardZero (x : Int) : Float :=
  let excess := Nat.log2 x.natAbs - 52
  ofRatio (x < 0) (x.natAbs / 2 ^ excess * 2 ^ excess) 1

/-- The nearest whole number, a half going away from zero and the sign kept; not-a-number and the
infinities stay what they are. -/
def round (x : Float) : Float :=
  let value := ofFloat x
  match value, value.nearest? with
  | .finite negative _ _, some n => ofRatio negative n.natAbs 1
  | _, _ => x

/-- The power of two, infinite when it is past the largest finite double. -/
def twoPow (n : Nat) : Float := withSign false ((n + 1023) * 2 ^ 52)

/-- The logarithm to base two.  That of a power of two is its exponent, which is read off the bit
pattern. -/
def log2 (x : Float) : Float :=
  match ofFloat x with
  | .finite false m e =>
    let exponent : Int := e + Nat.log2 m
    if m = 2 ^ Nat.log2 m then ofRatio (exponent < 0) exponent.natAbs 1 else x.log2
  | _ => x.log2

/-- The word of `w` bits of the nearest integer, a half going away from zero; values without
integer part give `0`. -/
def roundToWord (w : Nat) (x : Float) : BitVec w := BitVec.ofInt w ((ofFloat x).nearest?.getD 0)

end Binary64

end CipherMonitor
