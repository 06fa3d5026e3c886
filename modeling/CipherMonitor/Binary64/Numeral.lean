import CipherMonitor.Binary64.Basic

/-!
# Reading decimal numerals

`Binary64.ofNumeral?` reads a sign, then either digits with an optional point and exponent, or the
words `inf`, `infinity`, `nan` in any case, and rounds the exact decimal to the nearest double.
-/

namespace CipherMonitor.Binary64

/-- The number written by a list of decimal digits. -/
def digitsValue (digits : List Char) : Nat :=
  digits.foldl (fun n c => 10 * n + (c.toNat - '0'.toNat)) 0

/-- The double nearest to `± digits · 10 ^ exponent`, given the number of its digits from the first
nonzero one: decimals beyond every double's range are cut off before the power is computed. -/
def ofDecimal (negative : Bool) (digits length : Nat) (exponent : Int) : Float :=
  if digits = 0 then withSign negative 0
  else if 400 < exponent + length then withSign negative (2047 * 2 ^ 52)
  else if exponent + length < -400 then withSign negative 0
  else if 0 ≤ exponent then ofRatio negative (digits * 10 ^ exponent.toNat) 1
  else ofRatio negative digits (10 ^ (-exponent).toNat)

/-- Splits off a leading sign: whether it is a minus, and the rest. -/
def splitSign : List Char → Bool × List Char
  | '-' :: rest => (true, rest)
  | '+' :: rest => (false, rest)
  | text => (false, text)

/-- The exponent after the mark, with at least one digit. -/
def exponent? (text : List Char) : Option Int :=
  let (negative, digits) := splitSign text
  if digits.isEmpty || !digits.all Char.isDigit then none
  else some (if negative then -(digitsValue digits : Int) else digitsValue digits)

/-- The digits before and after the point and the power of ten, of an unsigned numeral; one of the
two runs of digits may be empty. -/
def parts? (text : List Char) : Option (List Char × List Char × Int) :=
  let whole := text.takeWhile Char.isDigit
  let rest := text.dropWhile Char.isDigit
  let (fraction, rest) :=
    match rest with
    | '.' :: r => (r.takeWhile Char.isDigit, r.dropWhile Char.isDigit)
    | r => ([], r)
  if whole.isEmpty && fraction.isEmpty then none
  else match rest with
    | [] => some (whole, fraction, 0)
    | c :: r => if c == 'e' || c == 'E' then (exponent? r).map (whole, fraction, ·) else none

/-- The double that a numeral denotes. -/
def ofNumeral? (text : String) : Option Float :=
  let (negative, body) := splitSign text.toList
  match String.ofList (body.map Char.toLower) with
  | "inf" | "infinity" => some (withSign negative (2047 * 2 ^ 52))
  | "nan" => some (0.0 / 0.0)
  | _ =>
    (parts? body).map fun (whole, fraction, exponent) =>
      let digits := (whole ++ fraction).dropWhile (· == '0')
      ofDecimal negative (digitsValue digits) digits.length (exponent - fraction.length)

end CipherMonitor.Binary64
