import CipherMonitor.Binary64.Basic

/-!
# Decimal text of doubles

* `Binary64.shortest` — the fewest digits that read back, and of those the nearest; `Tie` says which
  one of two that are equally near.
* `Binary64.display` — positional notation without exponent, as messages show it.
* `Binary64.displayTenths` — one decimal place, an exact half going to the even digit.
-/

namespace CipherMonitor.Binary64

/-- The choice between two neighbours on a grid of decimals at equal distances. -/
inductive Tie
  /-- The larger one. -/
  | up
  /-- The one with an even last digit. -/
  | even
  deriving DecidableEq

/-- The one of `below` and its successor that a tie goes to. -/
def Tie.choose (tie : Tie) (below : Nat) : Nat :=
  match tie with
  | .up => below + 1
  | .even => if below % 2 = 0 then below else below + 1

/-- The numbers that round to `m · 2 ^ e`, over a common denominator: the value is `value / den`,
and it lies between `low / den` and `high / den`; the ends belong to it when `closed`. -/
structure Interval where
  value : Nat
  low : Nat
  high : Nat
  den : Nat
  closed : Bool

/-- Half a unit on both sides, but a quarter below a power of two, whose lower neighbour is nearer. -/
def interval (m : Nat) (e : Int) : Interval :=
  let narrow := m == 2 ^ 52 && (-1074 : Int) < e
  let up := if 0 ≤ e then 2 ^ e.toNat else 1
  let den := if 0 ≤ e then 1 else 2 ^ (-e).toNat
  { value := 4 * m * up
    low := (4 * m - (if narrow then 1 else 2)) * up
    high := (4 * m + 2) * up
    den := 4 * den
    closed := m % 2 == 0 }

/-- Whether `digits · 10 ^ k` rounds to the value of the interval. -/
def Interval.holds (i : Interval) (digits : Nat) (k : Int) : Bool :=
  let x := if 0 ≤ k then digits * 10 ^ k.toNat * i.den else digits * i.den
  let s := if 0 ≤ k then 1 else 10 ^ (-k).toNat
  if i.closed then i.low * s ≤ x && x ≤ i.high * s else i.low * s < x && x < i.high * s

/-- The two neighbours of the value on the grid of multiples of `10 ^ k`, those that read back;
of two the nearer. -/
def Interval.onGrid (i : Interval) (tie : Tie) (k : Int) : Option Nat :=
  let num := if 0 ≤ k then i.value else i.value * 10 ^ (-k).toNat
  let den := if 0 ≤ k then i.den * 10 ^ k.toNat else i.den
  let below := num / den
  let above := below + 1
  match i.holds below k, i.holds above k with
  | true, true =>
    let twice := 2 * (num % den)
    some (if twice < den then below else if twice = den then tie.choose below else above)
  | true, false => some below
  | false, true => some above
  | false, false => none

/-- The exponent `k` with `10 ^ k ≤ num / den < 10 ^ (k + 1)`, for a positive quotient. -/
def decimalExponent (num den : Nat) : Int :=
  let digits (n : Nat) : Nat := (Nat.toDigits 10 n).length
  let k : Int := (digits num : Int) - digits den
  let reached := if 0 ≤ k then den * 10 ^ k.toNat ≤ num else den ≤ num * 10 ^ (-k).toNat
  if reached then k else k - 1

/-- The first of the grids `10 ^ k`, `10 ^ (k - 1)`, … that has a number that reads back. -/
def Interval.search (i : Interval) (tie : Tie) (k : Int) : Nat → Nat × Int
  | 0 => ((i.onGrid tie k).getD 0, k)
  | fuel + 1 =>
    match i.onGrid tie k with
    | some digits => (digits, k)
    | none => i.search tie (k - 1) fuel

/-- The fewest digits that read back as `m · 2 ^ e`, with the power of ten that scales them;
seventeen digits always do.  The search starts above the value, at the power of ten that a run of
nines may round to. -/
def shortest (tie : Tie) (m : Nat) (e : Int) : Nat × Int :=
  let i := interval m e
  i.search tie (decimalExponent i.value i.den + 1) 18

/-- Positional notation of `digits · 10 ^ k`, without trailing zeros after the point. -/
def positional (digits : Nat) (k : Int) : String :=
  if 0 ≤ k then toString (digits * 10 ^ k.toNat)
  else
    let places := (-k).toNat
    let whole := toString (digits / 10 ^ places)
    let part := toString (digits % 10 ^ places)
    let padded := String.ofList (List.replicate (places - part.length) '0') ++ part
    let trimmed := (padded.toList.reverse.dropWhile (· == '0')).reverse
    if trimmed.isEmpty then whole else whole ++ "." ++ String.ofList trimmed

/-- The text of a double in a message: the shortest digits that read back, the larger of two equally
near ones, never an exponent, no point on whole numbers. -/
def display (x : Float) : String :=
  match ofFloat x with
  | .nan => "NaN"
  | .infinite negative => if negative then "-inf" else "inf"
  | .finite negative m e =>
    let (digits, k) := shortest .up m e
    let text := if m = 0 then "0" else positional digits k
    if negative then "-" ++ text else text

/-- The text of a double with one decimal place. -/
def displayTenths (x : Float) : String :=
  match ofFloat x with
  | .nan => "NaN"
  | .infinite negative => if negative then "-inf" else "inf"
  | .finite negative m e =>
    let tenths :=
      if 0 ≤ e then 10 * m * 2 ^ e.toNat else divRoundEven (10 * m) (2 ^ (-e).toNat)
    let text := toString (tenths / 10) ++ "." ++ toString (tenths % 10)
    if negative then "-" ++ text else text

end CipherMonitor.Binary64
