import CipherMonitor.Fault

/-!
# Predicates on samples

A predicate maps a sample of numbers to one number for each of its propositions, positive exactly
when the proposition holds.  Comparisons are strict: a margin is taken away on the true side, so that
a tie is clearly negative.

* `Predicate` — the formulas.
* `Predicate.signalSize`, `Predicate.size`, `Predicate.references` — the shape of samples and
  results, and a bound for each result.
* `strictMargin` — the margin of a comparison.
* `Predicate.plainValues` — the formulas on plain numbers.
-/

namespace CipherMonitor

/-- A formula on samples; every constructor ends with the bound of its results. -/
inductive Predicate
  /-- A number above or below a constant. -/
  | threshold (above : Bool) (constant reference : Float)
  /-- A number above `low`, and below `high`. -/
  | band (low high reference : Float)
  /-- The change since the sample before, above `low`, and below `high`. -/
  | deltaBand (low high reference : Float)
  /-- A number farther from a center than a radius. -/
  | deviation (center radius reference : Float)
  /-- A gap larger than the distance that a velocity needs, from a reaction time and half of the
  inverse of a deceleration. -/
  | safeDistance (reaction inverse reference : Float)
  deriving DecidableEq

/-- The margin of comparisons between numbers up to a bound. -/
def strictMargin (reference : Float) : Float := reference * (1.0 / 65536.0)

namespace Predicate

/-- The count of numbers in a sample. -/
def signalSize : Predicate → Nat
  | .safeDistance .. => 2
  | _ => 1

/-- The count of propositions. -/
def size : Predicate → Nat
  | .band .. | .deltaBand .. => 2
  | _ => 1

/-- The bound of every result. -/
def reference : Predicate → Float
  | .threshold _ _ r | .band _ _ r | .deltaBand _ _ r | .deviation _ _ r | .safeDistance _ _ r => r

/-- A bound for each proposition. -/
def references (p : Predicate) : List Float := List.replicate p.size p.reference

/-- Whether the result depends on the sample before. -/
def remembers : Predicate → Bool
  | .deltaBand .. => true
  | _ => false

/-- A number above `low`, and below `high`. -/
def bandValues (x low high margin : Float) : List Float := [x - low - margin, high - x - margin]

/-- The propositions of a sample of the right size, given the first number of the sample before. -/
def plainValues (p : Predicate) (previous : Option Float) (sample : List Float) : List Float :=
  let x := sample.getD 0 0.0
  let m := strictMargin p.reference
  match p with
  | .threshold true c _ => [x - c - m]
  | .threshold false c _ => [c - x - m]
  | .band low high _ => bandValues x low high m
  | .deltaBand low high _ =>
    match previous with
    | none => [x, x]
    | some before => bandValues (x - before) low high m
  | .deviation center radius _ =>
    let d := x - center
    [d * d - radius * radius - m]
  | .safeDistance reaction inverse _ =>
    let v := sample.getD 1 0.0
    [x - (reaction * v + inverse * v * v) - m]

/-- What is remembered after a sample. -/
def remember {α : Type} (p : Predicate) (previous : Option α) (sample : List α) : Option α :=
  if p.remembers then sample.head? else previous

/-- The check of the size of a sample. -/
def checkSize (p : Predicate) (actual : Nat) : Outcome Unit :=
  if actual = p.signalSize then .ok ()
  else .error (.monitor (.sizeMismatch p.signalSize actual))

@[simp] theorem length_plainValues (p : Predicate) (previous : Option Float)
    (sample : List Float) : (p.plainValues previous sample).length = p.size := by
  cases p with
  | threshold above => cases above <;> rfl
  | deltaBand => cases previous <;> rfl
  | _ => rfl

end Predicate

end CipherMonitor
