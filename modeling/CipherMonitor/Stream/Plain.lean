import CipherMonitor.Binary64.Numeral
import CipherMonitor.Fault
import CipherMonitor.Text.CharClass

/-!
# Plain signals as text

* `PlainText.readValues` — the numbers of a text, divided by blanks and line ends.
-/

namespace CipherMonitor.PlainText

/-- The parts of a list between the elements that satisfy the test. -/
def pieces {α : Type} (divides : α → Bool) : List α → List (List α)
  | [] => [[]]
  | x :: xs =>
    if divides x then [] :: pieces divides xs
    else match pieces divides xs with
      | [] => [[x]]
      | first :: others => (x :: first) :: others

/-- The lines of a text. -/
def lines (bytes : List UInt8) : List (List UInt8) := pieces (· == 10) bytes

/-- The words of a line. -/
def tokens (line : String) : List String :=
  ((pieces CharClass.isBlank line.toList).filter (· ≠ [])).map String.ofList

/-- The number of a word. -/
def value (token : String) : Outcome Float :=
  match Binary64.ofNumeral? token with
  | some x => .ok x
  | none => .error (.stream (.malformed (.notANumber token)))

/-- The numbers of a line. -/
def lineValues (line : List UInt8) : Outcome (List Float) :=
  match String.fromUTF8? ⟨line.toArray⟩ with
  | none => .error (.stream (.bytes .notText))
  | some text => (tokens text).mapM value

/-- The numbers of a text; of several mistakes the first one counts. -/
def readValues (bytes : List UInt8) : Outcome (List Float) := do
  let values ← (lines bytes).mapM lineValues
  pure values.flatten

end CipherMonitor.PlainText
