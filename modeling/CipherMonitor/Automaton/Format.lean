import CipherMonitor.Automaton.Basic
import CipherMonitor.Json.Value

/-!
# Automata as JSON texts

An automaton is written as a record of its initial state, its accepting states in ascending order,
and the pairs of successors of all states.

* `Automaton.toJson`, `Automaton.write` — the record and its text.
* `Automaton.read` — the automaton of a text.
-/

namespace CipherMonitor

/-- Integers of JSON texts are below this. -/
def Json.wordBound : Nat := 2 ^ 64

namespace Automaton

/-- The names of the fields. -/
def fieldNames : List String := ["initial", "finals", "transitions"]

/-- The record of an automaton. -/
def toJson (a : Automaton) : Json := .ofFields
  [("initial", .ofNat a.initial), ("finals", .ofList .ofNat a.finals),
    ("transitions", .ofList (fun (x, y) => .array [.ofNat x, .ofNat y]) a.transitions.toList)]

/-- The text of an automaton. -/
def write (a : Automaton) : List Char := a.toJson.write

/-- The successors of a state. -/
def successors? : Json → Option (Nat × Nat)
  | .array [x, y] => do pure (← x.toNat? Json.wordBound, ← y.toNat? Json.wordBound)
  | _ => none

/-- The parts of an automaton in a record. -/
def parts? (value : Json) : Option (Nat × List Nat × Array (Nat × Nat)) := do
  match ← value.toFields? fieldNames with
  | [initial, finals, transitions] =>
    let initial ← Json.field (Json.toNat? Json.wordBound) initial
    let finals ← Json.field (Json.toList? (Json.toNat? Json.wordBound)) finals
    let transitions ← Json.field (Json.toList? successors?) transitions
    pure (initial, finals, transitions.toArray)
  | _ => none

/-- The automaton of a text.  A record that describes no automaton is refused with its flaw, whatever
follows it; nothing but blanks may follow the record of an automaton. -/
def read (text : List Char) : Except MonitorError Automaton :=
  match Json.read? (Json.Token.readAll text) with
  | none => .error (.json none)
  | some (value, rest) =>
    match parts? value with
    | none => .error (.json none)
    | some (initial, finals, transitions) =>
      match make initial finals transitions with
      | .error flaw => .error (.json (some flaw))
      | .ok a => if rest.isEmpty then .ok a else .error (.json none)

end Automaton

end CipherMonitor
