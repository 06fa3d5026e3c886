import CipherMonitor.Automaton.Basic
import CipherMonitor.Automaton.Numbering

/-!
# Breadth-first exploration

A system of states with two successors each is explored from a start state, successors on `0` before
those on `1`.  States are told apart by a key alone, and the order of discovery numbers the keys.

* `Exploration` — successors, acceptance and keys of the states of a system.
* `Exploration.discover` — the states found, one for every key, in order of discovery.
* `Exploration.automaton` — the automaton on these numbers.
-/

namespace CipherMonitor

/-- A deterministic system whose states are told apart by their keys. -/
structure Exploration (σ κ : Type) where
  next : σ → Bool → σ
  final : σ → Bool
  key : σ → κ

namespace Exploration

variable {σ κ : Type} [DecidableEq κ] [Hashable κ]

/-- Visits both successors of a state. -/
def visitNext (e : Exploration σ κ) (seen : Numbering e.key) (x : σ) : Numbering e.key :=
  (seen.insert (e.next x false)).insert (e.next x true)

/-- Visits the successors of the states from number `i` on, at most `fuel` of them. -/
def extend (e : Exploration σ κ) : (fuel i : Nat) → (seen : Numbering e.key) → Numbering e.key
  | 0, _, seen => seen
  | fuel + 1, i, seen =>
    match seen.items[i]? with
    | none => seen
    | some x => e.extend fuel (i + 1) (e.visitNext seen x)

/-- The states found from a start state, where `keys` bounds the number of different keys. -/
def discover (e : Exploration σ κ) (keys : Nat) (start : σ) : Numbering e.key :=
  e.extend keys 0 (.ofList e.key [start])

/-- The automaton on the numbers of the states found. -/
def automaton (e : Exploration σ κ) (keys : Nat) (start : σ) : Automaton :=
  let seen := e.discover keys start
  { initial := 0
    accepting := seen.items.map e.final
    transitions := seen.items.map fun x =>
      (seen.number (e.next x false), seen.number (e.next x true)) }

end Exploration

end CipherMonitor
