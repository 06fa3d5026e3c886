import CipherMonitor.Automaton.Reversal

/-!
# Search with a queue

An exploration can also be carried out with a queue: the states that are found wait in it, and when a
state leaves it, its successors are written down as the next row of the table of transitions.  That
this row is the one of the state has to be checked.

* `Worklist`, `Worklist.start` — a search that is under way, and its beginning.
* `Worklist.visit`, `Worklist.visitNext` — one successor, and both of them.
* `Worklist.turn`, `Worklist.turns` — one state of the queue, and a number of them.
* `Worklist.automaton` — the automaton of a search whose queue is empty.
* `Automaton.predecessors`, `Automaton.memberLists` — sets of states as ascending lists of their
  members, which are moved along reversed edges.
-/

namespace CipherMonitor

/-- The states found, the numbers of those that wait, the first in front, and the successors of those
that have left the queue. -/
structure Worklist {σ κ : Type} [DecidableEq κ] [Hashable κ] (e : Exploration σ κ) where
  found : Numbering e.key
  queue : List Nat
  rows : Array (Nat × Nat)

namespace Worklist

variable {σ κ : Type} [DecidableEq κ] [Hashable κ] {e : Exploration σ κ}

/-- The start state has the number zero and waits. -/
def start (e : Exploration σ κ) (x : σ) : Worklist e :=
  { found := .ofList e.key [x], queue := [0], rows := #[] }

/-- The number of a state; one of an unknown key gets the next number and waits. -/
def visit (w : Worklist e) (x : σ) : Nat × Worklist e :=
  if w.found.knows x then (w.found.number x, w)
  else
    (w.found.size, { w with found := w.found.insert x, queue := w.queue ++ [w.found.size] })

/-- The numbers of both successors of a state. -/
def visitNext (w : Worklist e) (x : σ) : (Nat × Nat) × Worklist e :=
  let (onFalse, w) := w.visit (e.next x false)
  let (onTrue, w) := w.visit (e.next x true)
  ((onFalse, onTrue), w)

/-- Takes the first state from the queue, visits its successors and writes them down.  A search whose
queue is empty is over and stays as it is. -/
def turn (w : Worklist e) : Outcome (Worklist e) :=
  match w.queue with
  | [] => .ok w
  | id :: queue =>
    match w.found.items[id]? with
    | none => .error (.breach .index)
    | some x => do
      let (row, w) := { w with queue }.visitNext x
      require (id = w.rows.size) .shape
      pure { w with rows := w.rows.push row }

/-- A number of turns. -/
def turns : Nat → Worklist e → Outcome (Worklist e)
  | 0, w => .ok w
  | n + 1, w => do
    let w ← w.turn
    turns n w

/-- The states found, with the rows that were written down. -/
def automaton (w : Worklist e) : Automaton :=
  { initial := 0, accepting := w.found.items.map e.final, transitions := w.rows }

end Worklist

namespace Automaton

/-- For every state, the states whose successor on a bit it is, in ascending order. -/
def predecessors (a : Automaton) (bit : Bool) : Array (List Nat) :=
  (List.range a.numStates).foldl (fun table q => table.modify (a.next q bit) (· ++ [q]))
    (Array.replicate a.numStates [])

/-- The sets of states of an automaton as ascending lists of their members. -/
def memberLists (a : Automaton) : Exploration (List Nat) (List Nat) where
  next set bit :=
    let before := a.predecessors bit
    (set.flatMap fun q => before.getD q []).mergeSort.eraseReps
  final set := set.contains a.initial
  key := id

end Automaton

end CipherMonitor
