import CipherMonitor.Automaton.Minimization

/-!
# Refinement in one table

The refinement of classes can also be carried out in a single table of all states.  A pass files the
signatures of the given states one by one and writes their numbers down when all of them are filed, so
that it sees only the classes of the pass before.  It is the last pass when it has found as many classes
as the one before.  States that are not given keep a mark in place of a class.

* `Refinement`, `Refinement.start` — a refinement that is under way, and its beginning.
* `Refinement.file` — the number of one signature.
* `Refinement.pass`, `Refinement.passes` — one pass, and a number of them.
* `Refinement.after` — the reachable states after a number of passes.
-/

namespace CipherMonitor

/-- The classes of the states, how many of them the last pass has found, and whether that was the last
pass. -/
structure Refinement where
  classes : Automaton.Classes
  count : Nat
  finished : Bool
  deriving DecidableEq, Repr

namespace Refinement

open Automaton

/-- The mark of a state without a class. -/
def unclassified : Nat := 2 ^ 64 - 1

/-- The given states are classified by acceptance, and no pass has been made. -/
def start (a : Automaton) (qs : List Nat) : Refinement :=
  { classes := qs.foldl (fun c q => c.setIfInBounds q (a.isFinal q).toNat)
      (Array.replicate a.numStates unclassified)
    count := 0
    finished := false }

/-- Files the signature of a state, and remembers its number. -/
def file (a : Automaton) (c : Classes) (filed : Numbering (@id Signature) × List (Nat × Nat))
    (q : Nat) : Numbering (@id Signature) × List (Nat × Nat) :=
  let (number, found) := filed.1.enter (a.signature c q)
  (found, filed.2 ++ [(q, number)])

/-- One pass over the given states.  A refinement that is finished stays as it is. -/
def pass (a : Automaton) (qs : List Nat) (r : Refinement) : Refinement :=
  if r.finished then r
  else
    let (found, numbers) := qs.foldl (file a r.classes) (.empty id, [])
    { classes := numbers.foldl (fun c (q, number) => c.setIfInBounds q number) r.classes
      count := found.size
      finished := found.size = r.count }

/-- A number of passes. -/
def passes (a : Automaton) (qs : List Nat) : Nat → Refinement → Refinement
  | 0, r => r
  | k + 1, r => passes a qs k (pass a qs r)

/-- The classes of the reachable states after a number of passes. -/
def after (a : Automaton) (k : Nat) : Refinement := passes a a.reachable k (start a a.reachable)

end Refinement

end CipherMonitor
