import CipherMonitor.Automaton.Exploration

/-!
# Minimization

The states reachable from the initial one are put into classes by repeated refinement, and the
classes become the states of the smallest automaton of the same language, numbered in breadth-first
order.  Automata of one language have the same smallest automaton.

* `Automaton.reachable` — the reachable states.
* `Automaton.refine` — one pass: states stay together if they and their successors did.
* `Automaton.classes` — the classes when a pass splits none any more.
* `Automaton.minimized` — the smallest automaton.
-/

namespace CipherMonitor.Automaton

/-- The states of an automaton, each its own key. -/
def states (a : Automaton) : Exploration Nat Nat where
  next := a.next
  final := a.isFinal
  key := id

/-- The states reachable from the initial one, in breadth-first order. -/
def reachable (a : Automaton) : List Nat :=
  (a.states.discover a.numStates a.initial).items.toList

/-- Class numbers of the states, as a table. -/
abbrev Classes := Array Nat

/-- The class of a state. -/
def Classes.of (c : Classes) (q : Nat) : Nat := c.getD q 0

/-- The table of a function on the states. -/
def tabulate (a : Automaton) (f : Nat → Nat) : Classes := Array.ofFn fun i : Fin a.numStates => f i

/-- Accepting states apart from the others. -/
def acceptanceClasses (a : Automaton) : Classes := a.tabulate fun q => (a.isFinal q).toNat

/-- The classes of a state and of its two successors. -/
abbrev Signature := Nat × Nat × Nat

/-- The signature of a state. -/
def signature (a : Automaton) (c : Classes) (q : Nat) : Signature :=
  (c.of q, c.of (a.next q false), c.of (a.next q true))

/-- The signatures of the given states, each once, in order of appearance. -/
def signatures (a : Automaton) (qs : List Nat) (c : Classes) : Numbering (@id Signature) :=
  .ofList id (qs.map (a.signature c))

/-- The numbers of the signatures of all states. -/
def classesOf (a : Automaton) (found : Numbering (@id Signature)) (c : Classes) : Classes :=
  a.tabulate fun q => found.number (a.signature c q)

/-- One pass over the given states: the new classes are the signatures in order of appearance. -/
def refine (a : Automaton) (qs : List Nat) (c : Classes) : Classes :=
  a.classesOf (a.signatures qs c) c

/-- Passes until one finds as many classes as the one before, at most `fuel` passes; `count` is the
number of classes of the last pass. -/
def refineFrom (a : Automaton) (qs : List Nat) : (fuel count : Nat) → Classes → Classes
  | 0, _, c => c
  | fuel + 1, count, c =>
    let found := a.signatures qs c
    let refined := a.classesOf found c
    if found.size = count then refined else a.refineFrom qs fuel found.size refined

/-- The classes of reachable states that no word tells apart. -/
def classes (a : Automaton) : Classes :=
  a.refineFrom a.reachable (a.reachable.length + 1) 0 a.acceptanceClasses

/-- The smallest automaton of the same language. -/
def minimized (a : Automaton) : Automaton :=
  let c := a.classes
  { a.states with key := c.of : Exploration Nat Nat }.automaton a.numStates a.initial

end CipherMonitor.Automaton
