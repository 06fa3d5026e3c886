import CipherMonitor.Automaton.Minimization

/-!
# Reversal

The automaton of the reversed language: its states are sets of states, a set moves to the states
with a successor in it, the start is the set of accepting states, and a set accepts when it holds the
initial state.

* `Automaton.preimage` — the move of a set.
* `Automaton.reversed` — the automaton of the reversed language.
* `Automaton.ofReversed` — the smallest automaton of a property, given one of the reversed property.
-/

namespace CipherMonitor.Automaton

/-- The states whose successor on a bit lies in the set, as a table. -/
def preimage (a : Automaton) (set : Array Bool) (bit : Bool) : Array Bool :=
  Array.ofFn fun q : Fin a.numStates => set.getD (a.next q bit) false

/-- The sets of states of an automaton. -/
def stateSets (a : Automaton) : Exploration (Array Bool) (Array Bool) where
  next := a.preimage
  final set := set.getD a.initial false
  key := id

/-- The automaton of the words that are accepted when read from the last bit to the first. -/
def reversed (a : Automaton) : Automaton := a.stateSets.automaton (2 ^ a.numStates) a.accepting

/-- The smallest automaton of the language that the given one accepts in reverse. -/
def ofReversed (a : Automaton) : Automaton := a.reversed.minimized

end CipherMonitor.Automaton
