import CipherMonitor.Fault

/-!
# Deterministic automata over bits

A sample of `p` propositions is read as `p` consecutive bits, coordinate `0` first, so a property of
traces of samples is an automaton that is asked for acceptance at sample boundaries.

* `Automaton`, `Automaton.WellFormed`, `Automaton.make` — the tables, when they belong together, and
  the constructor that refuses the others.
* `Automaton.next`, `Automaton.run`, `Automaton.accepts` — reading of words.
* `Automaton.Checked` — the same operations with checked state numbers.
-/

namespace CipherMonitor

/-- States are numbered from `0`; `transitions[q]` holds the successors of `q` on `0` and on `1`. -/
structure Automaton where
  initial : Nat
  accepting : Array Bool
  transitions : Array (Nat × Nat)
  deriving DecidableEq, Repr

namespace Automaton

/-- The number of states. -/
def numStates (a : Automaton) : Nat := a.transitions.size

/-- The successor of a state. -/
def next (a : Automaton) (q : Nat) (bit : Bool) : Nat :=
  let (onFalse, onTrue) := a.transitions.getD q (0, 0)
  if bit then onTrue else onFalse

/-- Whether a state accepts. -/
def isFinal (a : Automaton) (q : Nat) : Bool := a.accepting.getD q false

/-- The accepting states in ascending order. -/
def finals (a : Automaton) : List Nat := (List.range a.accepting.size).filter a.isFinal

/-- The state reached from `q` after reading a word. -/
def run (a : Automaton) (q : Nat) (word : List Bool) : Nat := word.foldl a.next q

/-- Whether a word leads from the initial state to an accepting one. -/
def accepts (a : Automaton) (word : List Bool) : Bool := a.isFinal (a.run a.initial word)

@[simp] theorem run_nil (a : Automaton) (q : Nat) : a.run q [] = q := rfl

@[simp] theorem run_cons (a : Automaton) (q : Nat) (b : Bool) (word : List Bool) :
    a.run q (b :: word) = a.run (a.next q b) word := rfl

theorem run_append (a : Automaton) (q : Nat) (u v : List Bool) :
    a.run q (u ++ v) = a.run (a.run q u) v := List.foldl_append

/-- The tables have one entry for every state, and name no other states. -/
structure WellFormed (a : Automaton) : Prop where
  initial_lt : a.initial < a.numStates
  accepting_size : a.accepting.size = a.numStates
  next_lt : ∀ q < a.numStates, ∀ bit, a.next q bit < a.numStates

theorem WellFormed.run_lt {a : Automaton} (h : a.WellFormed) {q : Nat} (hq : q < a.numStates)
    (word : List Bool) : a.run q word < a.numStates := by
  induction word generalizing q with
  | nil => exact hq
  | cons b word ih => exact ih (h.next_lt q hq b)

/-- The acceptance table of a list of states. -/
def acceptance (states : Nat) (finals : List Nat) : Array Bool :=
  finals.foldl (fun table q => table.setIfInBounds q true) (Array.replicate states false)

/-- The first state with a successor that is no state. -/
def strayState? (transitions : Array (Nat × Nat)) : Option (Nat × Nat × Nat) :=
  let n := transitions.size
  (transitions.toList.zipIdx.find? fun ((onFalse, onTrue), _) => n ≤ onFalse || n ≤ onTrue).map
    fun ((onFalse, onTrue), q) => (q, onFalse, onTrue)

/-- The flaw of a description of an automaton, if it has one: the first that is met among the number
of states, the initial state, the transitions and the accepting states. -/
def flaw? (initial : Nat) (finals : List Nat) (transitions : Array (Nat × Nat)) :
    Option AutomatonFlaw :=
  let n := transitions.size
  if n = 0 then some .noStates
  else if n ≤ initial then some (.initialState initial n)
  else match strayState? transitions with
    | some (q, onFalse, onTrue) => some (.transition q onFalse onTrue n)
    | none => (finals.find? (n ≤ ·)).map (.finalState · n)

/-- The automaton with the given initial state, accepting states and transitions. -/
def make (initial : Nat) (finals : List Nat) (transitions : Array (Nat × Nat)) :
    Except AutomatonFlaw Automaton :=
  match flaw? initial finals transitions with
  | some flaw => .error flaw
  | none => .ok { initial, accepting := acceptance transitions.size finals, transitions }

/-! ### Checked state numbers -/

namespace Checked

/-- The successor of a state of the automaton. -/
def next (a : Automaton) (q : Nat) (bit : Bool) : Outcome Nat := do
  require (q < a.numStates) .index
  pure (a.next q bit)

/-- Whether a state of the automaton accepts. -/
def isFinal (a : Automaton) (q : Nat) : Outcome Bool := do
  require (q < a.accepting.size) .index
  pure (a.isFinal q)

/-- The state reached after a word; a state that reads nothing is not looked up. -/
def run (a : Automaton) (q : Nat) (word : List Bool) : Outcome Nat := word.foldlM (next a) q

end Checked

end Automaton

end CipherMonitor
