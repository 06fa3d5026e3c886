import CipherMonitor.Action
import CipherMonitor.Automaton.Basic
import CipherMonitor.Predicate.Basic

/-!
# Monitoring of plain samples

The counterpart of the encrypted monitors that read samples in order: the signs of the propositions
are the bits that the automaton reads.

* `PlainMonitor.feed` — one sample.
* `PlainMonitor.verdict` — whether the samples so far have the property.
-/

namespace CipherMonitor

/-- The formula and its memory. -/
structure PlainEvaluator where
  predicate : Predicate
  previous : Option Float := none
  deriving DecidableEq

namespace PlainEvaluator

/-- The propositions of a sample. -/
def evaluate (sample : List Float) : Action PlainEvaluator (List Float) := do
  let e ← get
  Action.ofOutcome (e.predicate.checkSize sample.length)
  set { e with previous := e.predicate.remember e.previous sample }
  pure (e.predicate.plainValues e.previous sample)

end PlainEvaluator

/-- An automaton and its state, with the evaluator of the samples. -/
structure PlainMonitor where
  evaluator : PlainEvaluator
  automaton : Automaton
  state : Nat
  deriving DecidableEq

namespace PlainMonitor

/-- The monitor before the first sample. -/
def start (predicate : Predicate) (automaton : Automaton) : PlainMonitor :=
  { evaluator := { predicate }, automaton, state := automaton.initial }

/-- Whether the samples so far have the property. -/
def verdict (m : PlainMonitor) : Bool := m.automaton.isFinal m.state

/-- The truth of each proposition. -/
def bits (values : List Float) : List Bool := values.map (· > 0.0)

/-- Reads a sample and gives the verdict after it. -/
def feed (sample : List Float) : Action PlainMonitor Bool := do
  let values ← Action.within (·.evaluator) (fun m evaluator => { m with evaluator })
    (PlainEvaluator.evaluate sample)
  modify fun m => { m with state := m.automaton.run m.state (bits values) }
  pure (← get).verdict

end PlainMonitor

end CipherMonitor
