import CipherMonitor.Fault

/-!
# Failing operations on a state

* `Action` — an operation that reads and changes a state and may fail; what it stored before the
  failure stays stored.
* `Action.ofOutcome` — an operation that leaves the state alone.
* `Action.within` — an operation on a part of the state.
* `Action.store` — an operation whose result is stored at the end.
-/

namespace CipherMonitor

/-- An operation on a state of type `σ`. -/
abbrev Action (σ α : Type) := ExceptT Fault (StateM σ) α

namespace Action

variable {σ τ α : Type}

/-- The result without touching the state. -/
def ofOutcome (outcome : Outcome α) : Action σ α := fun state => (outcome, state)

/-- Applies the operation to a part of the state. -/
def within (part : σ → τ) (update : σ → τ → σ) (action : Action τ α) : Action σ α := fun state =>
  let (result, changed) := action (part state)
  (result, update state changed)

/-- Stores what an operation makes of the state, when it succeeds. -/
def store (operation : σ → Outcome α) (put : σ → α → σ) : Action σ Unit := do
  let state ← get
  let result ← ofOutcome (operation state)
  set (put state result)

/-- The result and the state afterwards. -/
def perform (action : Action σ α) (state : σ) : Outcome α × σ := action state

@[simp] theorem perform_ofOutcome (outcome : Outcome α) (state : σ) :
    (ofOutcome outcome : Action σ α).perform state = (outcome, state) := rfl

end Action

end CipherMonitor
