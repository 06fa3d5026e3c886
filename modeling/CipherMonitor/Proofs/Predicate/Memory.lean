import CipherMonitor.Proofs.Monitor.Pipeline

/-!
# What an evaluation remembers

An evaluation applies the formula to the sample and then brings the results to the lowest level.
The memory changes as soon as the formula has succeeded, whatever fails after it.

* `PredicateEvaluator.results`, `PredicateEvaluator.values` — the results of the formula, and those
  on the lowest level.
* `PredicateEvaluator.memoryAfter`, `PredicateEvaluator.perform_evaluate` — the memory after a
  sample is the only thing that an evaluation changes.
* `PredicateEvaluator.read`, `PredicateEvaluator.memoryAfterAll` — the samples of a trace that the
  formula is applied to, and the memory after the last of them.
* `Pipeline.withMemory`, `Pipeline.perform_predicates`, `Pipeline.perform_bits`,
  `Pipeline.perform_mapM_predicates` — the same for pipelines.
-/

namespace CipherMonitor

open Ckks

theorem Predicate.remember_of_not_remembers {α : Type} {p : Predicate} (h : p.remembers = false)
    (previous : Option α) (sample : List α) : p.remember previous sample = previous := by
  rw [remember, h]
  rfl

theorem Predicate.remember_of_remembers {α : Type} {p : Predicate} (h : p.remembers = true)
    (previous : Option α) (sample : List α) : p.remember previous sample = sample.head? := by
  rw [remember, h]
  rfl

namespace PredicateEvaluator

variable {e : PredicateEvaluator} {sample : List Ciphertext}

/-- The formula on a checked sample. -/
def results (e : PredicateEvaluator) (sample : List Ciphertext) : Outcome (List Ciphertext) := do
  e.checkSample sample
  e.predicate.ciphertexts e.arithmetic e.previous sample

/-- The results of the formula on the lowest level. -/
def values (e : PredicateEvaluator) (sample : List Ciphertext) : Outcome (List Ciphertext) := do
  let results ← e.results sample
  results.mapM fun c => c.normalize e.arithmetic.params

/-- The memory after a sample: it changes if the formula succeeds. -/
def memoryAfter (e : PredicateEvaluator) (sample : List Ciphertext) : Option Ciphertext :=
  match e.results sample with
  | .ok _ => e.predicate.remember e.previous sample
  | .error _ => e.previous

/-- The same evaluator with another memory. -/
def withMemory (e : PredicateEvaluator) (previous : Option Ciphertext) : PredicateEvaluator :=
  { e with previous }

@[simp] theorem withMemory_previous (e : PredicateEvaluator) : e.withMemory e.previous = e := rfl

theorem memoryAfter_of_not_remembers (h : e.predicate.remembers = false) :
    e.memoryAfter sample = e.previous := by
  rw [memoryAfter, Predicate.remember_of_not_remembers h]
  split <;> rfl

theorem memoryAfter_of_error {fault : Fault} (h : e.results sample = .error fault) :
    e.memoryAfter sample = e.previous := by
  rw [memoryAfter, h]

theorem memoryAfter_of_ok {results : List Ciphertext} (h : e.results sample = .ok results) :
    e.memoryAfter sample = e.predicate.remember e.previous sample := by
  rw [memoryAfter, h]

/-- An evaluation changes the memory and nothing else. -/
theorem perform_evaluate (e : PredicateEvaluator) (sample : List Ciphertext) :
    (evaluate sample).perform e = (e.values sample, e.withMemory (e.memoryAfter sample)) := by
  rw [evaluate, Action.perform_bind_of_ok (Action.perform_get e), Action.perform_bind,
    Action.perform_ofOutcome, values, memoryAfter, results]
  cases e.checkSample sample with
  | error fault => rfl
  | ok _ =>
    simp only [Outcome.ok_bind]
    rw [formula, Action.perform_bind, Action.perform_bind_of_ok (Action.perform_get e),
      Action.perform_bind, Action.perform_ofOutcome]
    cases e.predicate.ciphertexts e.arithmetic e.previous sample with
    | error fault => rfl
    | ok results => rfl

/-- The samples of a trace that the formula is applied to: evaluation ends with the first one that
has no values. -/
def read (e : PredicateEvaluator) : List (List Ciphertext) → List (List Ciphertext)
  | [] => []
  | sample :: trace =>
    match e.values sample, e.results sample with
    | .ok _, _ => sample :: (e.withMemory (e.memoryAfter sample)).read trace
    | .error _, .ok _ => [sample]
    | .error _, .error _ => []

/-- The memory after a trace: the samples that the formula was applied to are remembered. -/
def memoryAfterAll (e : PredicateEvaluator) (trace : List (List Ciphertext)) : Option Ciphertext :=
  (e.read trace).foldl e.predicate.remember e.previous

theorem exists_results_of_values {values : List Ciphertext} (h : e.values sample = .ok values) :
    ∃ results, e.results sample = .ok results := by
  obtain ⟨results, hresults, -⟩ := Outcome.bind_eq_ok_iff.1 h
  exact ⟨results, hresults⟩

theorem memoryAfterAll_cons_of_ok {values : List Ciphertext} (h : e.values sample = .ok values)
    (trace : List (List Ciphertext)) :
    e.memoryAfterAll (sample :: trace) =
      (e.withMemory (e.memoryAfter sample)).memoryAfterAll trace := by
  obtain ⟨results, hresults⟩ := exists_results_of_values h
  rw [memoryAfterAll, read, h, List.foldl_cons, ← memoryAfter_of_ok hresults]
  rfl

theorem memoryAfterAll_cons_of_error {fault : Fault} (h : e.values sample = .error fault)
    (trace : List (List Ciphertext)) :
    e.memoryAfterAll (sample :: trace) = e.memoryAfter sample := by
  rw [memoryAfterAll, read, h, memoryAfter]
  cases e.results sample <;> rfl

theorem memoryAfterAll_of_not_remembers (h : e.predicate.remembers = false)
    (trace : List (List Ciphertext)) : e.memoryAfterAll trace = e.previous := by
  rw [memoryAfterAll]
  induction e.read trace with
  | nil => rfl
  | cons sample read ih => rw [List.foldl_cons, Predicate.remember_of_not_remembers h, ih]

end PredicateEvaluator

namespace Pipeline

variable {p : Pipeline} {sample : List Ciphertext}

/-- The same pipeline with another memory. -/
def withMemory (p : Pipeline) (previous : Option Ciphertext) : Pipeline :=
  { p with evaluator := p.evaluator.withMemory previous }

@[simp] theorem withMemory_previous (p : Pipeline) : p.withMemory p.evaluator.previous = p := rfl

@[simp] theorem evaluator_withMemory (p : Pipeline) (c : Option Ciphertext) :
    (p.withMemory c).evaluator = p.evaluator.withMemory c := rfl

@[simp] theorem booleans_withMemory (p : Pipeline) (c : Option Ciphertext) :
    (p.withMemory c).booleans = p.booleans := rfl

theorem perform_predicates (p : Pipeline) (sample : List Ciphertext) :
    (predicates sample).perform p =
      (p.evaluator.values sample, p.withMemory (p.evaluator.memoryAfter sample)) := by
  rw [predicates, Action.perform_within, PredicateEvaluator.perform_evaluate]
  rfl

/-- The bits of a sample. -/
def bitsOfSample (p : Pipeline) (sample : List Ciphertext) : Outcome (List PreparedGgsw) := do
  let values ← p.evaluator.values sample
  let signs ← p.booleans values
  signs.mapM p.bridge.circuitBootstrap

/-- What fails after the formula leaves the sample in the memory. -/
theorem perform_bits (p : Pipeline) (sample : List Ciphertext) :
    (Pipeline.bits sample).perform p =
      (p.bitsOfSample sample, p.withMemory (p.evaluator.memoryAfter sample)) := by
  rw [Pipeline.bits, Action.perform_bind, perform_predicates, bitsOfSample]
  cases p.evaluator.values sample with
  | error fault => rfl
  | ok values =>
    simp only [Outcome.ok_bind]
    rw [Action.perform_bind_of_ok (Action.perform_get _), Action.perform_bind,
      Action.perform_ofOutcome, booleans_withMemory]
    cases p.booleans values with
    | error fault => rfl
    | ok signs => rfl

/-- A trace changes the memory and nothing else, whether all of its samples have values or not. -/
theorem perform_mapM_predicates (p : Pipeline) (trace : List (List Ciphertext)) :
    ((trace.mapM predicates).perform p).2 =
      p.withMemory (p.evaluator.memoryAfterAll trace) := by
  induction trace generalizing p with
  | nil => rfl
  | cons sample trace ih =>
    rw [List.mapM_cons, Action.perform_bind, perform_predicates]
    cases hvalues : p.evaluator.values sample with
    | error fault => rw [PredicateEvaluator.memoryAfterAll_cons_of_error hvalues]
    | ok values =>
      rw [PredicateEvaluator.memoryAfterAll_cons_of_ok hvalues]
      exact (Action.perform_bind_pure_snd _ _).trans (ih _)

end Pipeline

end CipherMonitor
