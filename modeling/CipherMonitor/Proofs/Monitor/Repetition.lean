import CipherMonitor.Proofs.Monitor.Failure

/-!
# Traces one after another

A monitor of whole traces starts every run with new weights, but with the memory that the run
before has left.  For predicates that remember the last sample, the first sample of a run is
therefore compared with a sample of the run before.

* `OfflineMonitor.perform_run`, `OfflineMonitor.after_run` — a run, and any history of runs,
  changes the memory and nothing else.
* `Pipeline.perform_mapM_predicates_cons` — the memory reaches the first sample of a trace, and no
  other.
* `OfflineMonitor.runs_in_turn` — what runs in turn have to do with each other.
-/

namespace CipherMonitor

open Ckks

/-- The memory after a sequence of traces, each of which is evaluated up to its first failure. -/
def PredicateEvaluator.memoryAfterRuns (e : PredicateEvaluator)
    (history : List (List (List Ciphertext))) : Option Ciphertext :=
  history.foldl (fun memory trace => (e.withMemory memory).memoryAfterAll trace) e.previous

theorem PredicateEvaluator.memoryAfterRuns_of_not_remembers {e : PredicateEvaluator}
    (h : e.predicate.remembers = false) (history : List (List (List Ciphertext))) :
    e.memoryAfterRuns history = e.previous := by
  rw [memoryAfterRuns]
  generalize e.previous = memory
  induction history generalizing memory with
  | nil => rfl
  | cons trace history ih =>
    rw [List.foldl_cons, memoryAfterAll_of_not_remembers (e := e.withMemory memory) h]
    exact ih memory

/-- A formula that remembers its samples forgets what it remembered before the first one. -/
theorem Pipeline.perform_mapM_predicates_cons {p : Pipeline}
    (hremembers : p.evaluator.predicate.remembers = true) (sample : List Ciphertext)
    (trace : List (List Ciphertext)) :
    (((sample :: trace).mapM predicates).perform p).1 = (do
      let first ← p.evaluator.values sample
      let rest ← ((trace.mapM predicates).perform (p.withMemory sample.head?)).1
      pure (first :: rest)) := by
  rw [List.mapM_cons, Action.perform_bind, perform_predicates]
  cases hfirst : p.evaluator.values sample with
  | error fault => rfl
  | ok first =>
    obtain ⟨results, hresults⟩ := PredicateEvaluator.exists_results_of_values hfirst
    have hmemory : p.evaluator.memoryAfter sample = sample.head? :=
      PredicateEvaluator.Retains.memoryAfter ⟨hremembers, results, hresults⟩
    dsimp only
    rw [hmemory, Action.perform_bind]
    rcases (trace.mapM predicates).perform (p.withMemory sample.head?) with ⟨fault | rest, p'⟩ <;> rfl

namespace OfflineMonitor

/-- The same monitor with another memory. -/
def withMemory (o : OfflineMonitor) (previous : Option Ciphertext) : OfflineMonitor :=
  { o with pipeline := o.pipeline.withMemory previous }

/-- The propositions of the samples of a trace. -/
def evaluated (o : OfflineMonitor) (trace : List (List Ciphertext)) :
    Outcome (List (List Ciphertext)) := ((trace.mapM Pipeline.predicates).perform o.pipeline).1

/-- The verdicts of a trace from its propositions. -/
def verdictsOf (o : OfflineMonitor) (values : List (List Ciphertext)) : Outcome (List (Lwe 32)) := do
  let bits ← o.pipeline.bitsInOnePass values
  let engine ← WeightVector.start o.automaton o.pipeline.degree
  verdictsFrom o.pipeline.bridge o.bootInterval 1 engine bits

/-- A run changes the memory and nothing else, whether it succeeds or not. -/
theorem perform_run (o : OfflineMonitor) (trace : List (List Ciphertext)) :
    (run trace).perform o = (o.evaluated trace >>= o.verdictsOf,
      o.withMemory (o.pipeline.evaluator.memoryAfterAll trace)) := by
  have hmemory := Pipeline.perform_mapM_predicates o.pipeline trace
  rw [run, predicates_eq_mapM, Action.perform_bind, Action.perform_within, evaluated]
  rcases hperform : (trace.mapM Pipeline.predicates).perform o.pipeline with ⟨fault | values, p'⟩
  all_goals
    rw [hperform] at hmemory
    obtain rfl := hmemory
    rfl

theorem after_run (o : OfflineMonitor) (history : List (List (List Ciphertext))) :
    Action.after run o history =
      o.withMemory (o.pipeline.evaluator.memoryAfterRuns history) := by
  induction history generalizing o with
  | nil => rfl
  | cons trace history ih =>
    rw [Action.after_cons, perform_run, ih]
    rfl

theorem evaluated_cons {o : OfflineMonitor}
    (hremembers : o.pipeline.evaluator.predicate.remembers = true) (sample : List Ciphertext)
    (trace : List (List Ciphertext)) :
    o.evaluated (sample :: trace) = (do
      let first ← o.pipeline.evaluator.values sample
      let rest ← (o.withMemory sample.head?).evaluated trace
      pure (first :: rest)) := Pipeline.perform_mapM_predicates_cons hremembers sample trace

theorem perform_run_cons {o : OfflineMonitor}
    (hremembers : o.pipeline.evaluator.predicate.remembers = true) (sample : List Ciphertext)
    (trace : List (List Ciphertext)) :
    ((run (sample :: trace)).perform o).1 = (do
      let first ← o.pipeline.evaluator.values sample
      o.verdictsOf (first :: (← (o.withMemory sample.head?).evaluated trace))) := by
  rw [perform_run, evaluated_cons hremembers]
  simp only [bind_assoc, pure_bind]

/-- Runs in turn share nothing but the memory.  Without a memory every run answers as on a new
monitor; with one, a run differs from that on a new monitor in the propositions of its first sample
only. -/
theorem runs_in_turn (o : OfflineMonitor) (history : List (List (List Ciphertext))) :
    let o' := Action.after run o history
    o' = o.withMemory (o.pipeline.evaluator.memoryAfterRuns history) ∧
      (o.pipeline.evaluator.predicate.remembers = false →
        o' = o ∧
        Action.answers run o history = history.map fun trace => ((run trace).perform o).1) ∧
      (o.pipeline.evaluator.predicate.remembers = true →
        ∀ sample trace, ∃ rest : Outcome (List (List Ciphertext)),
          ((run (sample :: trace)).perform o).1 = (do
            let first ← o.pipeline.evaluator.values sample
            o.verdictsOf (first :: (← rest))) ∧
          ((run (sample :: trace)).perform o').1 = (do
            let first ← o'.pipeline.evaluator.values sample
            o.verdictsOf (first :: (← rest)))) := by
  have hkeeps : ∀ history : List (List (List Ciphertext)),
      o.pipeline.evaluator.predicate.remembers = false → Action.after run o history = o := by
    intro history hremembers
    rw [after_run, PredicateEvaluator.memoryAfterRuns_of_not_remembers hremembers]
    rfl
  refine ⟨after_run o history, fun hremembers => ⟨hkeeps history hremembers, ?_⟩, ?_⟩
  · induction history with
    | nil => rfl
    | cons trace history ih =>
      have hstep : ((run trace).perform o).2 = o := hkeeps [trace] hremembers
      rw [Action.answers, hstep, ih, List.map_cons]
  · -- What is remembered before the first sample plays no part in the rest of the trace.
    intro hremembers sample trace
    have hlater := perform_run_cons
      (o := o.withMemory (o.pipeline.evaluator.memoryAfterRuns history)) hremembers sample trace
    rw [after_run]
    exact ⟨(o.withMemory sample.head?).evaluated trace, perform_run_cons hremembers sample trace,
      hlater⟩

end OfflineMonitor

/-- The change monitor of traces. -/
def pairOffline : OfflineMonitor where
  pipeline := pairChanges
  automaton := evenZeros
  bootInterval := 1

/-- The monitor of traces for numbers above zero. -/
def pairOfflineAbove : OfflineMonitor where
  pipeline := Pipeline.make ⟨.threshold true 0.0 100.0, pairChanges.evaluator.arithmetic, none⟩
    pairChanges.bridge
  automaton := evenZeros
  bootInterval := 1

/-- After a run the memory of changes is the sample of that run, also if the run has failed, and the
next run is refused for a scale that a new monitor does not object to; comparisons with zero have no
memory, and two runs on an empty sample fail alike. -/
theorem runs_in_turn_pairs :
    Action.after OfflineMonitor.run pairOffline [[[zeroAt 0.001]]] =
        pairOffline.withMemory (some (zeroAt 0.001)) ∧
      ((OfflineMonitor.run [[zeroAt 0.002]]).perform
        (pairOffline.withMemory (some (zeroAt 0.001)))).1 =
          .error (.ckks (.scaleMismatch 0.002 0.001)) ∧
      Action.after OfflineMonitor.run pairOfflineAbove [[[]], [[]]] = pairOfflineAbove ∧
      Action.answers OfflineMonitor.run pairOfflineAbove [[[]], [[]]] =
        [.error (.monitor (.sizeMismatch 1 0)), .error (.monitor (.sizeMismatch 1 0))] := by
  have hscale : ((0.002 : Float) != 0.001) = true := by decide +kernel
  obtain ⟨hafter, -, hchanges⟩ := OfflineMonitor.runs_in_turn pairOffline [[[zeroAt 0.001]]]
  obtain ⟨rest, -, hrun⟩ := hchanges rfl [zeroAt 0.002] []
  rw [hafter] at hrun
  have habove := (OfflineMonitor.runs_in_turn pairOfflineAbove [[[]], [[]]]).2.1 rfl
  refine ⟨hafter, hrun.trans ?_, habove.1, habove.2⟩
  exact congrArg (· >>= fun first => rest >>= fun rest => pairOffline.verdictsOf (first :: rest))
    (values_zeroAt_after hscale)

theorem run_zeroAt {scale : Float} {e : CkksError}
    (h : pairChanges.bridge.convert pairChanges.mode (zeroAt scale) 100.0 = .error (.ckks e)) :
    ((OfflineMonitor.run [[zeroAt scale]]).perform pairOffline).1 = .error (.ckks e) := by
  have hevaluated : pairOffline.evaluated [[zeroAt scale]] =
      .ok [[zeroAt scale, zeroAt scale]] := rfl
  have hsize : ∀ values ∈ [[zeroAt scale, zeroAt scale]], values.length = pairChanges.size := by
    simp [Pipeline.size, pairChanges, Pipeline.make, Predicate.size]
  have hbits : pairOffline.pipeline.bitsInOnePass [[zeroAt scale, zeroAt scale]] =
      .error (.ckks e) :=
    (Pipeline.bitsInOnePass_eq (Pipeline.wellFormed_make _ _) hsize).trans (bitsOfAll_zeroAt h)
  rw [OfflineMonitor.perform_run, hevaluated, Outcome.ok_bind, OfflineMonitor.verdictsOf, hbits]
  rfl

/-- After a run, the next one is refused for a scale that a new monitor does not object to. -/
theorem run_after_run_of_changes :
    OfflineMonitor.start pairChanges evenZeros 1 = .ok pairOffline ∧
      ∃ e e', Action.answers OfflineMonitor.run pairOffline [[[zeroAt 0.001]], [[zeroAt 0.002]]] =
          [.error (.ckks e), .error (.ckks (.scaleMismatch 0.002 0.001))] ∧
        Action.answers OfflineMonitor.run pairOffline [[[zeroAt 0.002]]] = [.error (.ckks e')] ∧
        e' ≠ .scaleMismatch 0.002 0.001 := by
  obtain ⟨e, hconvert, -⟩ := convert_zeroAt (.inl rfl)
  obtain ⟨e', hconvert', he'⟩ := convert_zeroAt (.inr rfl)
  have hscale : ((0.002 : Float) != 0.001) = true := by decide +kernel
  have hlater : (pairOffline.withMemory (some (zeroAt 0.001))).evaluated [[zeroAt 0.002]] =
      .error (.ckks (.scaleMismatch 0.002 0.001)) := by
    rw [OfflineMonitor.evaluated_cons rfl]
    exact congrArg (· >>= _) (values_zeroAt_after hscale)
  refine ⟨rfl, e, e', ?_, ?_, he' _ _⟩
  · rw [Action.answers, run_zeroAt hconvert, Action.answers, OfflineMonitor.perform_run]
    change [_, (pairOffline.withMemory (some (zeroAt 0.001))).evaluated [[zeroAt 0.002]] >>= _] = _
    rw [hlater]
    rfl
  · rw [Action.answers, run_zeroAt hconvert']
    rfl

end CipherMonitor
