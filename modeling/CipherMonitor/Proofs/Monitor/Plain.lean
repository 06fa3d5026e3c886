import CipherMonitor.Predicate.Plain
import CipherMonitor.Proofs.Action
import CipherMonitor.Proofs.Outcome

/-!
# Plain samples in both directions

A monitor of prefixes evaluates a trace from its first sample on, a monitor of suffixes from its
last one.  A predicate that remembers a sample compares each sample with the one before it in the
first case, and with the one after it in the second.

* `Predicate.memoryOf`, `Predicate.valuesBeside` — the memory that a neighbour leaves, and the values
  of a trace whose samples are compared with these neighbours.
* `PlainEvaluator.perform_mapM_evaluate`, `PlainMonitor.perform_mapM_feed` — a trace of samples of
  the right size.
* `Automaton.only`, `Automaton.accepts_only` — words are told apart by automata.
* `acceptsForward`, `acceptsBackward`, `acceptance_in_both_directions` — the acceptance of a trace
  in both directions.
-/

namespace CipherMonitor

/-! ### Memory -/

namespace Predicate

variable {p : Predicate}

/-- The memory that a sample leaves to its neighbour. -/
def memoryOf (p : Predicate) (neighbour : Option (List Float)) : Option Float :=
  neighbour.bind (p.remember none)

/-- The values of a trace whose samples are evaluated with the memory of these neighbours. -/
def valuesBeside (p : Predicate) (neighbours : List (Option (List Float)))
    (trace : List (List Float)) : List (List Float) :=
  List.zipWith (fun neighbour sample => p.plainValues (p.memoryOf neighbour) sample)
    neighbours trace

theorem remember_memoryOf (p : Predicate) (neighbour : Option (List Float)) (sample : List Float) :
    p.remember (p.memoryOf neighbour) sample = p.memoryOf (some sample) := by
  cases hremembers : p.remembers with
  | true => simp [memoryOf, remember, hremembers]
  | false => cases neighbour <;> simp [memoryOf, remember, hremembers]

theorem memoryOf_of_not_remembers (h : p.remembers = false) (neighbour : Option (List Float)) :
    p.memoryOf neighbour = none := by
  cases neighbour <;> simp [memoryOf, remember, h]

/-- Without memory the neighbours play no part. -/
theorem valuesBeside_of_not_remembers (h : p.remembers = false)
    {neighbours : List (Option (List Float))} {trace : List (List Float)}
    (hlength : trace.length ≤ neighbours.length) :
    p.valuesBeside neighbours trace = trace.map (p.plainValues none) := by
  refine List.ext_getElem (by simp [valuesBeside, hlength]) fun i _ _ => ?_
  simp [valuesBeside, memoryOf_of_not_remembers h]

/-- The bits of a trace that is read from its first sample on: samples are compared with those
before them. -/
def wordForward (p : Predicate) (trace : List (List Float)) : List Bool :=
  ((p.valuesBeside (none :: trace.map some) trace).map PlainMonitor.bits).flatten

/-- The bits of a trace that is read from its last sample on and put back in order: samples are
compared with those after them. -/
def wordBackward (p : Predicate) (trace : List (List Float)) : List Bool :=
  ((p.valuesBeside (trace.tail.map some ++ [none]) trace).map PlainMonitor.bits).flatten

theorem wordBackward_of_not_remembers (h : p.remembers = false) (trace : List (List Float)) :
    p.wordBackward trace = p.wordForward trace := by
  rw [wordBackward, wordForward, valuesBeside_of_not_remembers h (by simp; omega),
    valuesBeside_of_not_remembers h (by simp)]

end Predicate

/-- In a list where each element is paired with the one before it, a new last element is paired with
the last one so far. -/
theorem zipWith_before_concat {α β : Type} (f : Option α → α → β) (first : Option α)
    (l : List α) (a : α) :
    List.zipWith f (first :: (l ++ [a]).map some) (l ++ [a]) =
      List.zipWith f (first :: l.map some) l ++ [f ((l.map some).getLastD first) a] := by
  induction l generalizing first with
  | nil => rfl
  | cons b l ih =>
    have htail := ih (some b)
    simp only [List.cons_append, List.map_cons, List.zipWith_cons_cons, List.getLastD_cons]
      at htail ⊢
    rw [htail]

/-- Reading a list backwards, the neighbour read before an element is the one after it. -/
theorem reverse_zipWith_before {α β : Type} (f : Option α → α → β) (l : List α) :
    (List.zipWith f (none :: l.reverse.map some) l.reverse).reverse =
      List.zipWith f (l.tail.map some ++ [none]) l := by
  induction l with
  | nil => rfl
  | cons a l ih =>
    rw [List.reverse_cons, zipWith_before_concat, List.reverse_append, ih]
    cases l with
    | nil => rfl
    | cons b l => simp

/-! ### Traces of samples of the right size -/

namespace PlainEvaluator

variable {p : Predicate} {sample : List Float} {trace : List (List Float)}

theorem perform_evaluate (h : sample.length = p.signalSize) (previous : Option Float) :
    (evaluate sample).perform ⟨p, previous⟩ =
      (.ok (p.plainValues previous sample), ⟨p, p.remember previous sample⟩) := by
  rw [evaluate, Action.perform_bind_of_ok (Action.perform_get _),
    Action.perform_bind_of_ok (by rw [Action.perform_ofOutcome, Predicate.checkSize, if_pos h])]
  rfl

/-- Every sample is evaluated with the memory of the sample before it. -/
theorem perform_mapM_evaluate (h : ∀ sample ∈ trace, sample.length = p.signalSize)
    (neighbour : Option (List Float)) :
    (trace.mapM evaluate).perform ⟨p, p.memoryOf neighbour⟩ =
      (.ok (p.valuesBeside (neighbour :: trace.map some) trace),
        ⟨p, p.memoryOf ((trace.map some).getLastD neighbour)⟩) := by
  induction trace generalizing neighbour with
  | nil => rfl
  | cons sample trace ih =>
    have hsample := perform_evaluate (h sample (List.mem_cons_self ..)) (p.memoryOf neighbour)
    have hrest := ih (fun s hs => h s (List.mem_cons_of_mem _ hs)) (some sample)
    rw [Predicate.remember_memoryOf] at hsample
    rw [List.map_cons, List.getLastD_cons]
    exact Action.perform_mapM_cons_eq_ok_iff.2 ⟨_, _, _, hsample, hrest, rfl⟩

end PlainEvaluator

namespace PlainMonitor

variable {p : Predicate} {a : Automaton} {sample : List Float} {trace : List (List Float)}

theorem perform_feed (h : sample.length = p.signalSize) (previous : Option Float) (q : ℕ) :
    let next := a.run q (bits (p.plainValues previous sample))
    (feed sample).perform ⟨⟨p, previous⟩, a, q⟩ =
      (.ok (a.isFinal next), ⟨⟨p, p.remember previous sample⟩, a, next⟩) := by
  intro next
  rw [feed, Action.perform_bind_of_ok (Action.perform_within_of_ok evaluator
    (fun m evaluator => { m with evaluator }) ⟨⟨p, previous⟩, a, q⟩
    (PlainEvaluator.perform_evaluate h previous))]
  rfl

/-- The automaton reads the truths of all values, sample by sample. -/
theorem perform_mapM_feed (h : ∀ sample ∈ trace, sample.length = p.signalSize)
    (neighbour : Option (List Float)) (q : ℕ) :
    ∃ verdicts, (trace.mapM feed).perform ⟨⟨p, p.memoryOf neighbour⟩, a, q⟩ =
      (.ok verdicts, ⟨⟨p, p.memoryOf ((trace.map some).getLastD neighbour)⟩, a,
        a.run q ((p.valuesBeside (neighbour :: trace.map some) trace).map bits).flatten⟩) := by
  induction trace generalizing neighbour q with
  | nil => exact ⟨[], rfl⟩
  | cons sample trace ih =>
    have hsample := perform_feed (a := a) (h sample (List.mem_cons_self ..))
      (p.memoryOf neighbour) q
    rw [Predicate.remember_memoryOf] at hsample
    obtain ⟨verdicts, hrest⟩ := ih (fun s hs => h s (List.mem_cons_of_mem _ hs)) (some sample)
      (a.run q (bits (p.plainValues (p.memoryOf neighbour) sample)))
    rw [← Automaton.run_append] at hrest
    rw [List.map_cons, List.getLastD_cons]
    exact ⟨_, Action.perform_mapM_cons_eq_ok_iff.2 ⟨_, _, verdicts, hsample, hrest, rfl⟩⟩

end PlainMonitor

/-! ### Automata that tell words apart -/

namespace Automaton

/-- The automaton that accepts one word: its states count the bits that agree, and the last one is
reached by the first bit that does not. -/
def only (word : List Bool) : Automaton where
  initial := 0
  accepting := Array.ofFn (n := word.length + 2) fun q => q.val == word.length
  transitions := Array.ofFn (n := word.length + 2) fun q =>
    (if word[q.val]? = some false then q.val + 1 else word.length + 1,
      if word[q.val]? = some true then q.val + 1 else word.length + 1)

variable {word : List Bool}

theorem numStates_only : (only word).numStates = word.length + 2 := Array.size_ofFn

theorem next_only {q : ℕ} (hq : q < word.length + 2) (bit : Bool) :
    (only word).next q bit = if word[q]? = some bit then q + 1 else word.length + 1 := by
  cases bit <;> simp [only, next, hq]

theorem isFinal_only {q : ℕ} (hq : q < word.length + 2) :
    (only word).isFinal q = (q == word.length) := by
  simp [only, isFinal, Array.getD, hq]

theorem wellFormed_only (word : List Bool) : (only word).WellFormed where
  initial_lt := by rw [numStates_only]; exact Nat.succ_pos _
  accepting_size := by rw [numStates_only]; exact Array.size_ofFn
  next_lt q hq bit := by
    rw [numStates_only] at hq ⊢
    rw [next_only hq]
    split_ifs with hbit
    · have := (List.getElem?_eq_some_iff.1 hbit).1
      omega
    · omega

/-- From a state that has counted some bits, the remaining ones are accepted. -/
theorem isFinal_run_only {q : ℕ} (hq : q < word.length + 2) (w : List Bool) :
    (only word).isFinal ((only word).run q w) = true ↔ q ≤ word.length ∧ w = word.drop q := by
  induction w generalizing q with
  | nil =>
    rw [run_nil, isFinal_only hq, beq_iff_eq, eq_comm (a := []), List.drop_eq_nil_iff]
    omega
  | cons bit w ih =>
    rw [run_cons, next_only hq]
    split_ifs with hbit
    · obtain ⟨hlt, hget⟩ := List.getElem?_eq_some_iff.1 hbit
      rw [ih (by omega), List.drop_eq_getElem_cons hlt, hget]
      simp only [List.cons.injEq, true_and]
      exact ⟨fun ⟨_, hw⟩ => ⟨by omega, hw⟩, fun ⟨_, hw⟩ => ⟨hlt, hw⟩⟩
    · rw [ih (by omega)]
      constructor
      · rintro ⟨hle, -⟩
        omega
      · rintro ⟨-, hw⟩
        have hget : (bit :: w)[0]? = word[q]? := by rw [hw, List.getElem?_drop, Nat.add_zero]
        exact absurd hget.symm hbit

theorem accepts_only (word w : List Bool) : (only word).accepts w = true ↔ w = word := by
  refine (isFinal_run_only (Nat.succ_pos _) w).trans ?_
  rw [List.drop_zero]
  exact ⟨fun h => h.2, fun h => ⟨Nat.zero_le _, h⟩⟩

/-- Words that all automata take for the same are the same. -/
theorem forall_accepts_eq_iff {u w : List Bool} :
    (∀ a : Automaton, a.WellFormed → a.accepts u = a.accepts w) ↔ u = w := by
  refine ⟨fun h => ?_, fun h _ _ => by rw [h]⟩
  rw [← accepts_only w u, h _ (wellFormed_only w), accepts_only]

end Automaton

/-! ### Acceptance -/

/-- Whether the automaton accepts a trace that is read from its first sample on. -/
def acceptsForward (p : Predicate) (a : Automaton) (trace : List (List Float)) : Outcome Bool :=
  ((do
    let _ ← trace.mapM PlainMonitor.feed
    pure (← get).verdict : Action PlainMonitor Bool).perform (PlainMonitor.start p a)).1

/-- Whether the automaton accepts a trace that is evaluated from its last sample on, with the bits
put back in order. -/
def acceptsBackward (p : Predicate) (a : Automaton) (trace : List (List Float)) : Outcome Bool :=
  ((do
    let values ← trace.reverse.mapM PlainEvaluator.evaluate
    pure (a.accepts (values.reverse.map PlainMonitor.bits).flatten) :
      Action PlainEvaluator Bool).perform { predicate := p }).1

section

variable {p : Predicate} {trace : List (List Float)}

theorem acceptsForward_eq (h : ∀ sample ∈ trace, sample.length = p.signalSize) (a : Automaton) :
    acceptsForward p a trace = .ok (a.accepts (p.wordForward trace)) := by
  obtain ⟨verdicts, hfeed⟩ := PlainMonitor.perform_mapM_feed (a := a) h none a.initial
  rw [acceptsForward]
  exact congrArg Prod.fst (Action.perform_bind_of_ok hfeed _)

theorem acceptsBackward_eq (h : ∀ sample ∈ trace, sample.length = p.signalSize) (a : Automaton) :
    acceptsBackward p a trace = .ok (a.accepts (p.wordBackward trace)) := by
  have hreverse : ∀ sample ∈ trace.reverse, sample.length = p.signalSize :=
    fun sample hsample => h sample (List.mem_reverse.1 hsample)
  have hvalues := PlainEvaluator.perform_mapM_evaluate hreverse none
  rw [acceptsBackward, Predicate.wordBackward, Predicate.valuesBeside, ← reverse_zipWith_before]
  exact congrArg Prod.fst (Action.perform_bind_of_ok hvalues _)

/-- The acceptance of a trace of samples of the right size, read forward and backward.  Both
readings succeed.  Without memory they agree; otherwise they agree for all automata exactly when the
comparisons with the samples before and with those after give the same bits. -/
theorem acceptance_in_both_directions (h : ∀ sample ∈ trace, sample.length = p.signalSize) :
    (∀ a, acceptsForward p a trace = .ok (a.accepts (p.wordForward trace)) ∧
      acceptsBackward p a trace = .ok (a.accepts (p.wordBackward trace))) ∧
    (p.remembers = false → ∀ a, acceptsBackward p a trace = acceptsForward p a trace) ∧
    ((∀ a : Automaton, a.WellFormed → acceptsBackward p a trace = acceptsForward p a trace) ↔
      p.wordBackward trace = p.wordForward trace) := by
  refine ⟨fun a => ⟨acceptsForward_eq h a, acceptsBackward_eq h a⟩, fun hremembers a => ?_, ?_⟩
  · rw [acceptsForward_eq h, acceptsBackward_eq h,
      Predicate.wordBackward_of_not_remembers hremembers]
  · simp only [acceptsForward_eq h, acceptsBackward_eq h, Except.ok.injEq]
    exact Automaton.forall_accepts_eq_iff

end

/-- Whether all bits of a word are ones. -/
def allOnes : Automaton where
  initial := 0
  accepting := #[true, false]
  transitions := #[(1, 0), (1, 1)]

/-- Two samples around `4`: a threshold reads them alike in both directions. -/
theorem acceptance_in_both_directions_threshold :
    acceptsForward (.threshold true 4.0 100.0) allOnes [[3.0], [5.0]] = .ok false ∧
      acceptsBackward (.threshold true 4.0 100.0) allOnes [[3.0], [5.0]] = .ok false := by
  have hsize : ∀ sample ∈ [[(3.0 : Float)], [5.0]],
      sample.length = (Predicate.threshold true 4.0 100.0).signalSize := by decide
  have h := acceptance_in_both_directions hsize
  have hword : allOnes.accepts (Predicate.wordForward (.threshold true 4.0 100.0) [[3.0], [5.0]]) =
      false := by decide +kernel
  have hforward := (h.1 allOnes).1
  rw [hword] at hforward
  exact ⟨hforward, (h.2.1 rfl allOnes).trans hforward⟩

/-- A signal that rises from `3` to `5` has changes between `0` and `50` when it is read forward.
Read backward, it falls. -/
theorem acceptance_of_rising_signal :
    acceptsForward (.deltaBand 0.0 50.0 100.0) allOnes [[3.0], [5.0]] = .ok true ∧
      acceptsBackward (.deltaBand 0.0 50.0 100.0) allOnes [[3.0], [5.0]] = .ok false := by
  have h : ∀ sample ∈ [[(3.0 : Float)], [5.0]],
      sample.length = (Predicate.deltaBand 0.0 50.0 100.0).signalSize := by decide
  rw [acceptsForward_eq h, acceptsBackward_eq h]
  constructor <;> rw [Except.ok.injEq] <;> decide +kernel

end CipherMonitor
