import CipherMonitor.Proofs.Ckks.Position
import CipherMonitor.Proofs.Predicate.Safety

/-!
# What changes are measured against

A band on changes compares a sample with the last one that was evaluated successfully.  The sample is
remembered before the results are brought to the lowest level, but a checked sample has the modulus
of its level, and nothing can fail from there: an evaluation that fails changes nothing.

* `PredicateEvaluator.checkSample_eq_ok_iff` — the check of a sample.
* `Arithmetic.beside_band` — both results of a band stay at the level and the modulus.
* `PredicateEvaluator.exists_values` — a formula that remembers its samples never fails late.
* `PredicateEvaluator.state_of_evaluate_error` — evaluations that fail, with any predicate.
* `Arithmetic.bandOfChange`, `PredicateEvaluator.perform_evaluate_change` — a successful evaluation of
  a change.
* `PredicateEvaluator.memory_after_changes` — the memory after any calls.
* `PredicateEvaluator.changes_of_accepted` — answers and memory along any calls.
-/

namespace CipherMonitor

open Ckks Ckks.Ciphertext

namespace Arithmetic

variable {k : Arithmetic} {x r : Ciphertext} {v low high margin : Float}

theorem beside_plus (h : k.plus x v = .ok r) : x.Beside r := by
  obtain ⟨t, -, h⟩ := Outcome.bind_eq_ok_iff.1 h
  exact beside_withFirst h

theorem beside_minus (h : k.minus x v = .ok r) : x.Beside r := by
  obtain ⟨t, -, h⟩ := Outcome.bind_eq_ok_iff.1 h
  exact beside_withFirst h

theorem beside_band {rs : List Ciphertext} (h : k.band x low high margin = .ok rs) :
    ∀ r ∈ rs, x.Beside r := by
  obtain ⟨above, habove, h⟩ := Outcome.bind_eq_ok_iff.1 h
  obtain ⟨below, hbelow, h⟩ := Outcome.bind_eq_ok_iff.1 h
  obtain rfl := Outcome.pure_eq_ok_iff.1 h
  intro r hr
  rcases List.mem_pair.1 hr with rfl | rfl
  · exact beside_minus habove
  · exact (beside_negate x).trans (beside_plus hbelow)

/-- The band on the change from one ciphertext to the next, on the lowest level. -/
def bandOfChange (k : Arithmetic) (low high margin : Float) (before x : Ciphertext) :
    Outcome (List Ciphertext) := do
  let change ← x.sub before
  let results ← k.band change low high margin
  results.mapM fun c => c.normalize k.params

end Arithmetic

namespace PredicateEvaluator

variable {e e' : PredicateEvaluator} {sample rs values : List Ciphertext} {fault : Fault}
  {low high reference : Float} {k : Arithmetic}

theorem checkCiphertext_eq_ok_iff {p : Parameters} {c : Ciphertext} :
    checkCiphertext p c = .ok () ↔ p.check c = .ok () ∧ c.size = 2 := by
  unfold checkCiphertext
  rw [Outcome.check_bind_eq_ok_iff]
  split_ifs with hsize
  · simp [hsize, pure, Except.pure]
  · simp [hsize]

theorem checkSample_eq_ok_iff : e.checkSample sample = .ok () ↔ e.Fits sample := by
  unfold checkSample Predicate.checkSize
  rw [Outcome.check_bind_eq_ok_iff, Outcome.forM_eq_ok_iff]
  simp only [checkCiphertext_eq_ok_iff]
  constructor
  · rintro ⟨hlength, hall⟩
    split_ifs at hlength with hsize
    exact ⟨hsize, fun c hc => (hall c hc).1, fun c hc => (hall c hc).2⟩
  · rintro ⟨hsize, hcheck, htwo⟩
    exact ⟨if_pos hsize, fun c hc => ⟨hcheck c hc, htwo c hc⟩⟩

theorem results_eq_ok_iff : e.results sample = .ok rs ↔
    e.Fits sample ∧ e.predicate.ciphertexts e.arithmetic e.previous sample = .ok rs := by
  unfold results
  rw [Outcome.check_bind_eq_ok_iff, checkSample_eq_ok_iff]

/-- The formula of a band on changes: a sample of one ciphertext, compared with the memory. -/
theorem results_change (hf : e.predicate = .deltaBand low high reference)
    (h : e.results sample = .ok rs) : ∃ x, sample = [x] ∧ e.Fits sample ∧
      ((e.previous = none ∧ rs = [x, x]) ∨ ∃ before change, e.previous = some before ∧
        x.sub before = .ok change ∧
        e.arithmetic.band change low high (strictMargin reference) = .ok rs) := by
  obtain ⟨hfits, h⟩ := results_eq_ok_iff.1 h
  have hlength := hfits.length_eq
  rw [hf] at hlength h
  obtain ⟨x, rfl⟩ := List.length_eq_one_iff.1 hlength
  refine ⟨x, rfl, hfits, ?_⟩
  obtain ⟨y, hy, h⟩ := Outcome.bind_eq_ok_iff.1 h
  obtain rfl : x = y := Except.ok.inj hy
  cases hprevious : e.previous with
  | none =>
    rw [hprevious] at h
    exact .inl ⟨rfl, (Outcome.pure_eq_ok_iff.1 h).symm⟩
  | some before =>
    rw [hprevious] at h
    obtain ⟨change, hchange, h⟩ := Outcome.bind_eq_ok_iff.1 h
    exact .inr ⟨before, change, rfl, hchange, h⟩

/-- Once the formula of a predicate with memory has succeeded, the rest succeeds. -/
theorem exists_values (hremembers : e.predicate.remembers = true) (h : e.results sample = .ok rs) :
    ∃ values, e.values sample = .ok values := by
  obtain ⟨low, high, reference, hf⟩ : ∃ low high reference,
      e.predicate = .deltaBand low high reference := by
    cases hf : e.predicate with
    | deltaBand low high reference => exact ⟨low, high, reference, rfl⟩
    | _ =>
      rw [hf] at hremembers
      cases hremembers
  obtain ⟨x, rfl, hfits, hrs⟩ := results_change hf h
  have hx := Parameters.logQ_of_check (hfits.check x (by simp))
  have hbeside : ∀ r ∈ rs, x.Beside r := by
    rcases hrs with ⟨-, rfl⟩ | ⟨before, change, -, hchange, hband⟩
    · simpa using Beside.refl x
    · exact fun r hr => (beside_sub hchange).trans (Arithmetic.beside_band hband r hr)
  obtain ⟨values, hvalues, -⟩ := Outcome.exists_mapM (P := fun _ _ => True) fun r hr => by
    obtain ⟨s, hs⟩ := exists_normalize ((hbeside r hr).logQ hx)
    exact ⟨s, hs, trivial⟩
  refine ⟨values, ?_⟩
  rw [PredicateEvaluator.values, h, Outcome.ok_bind, hvalues]

/-- An evaluation that fails changes nothing. -/
theorem state_of_evaluate_error (h : (evaluate sample).perform e = (.error fault, e')) : e' = e := by
  rw [perform_evaluate] at h
  obtain ⟨hvalues, rfl⟩ := Prod.mk.inj h
  suffices hmemory : e.memoryAfter sample = e.previous by rw [hmemory, withMemory_previous]
  cases hresults : e.results sample with
  | error fault => exact memoryAfter_of_error hresults
  | ok rs =>
    cases hremembers : e.predicate.remembers with
    | false => exact memoryAfter_of_not_remembers hremembers
    | true =>
      obtain ⟨values, hok⟩ := exists_values hremembers hresults
      rw [hok] at hvalues
      cases hvalues

/-- An evaluation that succeeds remembers its sample, and gives the band on the change since the one
that was remembered. -/
theorem perform_evaluate_change (hf : e.predicate = .deltaBand low high reference)
    (h : (evaluate sample).perform e = (.ok values, e')) :
    ∃ x, sample = [x] ∧ e' = e.withMemory (some x) ∧
      ((e.previous = none ∧ ∃ r, x.normalize e.arithmetic.params = .ok r ∧ values = [r, r]) ∨
        ∃ before, e.previous = some before ∧
          e.arithmetic.bandOfChange low high (strictMargin reference) before x = .ok values) := by
  rw [perform_evaluate] at h
  obtain ⟨hvalues, rfl⟩ := Prod.mk.inj h
  obtain ⟨rs, hresults, hmapM⟩ := Outcome.bind_eq_ok_iff.1 hvalues
  obtain ⟨x, rfl, -, hrs⟩ := results_change hf hresults
  refine ⟨x, rfl, ?_, ?_⟩
  · rw [memoryAfter_of_ok hresults, Predicate.remember_of_remembers (by rw [hf]; rfl)]
    rfl
  · rcases hrs with ⟨hprevious, rfl⟩ | ⟨before, change, hprevious, hchange, hband⟩
    · refine .inl ⟨hprevious, ?_⟩
      have hpair := Outcome.mapM_eq_ok_iff.1 hmapM
      simp only [List.forall₂_cons_left_iff, List.forall₂_nil_left_iff] at hpair
      obtain ⟨r, _, hr, ⟨r', _, hr', rfl, rfl⟩, rfl⟩ := hpair
      obtain rfl : r = r' := Except.ok.inj (hr.symm.trans hr')
      exact ⟨r, hr, rfl⟩
    · refine .inr ⟨before, hprevious, ?_⟩
      rw [Arithmetic.bandOfChange, hchange, Outcome.ok_bind, hband, Outcome.ok_bind, hmapM]

/-! ### Any sequence of calls -/

/-- A band on changes that has not seen a sample. -/
def ofChanges (k : Arithmetic) (low high reference : Float) : PredicateEvaluator where
  predicate := .deltaBand low high reference
  arithmetic := k

/-- The ciphertext of the last sample that was evaluated successfully. -/
def lastAccepted (e : PredicateEvaluator) (history : List (List Ciphertext)) : Option Ciphertext :=
  (Action.accepted evaluate e history).getLast?.bind List.head?

/-- The memory is the last sample that was evaluated successfully, and every such sample is one
ciphertext. -/
theorem memory_after_changes (history : List (List Ciphertext)) :
    Action.after evaluate (ofChanges k low high reference) history =
        (ofChanges k low high reference).withMemory
          ((ofChanges k low high reference).lastAccepted history) ∧
      ∀ sample ∈ Action.accepted evaluate (ofChanges k low high reference) history,
        ∃ x, sample = [x] := by
  induction history using List.reverseRecOn with
  | nil => exact ⟨rfl, by simp [Action.accepted]⟩
  | append_singleton history sample ih =>
    obtain ⟨hafter, hall⟩ := ih
    have hpredicate : (Action.after evaluate (ofChanges k low high reference) history).predicate =
        .deltaBand low high reference := by
      rw [hafter]
      rfl
    rw [Action.after_concat, lastAccepted]
    rcases hperform : (evaluate sample).perform
      (Action.after evaluate (ofChanges k low high reference) history) with ⟨fault | values, e'⟩
    · obtain rfl := state_of_evaluate_error hperform
      rw [Action.accepted_concat_of_error hperform]
      exact ⟨hafter, hall⟩
    · obtain ⟨x, rfl, rfl, -⟩ := perform_evaluate_change hpredicate hperform
      rw [Action.accepted_concat_of_ok hperform, List.getLast?_concat]
      refine ⟨?_, ?_⟩
      · rw [hafter]
        rfl
      · intro sample hsample
        rcases List.mem_append.1 hsample with h | h
        · exact hall sample h
        · exact ⟨x, List.mem_singleton.1 h⟩

/-- A band on changes along any calls with any samples.  It is primed as soon as one call has succeeded.
A call that fails leaves everything as it was.  A call that succeeds remembers its sample; the first
one gives this sample twice, every later one the band on the change since the latest sample that was
evaluated successfully, all of it on the lowest level. -/
theorem changes_of_accepted (k : Arithmetic) (low high reference : Float)
    (history : List (List Ciphertext)) (sample : List Ciphertext) :
    let e := Action.after evaluate (ofChanges k low high reference) history
    let earlier := Action.accepted evaluate (ofChanges k low high reference) history
    (e.primed = true ↔ earlier ≠ []) ∧
    (∀ fault e', (evaluate sample).perform e = (.error fault, e') → e' = e) ∧
    ∀ values e', (evaluate sample).perform e = (.ok values, e') →
      ∃ x, sample = [x] ∧ e' = e.withMemory (some x) ∧ e'.primed = true ∧
        (earlier = [] → ∃ r, x.normalize k.params = .ok r ∧ values = [r, r]) ∧
        ∀ latest, earlier.getLast? = some latest → ∃ before, latest = [before] ∧
          k.bandOfChange low high (strictMargin reference) before x = .ok values := by
  intro e earlier
  obtain ⟨hafter, hall⟩ :
      e = (ofChanges k low high reference).withMemory _ ∧ ∀ sample ∈ earlier, ∃ x, sample = [x] :=
    memory_after_changes history
  have hprevious : e.previous = earlier.getLast?.bind List.head? := congrArg previous hafter
  have hpredicate : e.predicate = .deltaBand low high reference := congrArg predicate hafter
  have harithmetic : e.arithmetic = k := congrArg arithmetic hafter
  refine ⟨?_, fun fault e' => state_of_evaluate_error, fun values e' hperform => ?_⟩
  · rw [primed, hprevious]
    cases hlast : earlier.getLast? with
    | none => simp [List.getLast?_eq_none_iff.1 hlast]
    | some latest =>
      have hmem := List.mem_of_getLast? hlast
      obtain ⟨before, rfl⟩ := hall latest hmem
      simp [List.ne_nil_of_mem hmem]
  · obtain ⟨x, rfl, rfl, hvalues⟩ := perform_evaluate_change hpredicate hperform
    rw [harithmetic, hprevious] at hvalues
    refine ⟨x, rfl, rfl, rfl, fun hnil => ?_, fun latest hlast => ?_⟩
    · rw [hnil] at hvalues
      rcases hvalues with ⟨-, hvalues⟩ | ⟨before, hbefore, -⟩
      · exact hvalues
      · cases hbefore
    · obtain ⟨before, rfl⟩ := hall latest (List.mem_of_getLast? hlast)
      rw [hlast] at hvalues
      rcases hvalues with ⟨hnone, -⟩ | ⟨before', hbefore, hvalues⟩
      · cases hnone
      · obtain rfl : before = before' := Option.some.inj hbefore
        exact ⟨before, rfl, hvalues⟩

/-- A band without a key, for ciphertexts modulo nine bits. -/
def keyless : Arithmetic where
  params := twoLevels
  key := { rows := [], logSpecial := 3, logPQ := 12 }

/-- A sample, an empty sample that is refused, and the first one again. -/
theorem changes_of_accepted_nineBits :
    Action.accepted evaluate (ofChanges keyless (-1.0) 1.0 1.0) [[nineBits], []] = [[nineBits]] ∧
    ∃ values e', (evaluate [nineBits]).perform
        (Action.after evaluate (ofChanges keyless (-1.0) 1.0 1.0) [[nineBits], []]) =
          (.ok values, e') ∧
      e'.previous = some nineBits ∧
      keyless.bandOfChange (-1.0) 1.0 (strictMargin 1.0) nineBits nineBits = .ok values := by
  have haccepted : Action.accepted evaluate (ofChanges keyless (-1.0) 1.0 1.0) [[nineBits], []] =
      [[nineBits]] := by decide +kernel
  have hok : ((evaluate [nineBits]).perform
      (Action.after evaluate (ofChanges keyless (-1.0) 1.0 1.0) [[nineBits], []])).1.isOk = true := by
    decide +kernel
  refine ⟨haccepted, ?_⟩
  rcases hperform : (evaluate [nineBits]).perform
    (Action.after evaluate (ofChanges keyless (-1.0) 1.0 1.0) [[nineBits], []]) with
      ⟨fault | values, e'⟩
  · rw [hperform] at hok
    cases hok
  · obtain ⟨-, -, hvalues⟩ :=
      changes_of_accepted keyless (-1.0) 1.0 1.0 [[nineBits], []] [nineBits]
    obtain ⟨x, hx, rfl, -, -, hlatest⟩ := hvalues values e' hperform
    obtain ⟨before, hbefore, hband⟩ := hlatest [nineBits] (by rw [haccepted]; rfl)
    obtain rfl := (List.cons.inj hx).1
    obtain rfl := (List.cons.inj hbefore).1
    exact ⟨values, _, rfl, rfl, hband⟩

end PredicateEvaluator

end CipherMonitor
