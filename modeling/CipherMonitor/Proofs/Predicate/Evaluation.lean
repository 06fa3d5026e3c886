import CipherMonitor.Predicate.Encrypted
import CipherMonitor.Proofs.Action
import CipherMonitor.Proofs.Outcome

/-!
# What an evaluation gives and keeps

* `Predicate.signalSize_pos` — no sample is empty.
* `Predicate.length_ciphertexts`, `PredicateEvaluator.length_evaluate` — one result for each
  proposition.
* `PredicateEvaluator.perform_evaluate_eq_ok_iff` — what a successful evaluation checks and stores.
-/

namespace CipherMonitor

open Ckks

theorem Predicate.signalSize_pos (p : Predicate) : 0 < p.signalSize := by
  cases p <;> exact Nat.succ_pos _

theorem Arithmetic.length_band {k : Arithmetic} {x : Ciphertext} {low high margin : Float}
    {results : List Ciphertext} (h : k.band x low high margin = .ok results) :
    results.length = 2 := by
  obtain ⟨above, -, h⟩ := Outcome.bind_eq_ok_iff.1 h
  obtain ⟨below, -, h⟩ := Outcome.bind_eq_ok_iff.1 h
  obtain rfl := Outcome.pure_eq_ok_iff.1 h
  rfl

/-- The formulas give one ciphertext for each proposition. -/
theorem Predicate.length_ciphertexts {p : Predicate} {k : Arithmetic} {previous : Option Ciphertext}
    {sample results : List Ciphertext} (h : p.ciphertexts k previous sample = .ok results) :
    results.length = p.size := by
  obtain ⟨x, -, h⟩ := Outcome.bind_eq_ok_iff.1 h
  cases p with
  | threshold above constant reference =>
    cases above with
    | false =>
      obtain ⟨r, -, h⟩ := Outcome.bind_eq_ok_iff.1 h
      obtain rfl := Outcome.pure_eq_ok_iff.1 h
      rfl
    | true =>
      obtain ⟨r, -, h⟩ := Outcome.bind_eq_ok_iff.1 h
      obtain rfl := Outcome.pure_eq_ok_iff.1 h
      rfl
  | band low high reference => exact Arithmetic.length_band h
  | deltaBand low high reference =>
    cases previous with
    | none =>
      obtain rfl := Outcome.pure_eq_ok_iff.1 h
      rfl
    | some before =>
      obtain ⟨change, -, h⟩ := Outcome.bind_eq_ok_iff.1 h
      exact Arithmetic.length_band h
  | deviation center radius reference =>
    obtain ⟨distance, -, h⟩ := Outcome.bind_eq_ok_iff.1 h
    obtain ⟨squared, -, h⟩ := Outcome.bind_eq_ok_iff.1 h
    obtain ⟨r, -, h⟩ := Outcome.bind_eq_ok_iff.1 h
    obtain rfl := Outcome.pure_eq_ok_iff.1 h
    rfl
  | safeDistance reaction inverse reference =>
    obtain ⟨v, -, h⟩ := Outcome.bind_eq_ok_iff.1 h
    obtain ⟨r, -, h⟩ := Outcome.bind_eq_ok_iff.1 h
    obtain rfl := Outcome.pure_eq_ok_iff.1 h
    rfl

namespace PredicateEvaluator

variable {e e' : PredicateEvaluator} {sample values : List Ciphertext}

/-- A successful formula stores the sample if the predicate remembers it. -/
theorem perform_formula_eq_ok_iff :
    (formula sample).perform e = (.ok values, e') ↔
      e.predicate.ciphertexts e.arithmetic e.previous sample = .ok values ∧
        e' = { e with previous := e.predicate.remember e.previous sample } := by
  rw [formula, Action.perform_bind_of_ok (Action.perform_get e)]
  simp only [Action.perform_bind_eq_ok_iff, Action.perform_ofOutcome, Action.perform_set,
    Action.perform_pure, Prod.mk.injEq, Except.ok.injEq]
  constructor
  · rintro ⟨results, _, ⟨hresults, rfl⟩, ⟨⟩, _, ⟨-, rfl⟩, rfl, rfl⟩
    exact ⟨hresults, rfl⟩
  · rintro ⟨hresults, rfl⟩
    exact ⟨values, e, ⟨hresults, rfl⟩, ⟨⟩, _, ⟨trivial, rfl⟩, rfl, rfl⟩

/-- An evaluation checks the sample, applies the formula and brings the results to the lowest level. -/
theorem perform_evaluate_eq_ok_iff :
    (evaluate sample).perform e = (.ok values, e') ↔
      e.checkSample sample = .ok () ∧
        (∃ results, e.predicate.ciphertexts e.arithmetic e.previous sample = .ok results ∧
          results.mapM (fun c => c.normalize e.arithmetic.params) = .ok values) ∧
        e' = { e with previous := e.predicate.remember e.previous sample } := by
  rw [evaluate, Action.perform_bind_of_ok (Action.perform_get e)]
  simp only [Action.perform_bind_eq_ok_iff, Action.perform_ofOutcome, Prod.mk.injEq,
    perform_formula_eq_ok_iff]
  constructor
  · rintro ⟨⟨⟩, _, ⟨hcheck, rfl⟩, results, _, ⟨hresults, rfl⟩, hvalues, rfl⟩
    exact ⟨hcheck, ⟨results, hresults, hvalues⟩, rfl⟩
  · rintro ⟨hcheck, ⟨results, hresults, hvalues⟩, rfl⟩
    exact ⟨⟨⟩, e, ⟨hcheck, rfl⟩, results, _, ⟨hresults, rfl⟩, hvalues, rfl⟩

theorem length_evaluate (h : (evaluate sample).perform e = (.ok values, e')) :
    values.length = e.predicate.size := by
  obtain ⟨-, ⟨results, hresults, hvalues⟩, -⟩ := perform_evaluate_eq_ok_iff.1 h
  rw [← (Outcome.mapM_eq_ok_iff.1 hvalues).length_eq]
  exact Predicate.length_ciphertexts hresults

end PredicateEvaluator

end CipherMonitor
