import Mathlib.Data.List.Basic
import CipherMonitor.Automaton.Basic

/-!
# Descriptions of automata

A description is an initial state, a list of accepting states and the transitions.

* `Automaton.getD_acceptance` — the table of a list of states.
* `Automaton.flaw?_eq_none_iff` — a description without a flaw names nothing but states.
* `Automaton.wellFormed_of_make`, `Automaton.make_finals` — the constructor gives well-formed
  automata, and every well-formed automaton back from its own description.
-/

namespace CipherMonitor.Automaton

variable {a : Automaton} {initial states q : ℕ} {finals : List ℕ} {transitions : Array (ℕ × ℕ)}

/-! ### Accepting states -/

section

variable {α : Type} (f : ℕ → α) (qs : List ℕ)

theorem size_foldl_setIfInBounds (table : Array α) :
    (qs.foldl (fun table q => table.setIfInBounds q (f q)) table).size = table.size := by
  induction qs generalizing table with
  | nil => rfl
  | cons p qs ih => exact (ih _).trans Array.size_setIfInBounds

/-- Entries that are written down one after the other. -/
theorem getD_foldl_setIfInBounds (d : α) (table : Array α) (hq : q < table.size) :
    (qs.foldl (fun table q => table.setIfInBounds q (f q)) table).getD q d =
      if q ∈ qs then f q else table.getD q d := by
  induction qs generalizing table with
  | nil => simp
  | cons p qs ih =>
    rw [List.foldl_cons, ih _ (by simpa using hq)]
    by_cases hp : p = q
    · subst hp
      simp [Array.getD, hq]
    · simp [Array.getD, hq, hp, Ne.symm hp]

end

theorem size_acceptance (states : ℕ) (finals : List ℕ) :
    (acceptance states finals).size = states :=
  (size_foldl_setIfInBounds (fun _ => true) finals _).trans Array.size_replicate

/-- The table marks the states of the list. -/
theorem getD_acceptance (hq : q < states) :
    (acceptance states finals).getD q false = decide (q ∈ finals) := by
  rw [acceptance, getD_foldl_setIfInBounds (fun _ => true) finals _ _ (by simpa using hq)]
  simp [Array.getD]

theorem mem_finals : q ∈ a.finals ↔ q < a.accepting.size ∧ a.isFinal q = true := by
  rw [finals, List.mem_filter, List.mem_range]

/-- The table of the accepting states of an automaton is its own. -/
theorem acceptance_finals : acceptance a.accepting.size a.finals = a.accepting := by
  refine Array.ext (size_acceptance _ _) fun q hq hq' => ?_
  have hmark : (acceptance a.accepting.size a.finals).getD q false = a.isFinal q := by
    rw [getD_acceptance hq', Bool.eq_iff_iff, decide_eq_true_iff, mem_finals, and_iff_right hq']
  simpa [isFinal, Array.getD, hq, hq'] using hmark

/-! ### Flaws -/

theorem strayState?_eq_none_iff : strayState? transitions = none ↔
    ∀ t ∈ transitions, t.1 < transitions.size ∧ t.2 < transitions.size := by
  simp only [strayState?, Option.map_eq_none_iff, List.find?_eq_none, Bool.or_eq_true,
    decide_eq_true_eq, not_or, Nat.not_le]
  constructor
  · intro h t ht
    obtain ⟨q, hq, rfl⟩ := Array.mem_iff_getElem.1 ht
    exact h (transitions[q], q) (List.mk_mem_zipIdx_iff_getElem?.2 (by simp [hq]))
  · rintro h ⟨t, q⟩ ht
    exact h t (Array.mem_toList_iff.1 (List.fst_mem_of_mem_zipIdx ht))

/-- A description has no flaw when it has states and names no others. -/
theorem flaw?_eq_none_iff : flaw? initial finals transitions = none ↔
    initial < transitions.size ∧
      (∀ t ∈ transitions, t.1 < transitions.size ∧ t.2 < transitions.size) ∧
      ∀ q ∈ finals, q < transitions.size := by
  rw [← strayState?_eq_none_iff]
  unfold flaw?
  dsimp only
  split_ifs with hstates hinitial
  · simp [hstates]
  · simp [Nat.not_lt.2 hinitial]
  · cases strayState? transitions <;> simp [Nat.not_le.1 hinitial]

theorem make_eq_ok_iff : make initial finals transitions = .ok a ↔
    flaw? initial finals transitions = none ∧
      a = ⟨initial, acceptance transitions.size finals, transitions⟩ := by
  unfold make
  cases flaw? initial finals transitions <;> simp [eq_comm]

theorem next_of_getD {t : ℕ × ℕ} (h : a.transitions.getD q (0, 0) = t) (bit : Bool) :
    a.next q bit = if bit then t.2 else t.1 := by
  rw [next, h]

theorem next_lt_of_mem {n : ℕ} (h : ∀ t ∈ a.transitions, t.1 < n ∧ t.2 < n) (hq : q < a.numStates)
    (bit : Bool) : a.next q bit < n := by
  obtain ⟨hfalse, htrue⟩ := h _ (Array.getElem_mem hq)
  have hq : q < a.transitions.size := hq
  cases bit <;> simpa [next, Array.getD, hq]

/-- What the constructor gives is well-formed. -/
theorem wellFormed_of_make (h : make initial finals transitions = .ok a) : a.WellFormed := by
  obtain ⟨hflaw, rfl⟩ := make_eq_ok_iff.1 h
  obtain ⟨hinitial, htargets, -⟩ := flaw?_eq_none_iff.1 hflaw
  exact ⟨hinitial, size_acceptance _ _, fun q hq => next_lt_of_mem htargets hq⟩

/-- The successors of the states of a well-formed automaton are states. -/
theorem WellFormed.targets_lt (ha : a.WellFormed) :
    ∀ t ∈ a.transitions, t.1 < a.numStates ∧ t.2 < a.numStates := by
  intro t ht
  obtain ⟨q, hq, rfl⟩ := Array.mem_iff_getElem.1 ht
  have hfalse := ha.next_lt q hq false
  have htrue := ha.next_lt q hq true
  simp only [next, hq, dite_true] at hfalse htrue
  exact ⟨hfalse, htrue⟩

/-- A well-formed automaton is the automaton of its description. -/
theorem make_finals (ha : a.WellFormed) : make a.initial a.finals a.transitions = .ok a := by
  refine make_eq_ok_iff.2 ⟨flaw?_eq_none_iff.2 ⟨ha.initial_lt, ha.targets_lt, fun q hq => ?_⟩, ?_⟩
  · exact Nat.lt_of_lt_of_eq (mem_finals.1 hq).1 ha.accepting_size
  · rw [show a.transitions.size = a.accepting.size from ha.accepting_size.symm, acceptance_finals]

end CipherMonitor.Automaton
