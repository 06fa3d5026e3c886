import Mathlib.Data.Fintype.BigOperators
import CipherMonitor.Automaton.Reversal
import CipherMonitor.Proofs.Automaton.Minimization

/-!
# Reversed languages

A word moves a set of states to the states that the reversed word leads into the set.  When all states
are reachable, different sets have different languages, so reversing twice minimizes.

* `Automaton.getD_run_stateSets` — what a word does to a set.
* `Automaton.accepts_reversed`, `Automaton.exists_run_reversed` — the reversed automaton has the
  reversed language, and all of its states are reachable.
* `Automaton.separates_stateSets` — sets of reachable states stand for their languages.
* `Automaton.reversed_reversed` — reversing twice gives the smallest automaton.
-/

namespace CipherMonitor.Automaton

variable {a : Automaton} {q : ℕ} {set : Array Bool}

/-! ### Sets of states -/

theorem size_run_stateSets (hset : set.size = a.numStates) (word : List Bool) :
    (a.stateSets.run set word).size = a.numStates := by
  induction word using List.reverseRecOn with
  | nil => exact hset
  | append_singleton word bit _ =>
    rw [Exploration.run_concat]
    exact Array.size_ofFn

theorem getD_preimage (hq : q < a.numStates) (bit : Bool) :
    (a.preimage set bit).getD q false = set.getD (a.next q bit) false := by
  simp [preimage, hq]

/-- A word keeps the states that the reversed word leads into the set. -/
theorem getD_run_stateSets (ha : a.WellFormed) (hq : q < a.numStates) (word : List Bool) :
    (a.stateSets.run set word).getD q false = set.getD (a.run q word.reverse) false := by
  induction word using List.reverseRecOn generalizing q with
  | nil => rfl
  | append_singleton word bit ih =>
    rw [Exploration.run_concat, List.reverse_concat, run_cons, ← ih (ha.next_lt q hq bit)]
    exact getD_preimage hq bit

/-- The accepting states, moved by a word, hold the initial state if the reversed word is accepted. -/
theorem accepts_stateSets (ha : a.WellFormed) (word : List Bool) :
    a.stateSets.accepts a.accepting word = a.accepts word.reverse :=
  getD_run_stateSets ha ha.initial_lt word

/-- There are two to the number of states sets. -/
theorem fewKeys_stateSets (ha : a.WellFormed) :
    a.stateSets.FewKeys a.accepting (2 ^ a.numStates) := by
  refine ⟨Finset.univ.image fun f : Fin a.numStates → Bool => Array.ofFn f, ?_, fun w => ?_⟩
  · exact Finset.card_image_le.trans (by simp)
  · have hsize := size_run_stateSets ha.accepting_size w
    change a.stateSets.run a.accepting w ∈ _
    generalize a.stateSets.run a.accepting w = set at hsize
    rw [← hsize]
    exact Finset.mem_image.2 ⟨fun i => set[i], Finset.mem_univ _, Array.ofFn_getElem⟩

theorem congruent_stateSets : a.stateSets.Congruent set :=
  Exploration.congruent_of_injective Function.injective_id

/-! ### The reversed automaton -/

theorem wellFormed_reversed (ha : a.WellFormed) : a.reversed.WellFormed :=
  Exploration.wellFormed_automaton (fewKeys_stateSets ha)

theorem accepts_reversed (ha : a.WellFormed) (word : List Bool) :
    a.reversed.accepts word = a.accepts word.reverse :=
  (Exploration.accepts_automaton (fewKeys_stateSets ha) congruent_stateSets word).trans
    (accepts_stateSets ha word)

theorem exists_run_reversed (ha : a.WellFormed) (hq : q < a.reversed.numStates) :
    ∃ word, a.reversed.run a.reversed.initial word = q :=
  Exploration.exists_run_automaton (fewKeys_stateSets ha) congruent_stateSets hq

/-! ### Reversing twice -/

/-- When all states are reachable, a state in which two sets differ is reached by a word, and the
reversed word tells the sets apart. -/
theorem separates_stateSets (ha : a.WellFormed)
    (hreach : ∀ q < a.numStates, ∃ word, a.run a.initial word = q) :
    a.stateSets.Separates a.accepting := by
  intro u v
  constructor
  · intro hset w
    have hset : a.stateSets.run a.accepting u = a.stateSets.run a.accepting v := hset
    rw [Exploration.accepts, Exploration.run_append, hset, ← Exploration.run_append,
      Exploration.accepts]
  · intro hlang
    have hsize := size_run_stateSets ha.accepting_size
    have hstate : ∀ q < a.numStates, (a.stateSets.run a.accepting u).getD q false =
        (a.stateSets.run a.accepting v).getD q false := by
      intro q hq
      obtain ⟨word, rfl⟩ := hreach q hq
      have haccepts : ∀ u : List Bool, a.accepting.getD (a.run (a.run a.initial word) u.reverse) false =
          a.stateSets.accepts a.accepting (u ++ word.reverse) := by
        intro u
        rw [accepts_stateSets ha, List.reverse_append, List.reverse_reverse, accepts, run_append]
        rfl
      rw [getD_run_stateSets ha hq, getD_run_stateSets ha hq, haccepts, haccepts]
      exact hlang _
    change a.stateSets.run a.accepting u = a.stateSets.run a.accepting v
    refine Array.ext ((hsize u).trans (hsize v).symm) fun q hu hv => ?_
    simpa [Array.getD, hu, hv] using hstate q (hsize u ▸ hu)

theorem reversed_reversed_eq (ha : a.WellFormed) : a.reversed.reversed = a.minimized := by
  have hr := wellFormed_reversed ha
  have hlang : ∀ word, a.reversed.stateSets.accepts a.reversed.accepting word =
      a.classStates.accepts a.initial word := by
    intro word
    rw [accepts_stateSets hr, accepts_reversed ha, List.reverse_reverse, accepts_classStates]
  have hseparates := separates_stateSets hr fun _ => exists_run_reversed ha
  exact (hseparates.alike (separates_classStates ha) hlang).automaton_eq (fewKeys_stateSets hr)
    (fewKeys_classStates ha)

/-- Reversing twice gives the smallest automaton, state by state, and so does the smallest automaton of
the reversed reversal. -/
theorem reversed_reversed (ha : a.WellFormed) :
    a.reversed.reversed = a.minimized ∧ ofReversed a.reversed = a.minimized := by
  have htwice := reversed_reversed_eq ha
  refine ⟨htwice, ?_⟩
  rw [ofReversed, htwice, minimized_minimized ha]

/-- An automaton with states of one language and a state that is not reachable. -/
theorem reversed_reversed_onesModFour :
    onesModFour.reversed.reversed = onesModFour.minimized ∧
      ofReversed onesModFour.reversed = onesModFour.minimized :=
  reversed_reversed wellFormed_onesModFour

end CipherMonitor.Automaton
