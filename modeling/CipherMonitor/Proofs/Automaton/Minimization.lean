import CipherMonitor.Proofs.Automaton.Refinement

/-!
# The smallest automaton of a language

* `Automaton.classStates` — the reachable states, told apart by their classes.
* `Automaton.accepts_minimized`, `Automaton.numStates_minimized_le` — minimization keeps the language,
  and no automaton of the language has fewer states.
* `Automaton.minimized_eq_iff` — automata have one smallest automaton when they have one language.
* `Automaton.minimized_canonical` — all of these.
-/

namespace CipherMonitor.Automaton

variable {a b : Automaton}

/-- The states of an automaton, told apart by their classes. -/
def classStates (a : Automaton) : Exploration ℕ ℕ := { a.states with key := a.classes.of }

theorem accepts_classStates (word : List Bool) :
    a.classStates.accepts a.initial word = a.accepts word := rfl

theorem fewKeys_classStates (ha : a.WellFormed) : a.classStates.FewKeys a.initial a.numStates := by
  refine ⟨(Finset.range a.numStates).image a.classes.of,
    Finset.card_image_le.trans (Finset.card_range _).le, fun w => Finset.mem_image_of_mem _ ?_⟩
  exact Finset.mem_range.2 (ha.run_lt ha.initial_lt w)

/-- The classes stand for the languages of the reachable states. -/
theorem separates_classStates (ha : a.WellFormed) : a.classStates.Separates a.initial := by
  intro u v
  have hlang : ∀ u w, a.classStates.accepts a.initial (u ++ w) =
      a.isFinal (a.run (a.run a.initial u) w) := fun u w => by
    rw [accepts_classStates, accepts, run_append]
  simp only [hlang]
  exact classes_eq_iff ha ((mem_reachable ha).2 ⟨u, rfl⟩) ((mem_reachable ha).2 ⟨v, rfl⟩)

theorem wellFormed_minimized (ha : a.WellFormed) : a.minimized.WellFormed :=
  Exploration.wellFormed_automaton (fewKeys_classStates ha)

/-- Minimization keeps the language. -/
theorem accepts_minimized (ha : a.WellFormed) (word : List Bool) :
    a.minimized.accepts word = a.accepts word :=
  Exploration.accepts_automaton (fewKeys_classStates ha) (separates_classStates ha).congruent word

/-- No automaton of the language has fewer states. -/
theorem numStates_minimized_le (ha : a.WellFormed) (hb : b.WellFormed)
    (hlang : ∀ word, b.accepts word = a.accepts word) : a.minimized.numStates ≤ b.numStates :=
  Exploration.numStates_le (fewKeys_classStates ha) (separates_classStates ha) hb hlang

/-- Automata of one language have one smallest automaton, whatever their states are. -/
theorem minimized_eq_of_accepts (ha : a.WellFormed) (hb : b.WellFormed)
    (hlang : ∀ word, a.accepts word = b.accepts word) : a.minimized = b.minimized :=
  ((separates_classStates ha).alike (separates_classStates hb) hlang).automaton_eq
    (fewKeys_classStates ha) (fewKeys_classStates hb)

theorem minimized_eq_iff (ha : a.WellFormed) (hb : b.WellFormed) :
    a.minimized = b.minimized ↔ ∀ word, a.accepts word = b.accepts word := by
  refine ⟨fun h word => ?_, minimized_eq_of_accepts ha hb⟩
  rw [← accepts_minimized ha, ← accepts_minimized hb, h]

theorem minimized_minimized (ha : a.WellFormed) : a.minimized.minimized = a.minimized :=
  minimized_eq_of_accepts (wellFormed_minimized ha) ha (accepts_minimized ha)

/-- The smallest automaton of the language of an automaton stands for the language: it is well-formed,
accepts the same words with the fewest states possible, and is the same one for two automata exactly
when these accept the same words. -/
theorem minimized_canonical (ha : a.WellFormed) (hb : b.WellFormed) :
    a.minimized.WellFormed ∧ (∀ word, a.minimized.accepts word = a.accepts word) ∧
      (∀ c : Automaton, c.WellFormed → (∀ word, c.accepts word = a.accepts word) →
        a.minimized.numStates ≤ c.numStates) ∧
      (a.minimized = b.minimized ↔ ∀ word, a.accepts word = b.accepts word) ∧
      a.minimized.minimized = a.minimized :=
  ⟨wellFormed_minimized ha, accepts_minimized ha, fun _ hc => numStates_minimized_le ha hc,
    minimized_eq_iff ha hb, minimized_minimized ha⟩

/-- Whether the number of ones in a word is odd. -/
def oddOnes : Automaton where
  initial := 0
  accepting := #[false, true]
  transitions := #[(0, 1), (1, 0)]

/-- The same with ones counted modulo four, from two on; the last state is not reachable. -/
def onesModFour : Automaton where
  initial := 2
  accepting := #[false, true, false, true, true]
  transitions := #[(0, 1), (1, 2), (2, 3), (3, 0), (4, 4)]

theorem wellFormed_oddOnes : oddOnes.WellFormed := ⟨by decide, by decide, by decide⟩

theorem wellFormed_onesModFour : onesModFour.WellFormed := ⟨by decide, by decide, by decide⟩

theorem accepts_onesModFour (word : List Bool) : onesModFour.accepts word = oddOnes.accepts word := by
  have hrun : ∀ (word : List Bool) (q : Fin 4),
      onesModFour.isFinal (onesModFour.run q word) = oddOnes.isFinal (oddOnes.run (q % 2) word) := by
    intro word
    induction word with
    | nil => decide
    | cons bit word ih =>
      intro q
      have hnext : ∃ q' : Fin 4, onesModFour.next q bit = q' ∧ oddOnes.next (q % 2) bit = q' % 2 := by
        revert q bit
        decide
      obtain ⟨q', hq', hparity⟩ := hnext
      rw [run_cons, run_cons, hq', hparity]
      exact ih q'
  exact hrun word 2

/-- The five states shrink to those of the automaton with two. -/
theorem minimized_onesModFour : onesModFour.minimized.WellFormed ∧
    onesModFour.minimized.numStates ≤ oddOnes.numStates ∧
    onesModFour.minimized = oddOnes.minimized := by
  obtain ⟨hwellFormed, -, hsmallest, heq, -⟩ :=
    minimized_canonical wellFormed_onesModFour wellFormed_oddOnes
  exact ⟨hwellFormed, hsmallest oddOnes wellFormed_oddOnes fun word => (accepts_onesModFour word).symm,
    heq.2 accepts_onesModFour⟩

end CipherMonitor.Automaton
