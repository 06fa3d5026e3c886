import CipherMonitor.Automaton.Minimization
import CipherMonitor.Proofs.Automaton.Exploration

/-!
# Classes of states

Pass `k` of the refinement puts two reachable states into one class when they agree on all words of up
to `k` bits.  A pass that finds no more classes than the one before has reached agreement on all words.

* `Automaton.mem_reachable`, `Automaton.nodup_reachable` — the reachable states are those that words lead
  to, each once.
* `Automaton.AgreeUpTo`, `Automaton.Agree` — states that no word, or no short word, tells apart.
* `Automaton.Resolves.refine` — one pass looks at words one bit longer.
* `Automaton.agree_of_count_eq` — where a pass finds no more classes, no later pass does.
* `Automaton.resolves_refineFrom`, `Automaton.classes_eq_iff` — what the last classes are.
-/

namespace CipherMonitor.Automaton

variable {a : Automaton} {q q' k : ℕ}

/-! ### Reachable states -/

theorem fewKeys_states (ha : a.WellFormed) : a.states.FewKeys a.initial a.numStates :=
  ⟨Finset.range a.numStates, by simp, fun w => Finset.mem_range.2 (ha.run_lt ha.initial_lt w)⟩

/-- The search finds the states that words lead to. -/
theorem mem_reachable (ha : a.WellFormed) : q ∈ a.reachable ↔ ∃ w, a.run a.initial w = q := by
  rw [reachable, Array.mem_toList_iff]
  constructor
  · intro hq
    obtain ⟨w, hw⟩ := (Exploration.explored_discover (fewKeys_states ha)).reachable q hq
    exact ⟨w, hw.symm⟩
  · rintro ⟨w, rfl⟩
    obtain ⟨u, hu, hkey⟩ := Exploration.exists_getElem?_run (fewKeys_states ha)
      (Exploration.congruent_of_injective Function.injective_id) w
    have hstate : a.run a.initial u = a.run a.initial w := hkey
    exact hstate ▸ Array.mem_of_getElem? hu

/-- The search finds every state once. -/
theorem nodup_reachable (ha : a.WellFormed) : a.reachable.Nodup := by
  have hdistinct : (a.reachable.map id).Nodup :=
    (Exploration.explored_discover (fewKeys_states ha)).distinct
  rwa [List.map_id] at hdistinct

/-- States that go together with their successors. -/
structure Closed (a : Automaton) (qs : List ℕ) : Prop where
  lt : ∀ q ∈ qs, q < a.numStates
  next_mem : ∀ q ∈ qs, ∀ bit, a.next q bit ∈ qs

theorem closed_reachable (ha : a.WellFormed) : a.Closed a.reachable where
  lt q hq := by
    obtain ⟨w, rfl⟩ := (mem_reachable ha).1 hq
    exact ha.run_lt ha.initial_lt w
  next_mem q hq bit := by
    obtain ⟨w, rfl⟩ := (mem_reachable ha).1 hq
    exact (mem_reachable ha).2 ⟨w ++ [bit], by rw [run_append, run_cons, run_nil]⟩

/-! ### Agreement -/

/-- No word of up to `k` bits tells the states apart. -/
def AgreeUpTo (a : Automaton) (k q q' : ℕ) : Prop :=
  ∀ w : List Bool, w.length ≤ k → a.isFinal (a.run q w) = a.isFinal (a.run q' w)

/-- No word tells the states apart. -/
def Agree (a : Automaton) (q q' : ℕ) : Prop :=
  ∀ w : List Bool, a.isFinal (a.run q w) = a.isFinal (a.run q' w)

theorem agreeUpTo_zero : a.AgreeUpTo 0 q q' ↔ a.isFinal q = a.isFinal q' := by
  constructor
  · exact fun h => h [] le_rfl
  · intro h w hw
    obtain rfl := List.length_eq_zero_iff.1 (Nat.le_zero.1 hw)
    exact h

theorem AgreeUpTo.mono {m : ℕ} (h : a.AgreeUpTo k q q') (hle : m ≤ k) : a.AgreeUpTo m q q' :=
  fun w hw => h w (hw.trans hle)

theorem AgreeUpTo.next (h : a.AgreeUpTo (k + 1) q q') (bit : Bool) :
    a.AgreeUpTo k (a.next q bit) (a.next q' bit) :=
  fun w hw => h (bit :: w) (Nat.succ_le_succ hw)

/-- A word is looked at through its first bit. -/
theorem agreeUpTo_succ_iff : a.AgreeUpTo (k + 1) q q' ↔
    a.AgreeUpTo k q q' ∧ ∀ bit, a.AgreeUpTo k (a.next q bit) (a.next q' bit) := by
  refine ⟨fun h => ⟨h.mono (Nat.le_succ k), h.next⟩, ?_⟩
  rintro ⟨h, hnext⟩ (_ | ⟨bit, w⟩) hw
  · exact h [] (Nat.zero_le k)
  · exact hnext bit w (Nat.le_of_succ_le_succ hw)

/-! ### One pass -/

theorem of_tabulate (f : ℕ → ℕ) (hq : q < a.numStates) : (a.tabulate f).of q = f q := by
  simp [Classes.of, tabulate, hq]

/-- The classes of the given states are agreement on words of up to `k` bits. -/
def Resolves (a : Automaton) (qs : List ℕ) (k : ℕ) (c : Classes) : Prop :=
  ∀ q ∈ qs, ∀ q' ∈ qs, c.of q = c.of q' ↔ a.AgreeUpTo k q q'

/-- How many classes the given states have. -/
def Classes.count (c : Classes) (qs : List ℕ) : ℕ := (qs.map c.of).toFinset.card

theorem Classes.count_le (c : Classes) (qs : List ℕ) : c.count qs ≤ qs.length :=
  (List.toFinset_card_le _).trans_eq (List.length_map _)

variable {qs : List ℕ} {c : Classes}

theorem resolves_acceptanceClasses (hqs : a.Closed qs) : a.Resolves qs 0 a.acceptanceClasses := by
  intro q hq q' hq'
  rw [acceptanceClasses, of_tabulate _ (hqs.lt q hq), of_tabulate _ (hqs.lt q' hq'), agreeUpTo_zero]
  cases a.isFinal q <;> cases a.isFinal q' <;> simp

theorem of_refine (hqs : a.Closed qs) (hq : q ∈ qs) :
    (a.refine qs c).of q = (a.signatures qs c).number (a.signature c q) :=
  of_tabulate _ (hqs.lt q hq)

/-- A pass gives one class to the states of one signature. -/
theorem refine_eq_iff (hqs : a.Closed qs) (hq : q ∈ qs) (hq' : q' ∈ qs) :
    (a.refine qs c).of q = (a.refine qs c).of q' ↔ a.signature c q = a.signature c q' := by
  rw [of_refine hqs hq, of_refine hqs hq']
  exact Numbering.number_inj (Numbering.knows_ofList (List.mem_map_of_mem hq))
    (Numbering.knows_ofList (List.mem_map_of_mem hq'))

/-- A pass takes one more bit into account. -/
theorem Resolves.refine (hqs : a.Closed qs) (h : a.Resolves qs k c) :
    a.Resolves qs (k + 1) (a.refine qs c) := by
  intro q hq q' hq'
  have hnext : ∀ bit, c.of (a.next q bit) = c.of (a.next q' bit) ↔
      a.AgreeUpTo k (a.next q bit) (a.next q' bit) := fun bit =>
    h _ (hqs.next_mem q hq bit) _ (hqs.next_mem q' hq' bit)
  rw [refine_eq_iff hqs hq hq', signature, signature, Prod.mk.injEq, Prod.mk.injEq, h q hq q' hq',
    hnext false, hnext true, agreeUpTo_succ_iff, Bool.forall_bool]

/-! ### The number of classes -/

theorem size_signatures (a : Automaton) (qs : List ℕ) (c : Classes) :
    (a.signatures qs c).size = (qs.map (a.signature c)).toFinset.card := by
  rw [signatures, Numbering.size_ofList, List.map_id]

/-- The classes after a pass are the numbers of its signatures. -/
theorem image_classes_refine (hqs : a.Closed qs) :
    (qs.map (a.refine qs c).of).toFinset = Finset.range (a.signatures qs c).size := by
  have hnumbers : qs.map (a.refine qs c).of =
      (qs.map (a.signature c)).map (a.signatures qs c).number := by
    rw [List.map_map]
    exact List.map_congr_left fun q hq => of_refine hqs hq
  rw [hnumbers]
  exact Numbering.image_number_ofList _

/-- The signatures of a pass are as many as its classes. -/
theorem count_refine (hqs : a.Closed qs) :
    (a.refine qs c).count qs = (a.signatures qs c).size := by
  rw [Classes.count, image_classes_refine hqs, Finset.card_range]

/-- The class before the pass is the first part of the signature. -/
theorem classes_eq_image (a : Automaton) (qs : List ℕ) (c : Classes) :
    (qs.map c.of).toFinset = (qs.map (a.signature c)).toFinset.image Prod.fst := by
  ext n
  simp [signature]

theorem count_le_size_signatures : c.count qs ≤ (a.signatures qs c).size := by
  rw [Classes.count, classes_eq_image a, size_signatures]
  exact Finset.card_image_le

/-- A pass that finds no new class splits none. -/
theorem signature_eq_of_count_eq (hcount : (a.signatures qs c).size = c.count qs) (hq : q ∈ qs)
    (hq' : q' ∈ qs) (hc : c.of q = c.of q') : a.signature c q = a.signature c q' := by
  rw [Classes.count, classes_eq_image a, size_signatures] at hcount
  have hinjective := Finset.injOn_of_card_image_eq hcount.symm
  exact hinjective (by simpa using ⟨q, hq, rfl⟩) (by simpa using ⟨q', hq', rfl⟩) hc

/-- Where a pass finds no new class, no word tells states of one class apart. -/
theorem agree_of_count_eq (hqs : a.Closed qs) (h : a.Resolves qs k c)
    (hcount : (a.signatures qs c).size = c.count qs) (hq : q ∈ qs) (hq' : q' ∈ qs)
    (hagree : a.AgreeUpTo k q q') : a.Agree q q' := by
  -- The classes are kept by every bit, so they are kept by words of any length.
  intro w
  induction w generalizing q q' with
  | nil => exact hagree [] (Nat.zero_le k)
  | cons bit w ih =>
    have hclass := signature_eq_of_count_eq hcount hq hq' ((h q hq q' hq').2 hagree)
    have hlonger := (h.refine hqs q hq q' hq').1 ((refine_eq_iff hqs hq hq').2 hclass)
    exact ih (hqs.next_mem q hq bit) (hqs.next_mem q' hq' bit) (hlonger.next bit)

/-! ### All passes -/

/-- Passes that start from agreement on short words end with agreement on all words: each of them but
the last finds a new class, and there are no more classes than states. -/
theorem refineFrom_eq_iff (hqs : a.Closed qs) (hne : qs ≠ []) {fuel count : ℕ}
    (h : a.Resolves qs k c) (hcount : count = 0 ∨ count = c.count qs)
    (hfuel : qs.length < fuel + count) (hq : q ∈ qs) (hq' : q' ∈ qs) :
    (a.refineFrom qs fuel count c).of q = (a.refineFrom qs fuel count c).of q' ↔ a.Agree q q' := by
  induction fuel generalizing k count c with
  | zero =>
    have := c.count_le qs
    omega
  | succ fuel ih =>
    have hpos : 0 < (a.signatures qs c).size := by
      obtain ⟨q, hq⟩ := List.exists_mem_of_ne_nil qs hne
      exact Nat.zero_lt_of_lt (Numbering.number_lt (Numbering.knows_ofList (List.mem_map_of_mem hq)))
    have hle : c.count qs ≤ (a.signatures qs c).size := count_le_size_signatures
    rw [refineFrom, ← refine]
    split_ifs with hstop
    · have hsame : (a.signatures qs c).size = c.count qs := by omega
      refine ⟨fun heq => agree_of_count_eq hqs h hsame hq hq' ?_, fun hagree => ?_⟩
      · exact ((h.refine hqs q hq q' hq').1 heq).mono (Nat.le_succ k)
      · exact (h.refine hqs q hq q' hq').2 fun w _ => hagree w
    · exact ih (h.refine hqs) (.inr (count_refine hqs).symm) (by omega)

/-- Reachable states are in one class when no word tells them apart. -/
theorem classes_eq_iff (ha : a.WellFormed) (hq : q ∈ a.reachable) (hq' : q' ∈ a.reachable) :
    a.classes.of q = a.classes.of q' ↔ a.Agree q q' := by
  have hqs := closed_reachable ha
  exact refineFrom_eq_iff hqs (List.ne_nil_of_mem hq) (resolves_acceptanceClasses hqs) (.inl rfl)
    (by omega) hq hq'

end CipherMonitor.Automaton
