import CipherMonitor.Automaton.Format
import CipherMonitor.Proofs.Automaton.Reversal
import CipherMonitor.Proofs.Automaton.Sample
import CipherMonitor.Proofs.Json.Value
import CipherMonitor.Proofs.Outcome

/-!
# Automata as texts and as values

* `Automaton.parts?_toJson`, `Automaton.read_write` — a well-formed automaton is read back.
* `Automaton.WellFormed.checked_run` — the state numbers of a well-formed automaton are in range.
* `Automaton.Obtained`, `Automaton.Obtained.wellFormed` — the automata that a program can get hold of
  are well-formed.
* `Automaton.wellFormed_texts_and_automata` — all of these.
-/

namespace CipherMonitor.Automaton

variable {a : Automaton} {q : ℕ}

/-! ### Texts -/

theorem plain_toJson (a : Automaton) : a.toJson.Plain := by
  have hnames : ∀ name ∈ fieldNames, Json.Token.PlainText (Json.quoted name) := by decide +kernel
  refine .object (fun m hm => ?_) fun m hm => ?_
  · obtain ⟨field, hfield, rfl⟩ := List.mem_map.1 hm
    exact hnames field.1 (List.mem_map_of_mem hfield)
  · simp only [List.map_cons, List.map_nil, List.mem_cons, List.not_mem_nil, or_false] at hm
    rcases hm with rfl | rfl | rfl
    · exact .nat _
    · exact .array fun item hitem => by
        obtain ⟨q, -, rfl⟩ := List.mem_map.1 hitem
        exact .nat q
    · refine .array fun item hitem => ?_
      obtain ⟨⟨x, y⟩, -, rfl⟩ := List.mem_map.1 hitem
      exact .array (by simpa using ⟨.nat x, .nat y⟩)

theorem successors?_array {x y : ℕ} (hx : x < Json.wordBound) (hy : y < Json.wordBound) :
    successors? (.array [.ofNat x, .ofNat y]) = some (x, y) := by
  simp [successors?, Json.toNat?_ofNat hx, Json.toNat?_ofNat hy]

/-- The record of an automaton whose states are words has its parts. -/
theorem parts?_toJson (ha : a.WellFormed) (hbound : a.numStates ≤ Json.wordBound) :
    parts? a.toJson = some (a.initial, a.finals, a.transitions) := by
  have hquoted : ∀ name ∈ fieldNames, Json.unquote? (Json.quoted name) = some name := by decide +kernel
  have hnodup : fieldNames.Nodup := by decide
  have hfields : a.toJson.toFields? fieldNames = some [some (.ofNat a.initial),
      some (.ofList .ofNat a.finals),
      some (.ofList (fun t => .array [.ofNat t.1, .ofNat t.2]) a.transitions.toList)] :=
    Json.toFields?_ofFields (fun field hfield => hquoted field.1 (List.mem_map_of_mem hfield)) hnodup
  have hinitial : (Json.ofNat a.initial).toNat? Json.wordBound = some a.initial :=
    Json.toNat?_ofNat (ha.initial_lt.trans_le hbound)
  have hfinals : Json.toList? (Json.toNat? Json.wordBound) (.ofList .ofNat a.finals) =
      some a.finals := by
    refine Json.toList?_ofList fun q hq => Json.toNat?_ofNat ?_
    exact ((mem_finals.1 hq).1.trans_le ha.accepting_size.le).trans_le hbound
  have htransitions : Json.toList? successors?
      (.ofList (fun t => .array [.ofNat t.1, .ofNat t.2]) a.transitions.toList) =
        some a.transitions.toList := by
    refine Json.toList?_ofList fun t ht => ?_
    obtain ⟨hx, hy⟩ := ha.targets_lt t (Array.mem_toList_iff.1 ht)
    exact successors?_array (hx.trans_le hbound) (hy.trans_le hbound)
  simp [parts?, hfields, Json.field, hinitial, hfinals, htransitions]

/-- The text of a well-formed automaton is read as the automaton. -/
theorem read_write (ha : a.WellFormed) (hbound : a.numStates ≤ Json.wordBound) :
    read (write a) = .ok a := by
  rw [read, write, Json.read?_write (plain_toJson a)]
  simp only [parts?_toJson ha hbound, make_finals ha, List.isEmpty_nil, if_true]

/-- What is read from a text is well-formed. -/
theorem wellFormed_of_read {text : List Char} (h : read text = .ok a) : a.WellFormed := by
  unfold read at h
  split at h
  · cases h
  · split at h
    · cases h
    · split at h
      · cases h
      · rename_i hmake
        split at h
        · cases h
          exact wellFormed_of_make hmake
        · cases h

/-- Of the automata whose states are words the well-formed ones are those that are read back. -/
theorem read_write_iff (hbound : a.numStates ≤ Json.wordBound) :
    read (write a) = .ok a ↔ a.WellFormed :=
  ⟨wellFormed_of_read, fun ha => read_write ha hbound⟩

/-! ### Checked state numbers -/

theorem WellFormed.checked_next (ha : a.WellFormed) (hq : q < a.numStates) (bit : Bool) :
    Checked.next a q bit = .ok (a.next q bit) ∧ a.next q bit < a.numStates := by
  rw [Checked.next, require_of hq]
  exact ⟨rfl, ha.next_lt q hq bit⟩

theorem WellFormed.checked_isFinal (ha : a.WellFormed) (hq : q < a.numStates) :
    Checked.isFinal a q = .ok (a.isFinal q) := by
  rw [Checked.isFinal, require_of (ha.accepting_size ▸ hq :)]
  rfl

theorem WellFormed.checked_run (ha : a.WellFormed) (hq : q < a.numStates) (word : List Bool) :
    Checked.run a q word = .ok (a.run q word) := by
  induction word generalizing q with
  | nil => rfl
  | cons bit word ih =>
    obtain ⟨hnext, hlt⟩ := ha.checked_next hq bit
    rw [Checked.run, List.foldlM_cons, hnext, Outcome.ok_bind, run_cons]
    exact ih hlt

/-! ### The automata of a program -/

/-- The automata that texts, descriptions and properties of samples give, and what reversal and
minimization make of them. -/
inductive Obtained : Automaton → Prop
  | read {text : List Char} {a : Automaton} (h : read text = .ok a) : Obtained a
  | make {initial : ℕ} {finals : List ℕ} {transitions : Array (ℕ × ℕ)} {a : Automaton}
      (h : make initial finals transitions = .ok a) : Obtained a
  | globally {p : ℕ} {property : List Bool → Bool} {a : Automaton}
      (h : globally p property = .ok a) : Obtained a
  | eventually {p : ℕ} {property : List Bool → Bool} {a : Automaton}
      (h : eventually p property = .ok a) : Obtained a
  | reversed {a : Automaton} (h : Obtained a) : Obtained a.reversed
  | minimized {a : Automaton} (h : Obtained a) : Obtained a.minimized

theorem wellFormed_of_ofTree {p : ℕ} {settles : List Bool → Bool} {rootAccepts : Bool}
    (h : ofTree p settles rootAccepts = .ok a) : a.WellFormed := by
  unfold ofTree at h
  split at h
  · cases h
  · exact wellFormed_of_make h

theorem Obtained.wellFormed (h : Obtained a) : a.WellFormed := by
  induction h with
  | read h => exact wellFormed_of_read h
  | make h => exact wellFormed_of_make h
  | globally h => exact wellFormed_of_ofTree h
  | eventually h => exact wellFormed_of_ofTree h
  | reversed _ ih => exact wellFormed_reversed ih
  | minimized _ ih => exact wellFormed_minimized ih

/-- An automaton whose states are words is read back from its text when it is well-formed, and only
then.  Every automaton that a program gets hold of is well-formed, so its tables have one entry for
every state, and reading a word from the initial state, asking whether the state there accepts and
taking a further step succeed. -/
theorem wellFormed_texts_and_automata :
    (∀ a : Automaton, a.numStates ≤ Json.wordBound → (read (write a) = .ok a ↔ a.WellFormed)) ∧
    ∀ a : Automaton, Obtained a → a.WellFormed ∧ ∀ word,
      Checked.run a a.initial word = .ok (a.run a.initial word) ∧
      Checked.isFinal a (a.run a.initial word) = .ok (a.accepts word) ∧
      ∀ bit, Checked.next a (a.run a.initial word) bit = .ok (a.run a.initial (word ++ [bit])) := by
  refine ⟨fun a => read_write_iff, fun a h => ⟨h.wellFormed, fun word => ?_⟩⟩
  have ha := h.wellFormed
  have hstate := ha.run_lt ha.initial_lt word
  refine ⟨ha.checked_run ha.initial_lt word, ha.checked_isFinal hstate, fun bit => ?_⟩
  rw [(ha.checked_next hstate bit).1, run_concat]

/-- An automaton with an unreachable state, read back from its text, and its reversal, run on a
word. -/
theorem wellFormed_texts_and_automata_onesModFour :
    read (write onesModFour) = .ok onesModFour ∧ onesModFour.reversed.WellFormed ∧
      Checked.run onesModFour.reversed onesModFour.reversed.initial [true, false] =
        .ok (onesModFour.reversed.run onesModFour.reversed.initial [true, false]) := by
  obtain ⟨htext, hobtained⟩ := wellFormed_texts_and_automata
  have hread : read (write onesModFour) = .ok onesModFour :=
    (htext onesModFour (by decide)).2 wellFormed_onesModFour
  obtain ⟨hwellFormed, hword⟩ := hobtained onesModFour.reversed (.reversed (.read hread))
  exact ⟨hread, hwellFormed, (hword [true, false]).1⟩

end CipherMonitor.Automaton
