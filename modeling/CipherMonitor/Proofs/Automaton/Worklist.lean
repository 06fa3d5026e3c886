import CipherMonitor.Automaton.Worklist
import CipherMonitor.Proofs.Automaton.Reversal
import CipherMonitor.Proofs.Outcome

/-!
# The search with a queue

The states in the queue are those that are found and not yet left, in the order of their numbers, so
the row that is written down when a state leaves the queue is the row of that state.

* `Worklist.Invariant` — what holds between two turns.
* `Worklist.Invariant.turn`, `Worklist.Invariant.turns` — a turn visits the successors of the next
  state, and turns visit those of the next states.
* `Worklist.exists_turns` — the search ends, with the automaton of the exploration.
* `pairwise_eraseReps` — ascending lists without repetitions.
* `Automaton.members`, `Automaton.alike_memberLists` — lists of members in place of sets.
* `Automaton.exists_turns_reversed` — the search for the reversed automaton.
-/

namespace CipherMonitor

namespace Worklist

variable {σ κ : Type} [DecidableEq κ] [Hashable κ] {e : Exploration σ κ} {start x : σ} {i : ℕ}
  {w : Worklist e}

/-! ### The successors of a state -/

theorem found_visit : (w.visit x).2.found = w.found.insert x := by
  unfold visit
  split
  · next hx => rw [Numbering.insert, dif_pos hx]
  · rfl

theorem rows_visit : (w.visit x).2.rows = w.rows := by
  unfold visit
  split <;> rfl

/-- The number of a successor is the one it has afterwards. -/
theorem number_visit (h : w.found.Distinct) : (w.visit x).1 = (w.found.insert x).number x := by
  unfold visit
  split
  · next hx => exact (h.number_insert hx).symm
  · next hx => exact (h.number_insert_self hx).symm

/-- The queue holds the numbers from `i` on. -/
def Waiting (i : ℕ) (w : Worklist e) : Prop := w.queue = List.range' i (w.found.size - i)

/-- A new state waits behind all others. -/
theorem Waiting.visit (h : w.Waiting i) (hi : i ≤ w.found.size) : (w.visit x).2.Waiting i := by
  unfold Worklist.visit
  split
  · exact h
  · next hx =>
    rw [Waiting, Numbering.size_insert_of_not_knows hx, Nat.sub_add_comm hi, List.range'_1_concat,
      Nat.add_sub_cancel' hi]
    exact congrArg (· ++ [w.found.size]) h

theorem found_visitNext : (w.visitNext x).2.found = e.visitNext w.found x := by
  change ((w.visit (e.next x false)).2.visit (e.next x true)).2.found = _
  rw [found_visit, found_visit, Exploration.visitNext]

theorem rows_visitNext : (w.visitNext x).2.rows = w.rows := by
  change ((w.visit (e.next x false)).2.visit (e.next x true)).2.rows = _
  rw [rows_visit, rows_visit]

theorem Waiting.visitNext (h : w.Waiting i) (hi : i ≤ w.found.size) :
    (w.visitNext x).2.Waiting i := by
  refine (h.visit hi).visit (hi.trans ?_)
  rw [found_visit]
  exact Numbering.size_le_insert

/-- The numbers of the successors of a state. -/
def row (found : Numbering e.key) (x : σ) : Nat × Nat :=
  (found.number (e.next x false), found.number (e.next x true))

/-- The numbers given are those the successors have afterwards. -/
theorem row_visitNext (h : w.found.Distinct) :
    (w.visitNext x).1 = row (e.visitNext w.found x) x := by
  have hfirst := number_visit (x := e.next x false) h
  have hsecond : ((w.visit (e.next x false)).2.visit (e.next x true)).1 = _ :=
    number_visit (found_visit (w := w) ▸ h.insert (e.next x false))
  rw [found_visit] at hsecond
  rw [row, Exploration.visitNext, (h.insert _).number_insert Numbering.knows_insert_self, ← hfirst,
    ← hsecond]
  rfl

/-- Other states keep their rows. -/
theorem row_visitNext_of_knows {found : Numbering e.key} {y : σ} (h : found.Distinct)
    (hy : ∀ bit, found.knows (e.next y bit)) : row (e.visitNext found x) y = row found y := by
  have hkept : ∀ bit, (e.visitNext found x).number (e.next y bit) = found.number (e.next y bit) := by
    intro bit
    rw [Exploration.visitNext, (h.insert _).number_insert (Numbering.knows_insert (hy bit)),
      h.number_insert (hy bit)]
  rw [row, row, hkept, hkept]

/-! ### One state of the queue -/

/-- What holds between two turns, after `i` states have left the queue. -/
structure Invariant (start : σ) (i : ℕ) (w : Worklist e) : Prop where
  explored : e.Explored start i w.found
  le_size : i ≤ w.found.size
  waiting : w.Waiting i
  rows_size : w.rows.size = i
  rows_eq : ∀ j < i, ∀ x, w.found.items[j]? = some x → w.rows[j]? = some (row w.found x)

theorem invariant_start : Invariant start 0 (Worklist.start e start) where
  explored := Exploration.explored_start
  le_size := Nat.zero_le _
  waiting := by
    have hsize : (Worklist.start e start).found.size = 1 :=
      (Numbering.size_ofList [start]).trans (by simp)
    rw [Waiting, hsize]
    rfl
  rows_size := rfl
  rows_eq _ hj := absurd hj (Nat.not_lt_zero _)

theorem Waiting.queue_eq (h : w.Waiting i) (hi : i < w.found.size) :
    w.queue = i :: List.range' (i + 1) (w.found.size - (i + 1)) := by
  rw [h, show w.found.size - i = (w.found.size - (i + 1)) + 1 by omega, List.range'_succ]

theorem Waiting.queue_eq_nil_iff (h : w.Waiting i) : w.queue = [] ↔ w.found.size ≤ i := by
  rw [h, List.range'_eq_nil_iff, Nat.sub_eq_zero_iff_le]

/-- The visit of the next state, with its row written down. -/
theorem Invariant.visitNext (h : Invariant start i w) (hx : w.found.items[i]? = some x)
    {v : Worklist e} (hfound : v.found = w.found) (hrows : v.rows = w.rows)
    (hwaiting : v.Waiting (i + 1)) :
    Invariant start (i + 1)
      { (v.visitNext x).2 with rows := (v.visitNext x).2.rows.push (v.visitNext x).1 } := by
  have hi : i < w.found.size := (Array.getElem?_eq_some_iff.1 hx).1
  have hfound' : (v.visitNext x).2.found = e.visitNext w.found x := by rw [found_visitNext, hfound]
  have hrows' : (v.visitNext x).2.rows = w.rows := by rw [rows_visitNext, hrows]
  have hrow : (v.visitNext x).1 = row (e.visitNext w.found x) x := by
    rw [row_visitNext (hfound ▸ h.explored.distinct), hfound]
  have hkept : ∀ {j y}, w.found.items[j]? = some y → (e.visitNext w.found x).items[j]? = some y :=
    fun hy => Numbering.getElem?_insert (Numbering.getElem?_insert hy)
  refine ⟨hfound' ▸ h.explored.visitNext hx, ?_, hwaiting.visitNext (hfound ▸ hi), ?_, ?_⟩
  · rw [hfound']
    exact (Array.getElem?_eq_some_iff.1 (hkept hx)).1
  · simp only [Array.size_push, hrows', h.rows_size]
  · intro j hj y hy
    simp only [hfound', hrows', hrow] at hy ⊢
    rcases Nat.lt_succ_iff_lt_or_eq.1 hj with hj | rfl
    · have hitem := Array.getElem?_eq_getElem (hj.trans hi)
      obtain rfl := Option.some.inj ((hkept hitem).symm.trans hy)
      rw [Array.getElem?_push_lt (h.rows_size ▸ hj), ← Array.getElem?_eq_getElem,
        h.rows_eq j hj _ hitem,
        row_visitNext_of_knows h.explored.distinct (h.explored.closed j hj _ hitem)]
    · obtain rfl := Option.some.inj ((hkept hx).symm.trans hy)
      rw [← h.rows_size, Array.getElem?_push_size]

/-- A turn while states wait: the one that leaves the queue is the one whose row comes next. -/
theorem Invariant.turn (h : Invariant start i w) (hx : w.found.items[i]? = some x) :
    ∃ w', w.turn = .ok w' ∧ w'.found = e.visitNext w.found x ∧ Invariant start (i + 1) w' := by
  have hqueue := h.waiting.queue_eq (Array.getElem?_eq_some_iff.1 hx).1
  let v : Worklist e := { w with queue := List.range' (i + 1) (w.found.size - (i + 1)) }
  have hrows : i = (v.visitNext x).2.rows.size := by rw [rows_visitNext, h.rows_size]
  refine ⟨{ (v.visitNext x).2 with rows := (v.visitNext x).2.rows.push (v.visitNext x).1 }, ?_,
    found_visitNext, h.visitNext hx rfl rfl rfl⟩
  rw [Worklist.turn, hqueue]
  simp only [hx]
  change (require (i = (v.visitNext x).2.rows.size) .shape >>= fun _ => _) = _
  rw [require_of hrows]
  rfl

/-! ### The whole search -/

theorem turns_of_queue_eq_nil (h : w.queue = []) (n : ℕ) : Worklist.turns n w = .ok w := by
  induction n with
  | zero => rfl
  | succ n ih =>
    have hturn : w.turn = .ok w := by simp only [Worklist.turn, h]
    rw [Worklist.turns, hturn, Outcome.ok_bind, ih]

/-- Turns go on as the exploration does, until the queue is empty. -/
theorem Invariant.turns (h : Invariant start i w) (n : ℕ) :
    ∃ i' w', Worklist.turns n w = .ok w' ∧ w'.found = e.extend n i w.found ∧
      Invariant start i' w' ∧ (w'.queue = [] ∨ i' = i + n) := by
  induction n generalizing i w with
  | zero => exact ⟨i, w, rfl, rfl, h, .inr rfl⟩
  | succ n ih =>
    rw [Exploration.extend]
    cases hx : w.found.items[i]? with
    | some x =>
      obtain ⟨v, hturn, hfound, hv⟩ := h.turn hx
      obtain ⟨i', w', hturns, hfound', hw', hend⟩ := ih hv
      refine ⟨i', w', ?_, by rw [hfound', hfound], hw', hend.imp_right (by omega)⟩
      rw [Worklist.turns, hturn, Outcome.ok_bind, hturns]
    | none =>
      have hqueue := h.waiting.queue_eq_nil_iff.2 (Array.getElem?_eq_none_iff.1 hx)
      exact ⟨i, w, turns_of_queue_eq_nil hqueue _, rfl, h, .inl hqueue⟩

/-- When the queue is empty, the table has a row for every state. -/
theorem Invariant.rows_eq_map (h : Invariant start i w) (hqueue : w.queue = []) :
    w.rows = w.found.items.map (row w.found) := by
  have hsize : i = w.found.items.size :=
    le_antisymm h.le_size (h.waiting.queue_eq_nil_iff.1 hqueue)
  refine Array.ext_getElem? fun j => ?_
  rw [Array.getElem?_map]
  cases hy : w.found.items[j]? with
  | some y => exact h.rows_eq j (hsize ▸ (Array.getElem?_eq_some_iff.1 hy).1) y hy
  | none =>
    rw [Array.getElem?_eq_none_iff, ← hsize] at hy
    exact Array.getElem?_eq_none (h.rows_size.trans_le hy)

/-- With a turn for every key the search is over, and has found what the exploration finds. -/
theorem exists_turns {keys : ℕ} (hkeys : e.FewKeys start keys) :
    ∃ w, Worklist.turns keys (Worklist.start e start) = .ok w ∧ w.queue = [] ∧
      w.automaton = e.automaton keys start := by
  have hinvariant : Invariant start 0 (Worklist.start e start) := invariant_start
  obtain ⟨i, w, hturns, hfound, hw, hend⟩ := hinvariant.turns keys
  have hqueue : w.queue = [] := by
    rcases hend with hqueue | hi
    · exact hqueue
    · exact hw.waiting.queue_eq_nil_iff.2 ((hw.explored.size_le hkeys).trans (by omega))
  refine ⟨w, hturns, hqueue, ?_⟩
  have hdiscover : w.found = e.discover keys start := hfound
  rw [Worklist.automaton, hw.rows_eq_map hqueue, hdiscover]
  rfl

end Worklist

/-! ### Ascending lists without repetitions -/

theorem loop_eraseRepsBy {α : Type} (r : α → α → Bool) (x : α) (l acc : List α) :
    List.eraseRepsBy.loop r x l acc = acc.reverse ++ (x :: l).eraseRepsBy r := by
  rw [List.eraseRepsBy]
  induction l generalizing x acc with
  | nil => simp [List.eraseRepsBy.loop]
  | cons y l ih =>
    rw [List.eraseRepsBy.loop, List.eraseRepsBy.loop]
    split
    · rw [ih]
    · rw [ih, ih y [x]]
      simp

theorem eraseReps_cons_cons (x y : ℕ) (l : List ℕ) :
    (x :: y :: l).eraseReps = if x = y then (y :: l).eraseReps else x :: (y :: l).eraseReps := by
  rw [List.eraseReps, List.eraseRepsBy, List.eraseRepsBy.loop]
  by_cases hxy : x = y
  · subst hxy
    simp [loop_eraseRepsBy, List.eraseReps]
  · rw [beq_false_of_ne hxy, if_neg hxy]
    exact loop_eraseRepsBy _ y l [x]

theorem mem_eraseReps {x : ℕ} {l : List ℕ} : x ∈ l.eraseReps ↔ x ∈ l := by
  induction l with
  | nil => rfl
  | cons y l ih =>
    cases l with
    | nil => rfl
    | cons z l =>
      rw [eraseReps_cons_cons]
      split
      · next hyz => simp [ih, hyz]
      · rw [List.mem_cons, ih, ← List.mem_cons]

/-- An ascending list without its repetitions is strictly ascending. -/
theorem pairwise_eraseReps {l : List ℕ} (h : l.Pairwise (· ≤ ·)) :
    l.eraseReps.Pairwise (· < ·) := by
  induction l with
  | nil => exact .nil
  | cons x l ih =>
    cases l with
    | nil => exact List.pairwise_singleton ..
    | cons y l =>
      obtain ⟨hle, hrest⟩ := List.pairwise_cons.1 h
      rw [eraseReps_cons_cons]
      split
      · exact ih hrest
      · next hxy =>
        have hlt : x < y := (hle y (List.mem_cons_self ..)).lt_of_ne hxy
        refine List.pairwise_cons.2 ⟨fun z hz => hlt.trans_le ?_, ih hrest⟩
        rcases List.mem_cons.1 (mem_eraseReps.1 hz) with rfl | hz
        · exact le_rfl
        · exact (List.pairwise_cons.1 hrest).1 z hz

namespace Automaton

variable {a : Automaton} {set : Array Bool} {bit : Bool} {q t : ℕ}

/-! ### Sets of states as lists -/

/-- Every number is filed under its value. -/
theorem getD_foldl_modify (f : ℕ → ℕ) (l : List ℕ) {table : Array (List ℕ)} (ht : t < table.size) :
    (l.foldl (fun table q => table.modify (f q) (· ++ [q])) table).getD t [] =
      table.getD t [] ++ l.filter (f · = t) := by
  induction l generalizing table with
  | nil => simp
  | cons q l ih =>
    rw [List.foldl_cons, ih (by simpa using ht), List.filter_cons]
    by_cases hq : f q = t
    · simp [hq, ht, Array.getElem_modify]
    · simp [hq, ht, Array.getElem_modify]

theorem mem_predecessors (ht : t < a.numStates) :
    q ∈ (a.predecessors bit).getD t [] ↔ q < a.numStates ∧ a.next q bit = t := by
  rw [predecessors, getD_foldl_modify _ _ (by simpa using ht)]
  simp [ht]

/-- The members of a set of states in ascending order. -/
def members (set : Array Bool) : List ℕ := (List.range set.size).filter (set.getD · false)

theorem mem_members : q ∈ members set ↔ set.getD q false = true := by
  rw [members, List.mem_filter, List.mem_range, and_iff_right_iff_imp]
  intro hq
  by_contra hsize
  simp [hsize] at hq

theorem pairwise_members : (members set).Pairwise (· < ·) := List.pairwise_lt_range.filter _

/-- Lists of members in ascending order are equal when the members are. -/
theorem eq_members {l : List ℕ} (h : l.Pairwise (· < ·))
    (hmem : ∀ q, q ∈ l ↔ set.getD q false = true) : l = members set :=
  h.eq_of_mem_iff pairwise_members fun q => (hmem q).trans mem_members.symm

/-- The list of members moves as the set does. -/
theorem next_members (hset : set.size = a.numStates) :
    a.memberLists.next (members set) bit = members (a.preimage set bit) := by
  have hlt : ∀ {table : Array Bool} {t}, table.size = a.numStates → table.getD t false = true →
      t < a.numStates := by
    intro table t hsize ht
    by_contra hge
    simp [hsize, hge] at ht
  refine eq_members (pairwise_eraseReps ?_) fun q => mem_eraseReps.trans ?_
  · simpa using List.pairwise_mergeSort' (r := (· ≤ ·)) _
  rw [List.mem_mergeSort, List.mem_flatMap]
  constructor
  · rintro ⟨t, ht, hq⟩
    rw [mem_members] at ht
    obtain ⟨hstate, rfl⟩ := (mem_predecessors (hlt hset ht)).1 hq
    rwa [getD_preimage hstate]
  · intro ht
    have hq : q < a.numStates := hlt Array.size_ofFn ht
    rw [getD_preimage hq] at ht
    exact ⟨_, mem_members.2 ht, (mem_predecessors (hlt hset ht)).2 ⟨hq, rfl⟩⟩

theorem run_members (hset : set.size = a.numStates) (word : List Bool) :
    a.memberLists.run (members set) word = members (a.stateSets.run set word) := by
  induction word using List.reverseRecOn with
  | nil => rfl
  | append_singleton word bit ih =>
    rw [Exploration.run_concat, Exploration.run_concat, ih,
      next_members (size_run_stateSets hset word)]
    rfl

theorem members_inj {set' : Array Bool} (h : set.size = set'.size) :
    members set = members set' ↔ set = set' := by
  refine ⟨fun hmembers => Array.ext h fun q hq hq' => ?_, congrArg _⟩
  have hmem : q ∈ members set ↔ q ∈ members set' := by rw [hmembers]
  rw [mem_members, mem_members] at hmem
  rw [Bool.eq_iff_iff]
  simpa [Array.getD, hq, hq'] using hmem

/-- Both representations of sets read words alike. -/
theorem alike_memberLists (ha : a.WellFormed) :
    Exploration.Alike a.memberLists a.finals a.stateSets a.accepting where
  key_eq_iff u v := by
    change a.memberLists.run (members a.accepting) u = a.memberLists.run (members a.accepting) v ↔
      a.stateSets.run a.accepting u = a.stateSets.run a.accepting v
    have hsize := size_run_stateSets ha.accepting_size
    rw [run_members ha.accepting_size, run_members ha.accepting_size,
      members_inj ((hsize u).trans (hsize v).symm)]
  accepts_eq word := by
    change (a.memberLists.run (members a.accepting) word).contains a.initial = _
    rw [run_members ha.accepting_size, Bool.eq_iff_iff, List.contains_iff_mem, mem_members]
    rfl

theorem fewKeys_memberLists (ha : a.WellFormed) :
    a.memberLists.FewKeys a.finals (2 ^ a.numStates) := by
  obtain ⟨sets, hcard, hsets⟩ := fewKeys_stateSets ha
  refine ⟨sets.image members, Finset.card_image_le.trans hcard, fun w => ?_⟩
  exact Finset.mem_image.2 ⟨_, hsets w, (run_members ha.accepting_size w).symm⟩

/-! ### The reversed automaton -/

/-- The search for the reversed automaton ends after at most as many turns as there are sets of states,
with every check of a row passed.  What it gives is a well-formed automaton without unreachable states
that accepts the reversed words. -/
theorem exists_turns_reversed (ha : a.WellFormed) :
    (∃ n ≤ 2 ^ a.numStates, ∃ w, Worklist.turns n (.start a.memberLists a.finals) = .ok w ∧
      w.queue = [] ∧ w.automaton = a.reversed) ∧
    a.reversed.WellFormed ∧
    (∀ q < a.reversed.numStates, ∃ word, a.reversed.run a.reversed.initial word = q) ∧
    ∀ word, a.reversed.accepts word = a.accepts word.reverse := by
  refine ⟨?_, wellFormed_reversed ha, fun q => exists_run_reversed ha, accepts_reversed ha⟩
  obtain ⟨w, hturns, hqueue, hautomaton⟩ := Worklist.exists_turns (fewKeys_memberLists ha)
  refine ⟨_, le_rfl, w, hturns, hqueue, hautomaton.trans ?_⟩
  exact (alike_memberLists ha).automaton_eq (fewKeys_memberLists ha) (fewKeys_stateSets ha)

/-- The search of an automaton with a state that is not reachable. -/
theorem exists_turns_reversed_onesModFour :
    (∃ n ≤ 2 ^ onesModFour.numStates, ∃ w,
      Worklist.turns n (.start onesModFour.memberLists onesModFour.finals) = .ok w ∧
      w.queue = [] ∧ w.automaton = onesModFour.reversed) ∧
    onesModFour.reversed.WellFormed ∧
    (∀ q < onesModFour.reversed.numStates,
      ∃ word, onesModFour.reversed.run onesModFour.reversed.initial word = q) ∧
    ∀ word, onesModFour.reversed.accepts word = onesModFour.accepts word.reverse :=
  exists_turns_reversed wellFormed_onesModFour

end Automaton

end CipherMonitor
