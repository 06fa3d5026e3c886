import Mathlib.Data.Fintype.Card
import CipherMonitor.Automaton.Exploration
import CipherMonitor.Proofs.Automaton.Numbering

/-!
# What an exploration finds

An exploration finds one state for every reachable key, and numbers the keys in an order that depends
on nothing but which words lead to one key.

* `Exploration.run`, `Exploration.accepts` — reading of words in the explored system.
* `Exploration.Congruent`, `Exploration.Separates` — keys that a word respects, and keys that stand
  for the languages of states.
* `Exploration.FewKeys` — a bound for the number of reachable keys.
* `Exploration.Explored`, `Exploration.explored_discover` — the search ends when no key is left.
* `Exploration.accepts_automaton` — the automaton has the language of the start state.
* `Exploration.numStates_le` — it is the smallest one when keys stand for languages.
* `Exploration.Alike.automaton_eq` — systems that read words alike have one automaton.
-/

namespace CipherMonitor.Exploration

variable {σ κ : Type} {e : Exploration σ κ} {start x : σ}

/-- The state reached after reading a word. -/
def run (e : Exploration σ κ) (x : σ) (word : List Bool) : σ := word.foldl e.next x

/-- Whether a word leads to an accepting state. -/
def accepts (e : Exploration σ κ) (x : σ) (word : List Bool) : Bool := e.final (e.run x word)

@[simp] theorem run_nil : e.run x [] = x := rfl

theorem run_append (u v : List Bool) : e.run x (u ++ v) = e.run (e.run x u) v := List.foldl_append

theorem run_concat (u : List Bool) (bit : Bool) :
    e.run x (u ++ [bit]) = e.next (e.run x u) bit := run_append u [bit]

/-- Reachable states of one key accept alike, and their successors have one key again. -/
structure Congruent (e : Exploration σ κ) (start : σ) : Prop where
  final_eq : ∀ u v, e.key (e.run start u) = e.key (e.run start v) →
    e.final (e.run start u) = e.final (e.run start v)
  next_eq : ∀ u v, e.key (e.run start u) = e.key (e.run start v) → ∀ bit,
    e.key (e.run start (u ++ [bit])) = e.key (e.run start (v ++ [bit]))

/-- Reachable states have one key exactly when no word tells them apart. -/
def Separates (e : Exploration σ κ) (start : σ) : Prop := ∀ u v,
  e.key (e.run start u) = e.key (e.run start v) ↔
    ∀ w, e.accepts start (u ++ w) = e.accepts start (v ++ w)

theorem Separates.congruent (h : e.Separates start) : e.Congruent start where
  final_eq u v huv := by simpa [accepts] using (h u v).1 huv []
  next_eq u v huv bit := (h _ _).2 fun w => by
    simpa only [List.append_assoc] using (h u v).1 huv ([bit] ++ w)

theorem congruent_of_injective (h : Function.Injective e.key) : e.Congruent start where
  final_eq _ _ huv := congrArg e.final (h huv)
  next_eq u v huv bit := by rw [run_concat, run_concat, h huv]

/-- At most `keys` different keys are reachable. -/
def FewKeys (e : Exploration σ κ) (start : σ) (keys : ℕ) : Prop :=
  ∃ s : Finset κ, s.card ≤ keys ∧ ∀ w, e.key (e.run start w) ∈ s

theorem FewKeys.mono {keys keys' : ℕ} (h : e.FewKeys start keys) (hle : keys ≤ keys') :
    e.FewKeys start keys' := by
  obtain ⟨s, hcard, hs⟩ := h
  exact ⟨s, hcard.trans hle, hs⟩

/-! ### Systems that read words alike -/

section

variable {σ' κ' : Type} {e' : Exploration σ' κ'} {start' x' : σ'}

/-- The same words lead to one key in both systems, and the same words are accepted. -/
structure Alike (e : Exploration σ κ) (start : σ) (e' : Exploration σ' κ') (start' : σ') : Prop where
  key_eq_iff : ∀ u v, e.key (e.run start u) = e.key (e.run start v) ↔
    e'.key (e'.run start' u) = e'.key (e'.run start' v)
  accepts_eq : ∀ w, e.accepts start w = e'.accepts start' w

/-- Systems of one language are alike when the keys of both stand for languages. -/
theorem Separates.alike (hs : e.Separates start) (hs' : e'.Separates start')
    (hlang : ∀ w, e.accepts start w = e'.accepts start' w) : Alike e start e' start' where
  key_eq_iff u v := by
    rw [hs u v, hs' u v]
    simp only [hlang]
  accepts_eq := hlang

/-- States that one word leads to. -/
def Paired (e : Exploration σ κ) (start : σ) (e' : Exploration σ' κ') (start' : σ') (x : σ)
    (x' : σ') : Prop := ∃ w, x = e.run start w ∧ x' = e'.run start' w

theorem Paired.next (hx : Paired e start e' start' x x') (bit : Bool) :
    Paired e start e' start' (e.next x bit) (e'.next x' bit) := by
  obtain ⟨w, rfl, rfl⟩ := hx
  exact ⟨w ++ [bit], (run_concat w bit).symm, (run_concat w bit).symm⟩

theorem Alike.key_eq_iff_of_paired (h : Alike e start e' start')
    (hx : Paired e start e' start' x x') (y : σ) (y' : σ') (hy : Paired e start e' start' y y') :
    e.key y = e.key x ↔ e'.key y' = e'.key x' := by
  obtain ⟨u, rfl, rfl⟩ := hx
  obtain ⟨v, rfl, rfl⟩ := hy
  exact h.key_eq_iff v u

end

variable [DecidableEq κ] [Hashable κ] {keys i : ℕ} {seen : Numbering e.key}

/-! ### The search -/

/-- What the search knows after it has visited the successors of the first `i` states. -/
structure Explored (e : Exploration σ κ) (start : σ) (i : ℕ) (seen : Numbering e.key) : Prop where
  distinct : seen.Distinct
  getElem?_zero : seen.items[0]? = some start
  reachable : ∀ x ∈ seen.items, ∃ w, x = e.run start w
  closed : ∀ j < i, ∀ x, seen.items[j]? = some x → ∀ bit, seen.knows (e.next x bit)

theorem explored_start : e.Explored start 0 (.ofList e.key [start]) where
  distinct := Numbering.distinct_ofList _
  getElem?_zero := by
    rw [Numbering.ofList, List.foldl_cons, List.foldl_nil, Numbering.insert_of_not_knows]
    · rfl
    · simp [Numbering.knows_iff, Numbering.empty]
  reachable x hx := ⟨[], List.mem_singleton.1 (Numbering.mem_of_mem_ofList hx)⟩
  closed j hj := absurd hj (Nat.not_lt_zero j)

theorem Explored.insert (h : e.Explored start i seen) (hx : ∃ w, x = e.run start w)
    (hi : i ≤ seen.size) : e.Explored start i (seen.insert x) where
  distinct := h.distinct.insert x
  getElem?_zero := Numbering.getElem?_insert h.getElem?_zero
  reachable y hy := by
    rcases Numbering.mem_of_mem_insert hy with hy | rfl
    · exact h.reachable y hy
    · exact hx
  closed j hj y hy bit := by
    -- The first `i` states stand where they stood before.
    have hj' : j < seen.items.size := hj.trans_le hi
    have hkept := Numbering.getElem?_insert (x := x) (Array.getElem?_eq_getElem hj')
    rw [hy] at hkept
    obtain rfl := Option.some.inj hkept
    exact Numbering.knows_insert (h.closed j hj _ (Array.getElem?_eq_getElem hj') bit)

/-- The visit of one more state. -/
theorem Explored.visitNext (h : e.Explored start i seen) (hx : seen.items[i]? = some x) :
    e.Explored start (i + 1) (e.visitNext seen x) := by
  have hi : i < seen.items.size := (Array.getElem?_eq_some_iff.1 hx).1
  obtain ⟨w, rfl⟩ := h.reachable x (Array.mem_of_getElem? hx)
  have hnext : ∀ bit, ∃ u, e.next (e.run start w) bit = e.run start u := fun bit =>
    ⟨w ++ [bit], (run_concat w bit).symm⟩
  have hsize : i ≤ (seen.insert (e.next (e.run start w) false)).size :=
    (Array.getElem?_eq_some_iff.1 (Numbering.getElem?_insert hx)).1.le
  have hboth := (h.insert (hnext false) hi.le).insert (hnext true) hsize
  refine ⟨hboth.distinct, hboth.getElem?_zero, hboth.reachable, ?_⟩
  intro j hj y hy bit
  rcases Nat.lt_succ_iff_lt_or_eq.1 hj with hj | rfl
  · exact hboth.closed j hj y hy bit
  · have hkept : (e.visitNext seen (e.run start w)).items[j]? = some (e.run start w) :=
      Numbering.getElem?_insert (Numbering.getElem?_insert hx)
    rw [hy] at hkept
    obtain rfl := Option.some.inj hkept
    cases bit with
    | false => exact Numbering.knows_insert Numbering.knows_insert_self
    | true => exact Numbering.knows_insert_self

theorem Explored.size_le (h : e.Explored start i seen) (hkeys : e.FewKeys start keys) :
    seen.size ≤ keys := by
  obtain ⟨s, hcard, hs⟩ := hkeys
  refine (h.distinct.size_le fun x hx => ?_).trans hcard
  obtain ⟨w, rfl⟩ := h.reachable x hx
  exact hs w

/-- The search is over when no state is left to visit. -/
theorem Explored.done (h : e.Explored start i seen) (hle : seen.size ≤ i) :
    e.Explored start seen.size seen :=
  ⟨h.distinct, h.getElem?_zero, h.reachable, fun j hj => h.closed j (hj.trans_le hle)⟩

/-- With a unit of fuel for every key that is left, the search visits all states. -/
theorem Explored.extend (h : e.Explored start i seen) (hkeys : e.FewKeys start keys) {fuel : ℕ}
    (hfuel : keys ≤ fuel + i) :
    e.Explored start (e.extend fuel i seen).size (e.extend fuel i seen) := by
  induction fuel generalizing i seen with
  | zero => exact h.done ((h.size_le hkeys).trans (by omega))
  | succ fuel ih =>
    rw [Exploration.extend]
    split
    · next hnone => exact h.done (Array.getElem?_eq_none_iff.1 hnone)
    · next x hx => exact ih (h.visitNext hx) (by omega)

theorem explored_discover (hkeys : e.FewKeys start keys) :
    e.Explored start (e.discover keys start).size (e.discover keys start) :=
  explored_start.extend hkeys le_rfl

/-- More fuel than that finds nothing else. -/
theorem extend_eq_of_le {fuel fuel' : ℕ} (hsize : (e.extend fuel i seen).size ≤ fuel + i)
    (hle : fuel ≤ fuel') : e.extend fuel' i seen = e.extend fuel i seen := by
  induction fuel generalizing i seen fuel' with
  | zero =>
    cases fuel' with
    | zero => rfl
    | succ fuel' =>
      rw [Nat.zero_add] at hsize
      have hnone : seen.items[i]? = none := Array.getElem?_eq_none hsize
      simp only [Exploration.extend, hnone]
  | succ fuel ih =>
    obtain ⟨fuel', rfl⟩ := Nat.exists_eq_add_of_le' (Nat.le_of_add_left_le hle)
    rw [Exploration.extend] at hsize ⊢
    rw [Exploration.extend]
    split
    · rfl
    · next x hx =>
      simp only [hx] at hsize
      exact ih (by omega) (by omega)

theorem automaton_eq_of_le {keys' : ℕ} (hkeys : e.FewKeys start keys) (hle : keys ≤ keys') :
    e.automaton keys' start = e.automaton keys start := by
  have hdiscover : e.discover keys' start = e.discover keys start :=
    extend_eq_of_le ((explored_discover hkeys).size_le hkeys) hle
  rw [automaton, hdiscover, automaton]

/-! ### The automaton of the numbers -/

section

variable {q : ℕ}

theorem numStates_automaton : (e.automaton keys start).numStates = (e.discover keys start).size := by
  simp [automaton, Automaton.numStates, Numbering.size]

theorem next_automaton (hx : (e.discover keys start).items[q]? = some x) (bit : Bool) :
    (e.automaton keys start).next q bit = (e.discover keys start).number (e.next x bit) := by
  obtain ⟨hq, rfl⟩ := Array.getElem?_eq_some_iff.1 hx
  cases bit <;> simp [automaton, Automaton.next, hq]

theorem isFinal_automaton (hx : (e.discover keys start).items[q]? = some x) :
    (e.automaton keys start).isFinal q = e.final x := by
  simp [automaton, Automaton.isFinal, hx]

variable (hkeys : e.FewKeys start keys)

include hkeys

theorem wellFormed_automaton : (e.automaton keys start).WellFormed where
  initial_lt := by
    rw [numStates_automaton]
    exact (Array.getElem?_eq_some_iff.1 (explored_discover hkeys).getElem?_zero).1
  accepting_size := by simp [automaton, Automaton.numStates]
  next_lt q hq bit := by
    rw [numStates_automaton] at hq ⊢
    have hx := Array.getElem?_eq_getElem hq
    rw [next_automaton hx]
    exact Numbering.number_lt ((explored_discover hkeys).closed q hq _ hx bit)

/-- A word leads to the number of a state with the key that the word leads to. -/
theorem exists_getElem?_run (hc : e.Congruent start) (w : List Bool) :
    ∃ u, (e.discover keys start).items[(e.automaton keys start).run 0 w]? = some (e.run start u) ∧
      e.key (e.run start u) = e.key (e.run start w) := by
  have hexplored := explored_discover hkeys
  induction w using List.reverseRecOn with
  | nil => exact ⟨[], hexplored.getElem?_zero, rfl⟩
  | append_singleton w bit ih =>
    obtain ⟨u, hu, hkey⟩ := ih
    have hlt := (Array.getElem?_eq_some_iff.1 hu).1
    obtain ⟨y, hy, hykey⟩ := Numbering.getElem?_number (hexplored.closed _ hlt _ hu bit)
    obtain ⟨v, rfl⟩ := hexplored.reachable y (Array.mem_of_getElem? hy)
    refine ⟨v, ?_, ?_⟩
    · rw [Automaton.run_append, Automaton.run_cons, Automaton.run_nil, next_automaton hu]
      exact hy
    · rw [hykey, ← run_concat]
      exact hc.next_eq u w hkey bit

/-- The automaton accepts the words that lead from the start to an accepting state. -/
theorem accepts_automaton (hc : e.Congruent start) (w : List Bool) :
    (e.automaton keys start).accepts w = e.accepts start w := by
  obtain ⟨u, hu, hkey⟩ := exists_getElem?_run hkeys hc w
  rw [Automaton.accepts]
  exact (isFinal_automaton hu).trans (hc.final_eq u w hkey)

/-- Every number is that of a state which some word leads to. -/
theorem exists_run_automaton (hc : e.Congruent start) (hq : q < (e.automaton keys start).numStates) :
    ∃ w, (e.automaton keys start).run 0 w = q := by
  rw [numStates_automaton] at hq
  have hexplored := explored_discover hkeys
  have hx := Array.getElem?_eq_getElem hq
  obtain ⟨w, hw⟩ := hexplored.reachable _ (Array.mem_of_getElem? hx)
  obtain ⟨u, hu, hkey⟩ := exists_getElem?_run hkeys hc w
  rw [hw] at hx
  have hplace := hexplored.distinct.number_eq hx rfl
  exact ⟨w, (hexplored.distinct.number_eq hu hkey).symm.trans hplace⟩

/-- When keys stand for languages, no automaton of the language has fewer states: states of different
keys are reached by words that it has to tell apart. -/
theorem numStates_le (hs : e.Separates start) {a : Automaton} (ha : a.WellFormed)
    (hlang : ∀ w, a.accepts w = e.accepts start w) :
    (e.automaton keys start).numStates ≤ a.numStates := by
  have hexplored := explored_discover hkeys
  rw [numStates_automaton]
  choose word hword using fun q : Fin (e.discover keys start).size =>
    hexplored.reachable _ (Array.getElem_mem q.isLt)
  let place (q : Fin (e.discover keys start).size) : Fin a.numStates :=
    ⟨a.run a.initial (word q), ha.run_lt ha.initial_lt _⟩
  have hinjective : Function.Injective place := by
    intro q q' hplace
    have hrun : a.run a.initial (word q) = a.run a.initial (word q') := congrArg Fin.val hplace
    have hkey : e.key (e.run start (word q)) = e.key (e.run start (word q')) := by
      refine (hs _ _).2 fun w => ?_
      rw [← hlang, ← hlang, Automaton.accepts, Automaton.accepts, Automaton.run_append, hrun,
        Automaton.run_append]
    rw [← hword, ← hword] at hkey
    have hnumber := hexplored.distinct.number_eq (Array.getElem?_eq_getElem q.isLt) hkey
    have hnumber' := hexplored.distinct.number_eq (Array.getElem?_eq_getElem q'.isLt) rfl
    exact Fin.ext (hnumber.symm.trans hnumber')
  have := Fintype.card_le_of_injective place hinjective
  rwa [Fintype.card_fin, Fintype.card_fin] at this

end

/-! ### The numbers of systems that read words alike -/

section

variable {σ' κ' : Type} {e' : Exploration σ' κ'} {start' : σ'} [DecidableEq κ'] [Hashable κ']
  {seen' : Numbering e'.key}

/-- Both searches go on in step: what one of them meets is new to it when it is new to the other. -/
theorem Alike.related_extend (h : Alike e start e' start') (fuel i : ℕ)
    (hseen : Numbering.Related (Paired e start e' start') seen seen') :
    Numbering.Related (Paired e start e' start') (e.extend fuel i seen) (e'.extend fuel i seen') := by
  induction fuel generalizing i seen seen' with
  | zero => exact hseen
  | succ fuel ih =>
    have hitem := hseen.getElem? i
    rw [extend, extend]
    cases hx : seen.items[i]? with
    | none =>
      rw [hx] at hitem
      cases hx' : seen'.items[i]? with
      | none => exact hseen
      | some x' => rw [hx'] at hitem; cases hitem
    | some x =>
      rw [hx] at hitem
      cases hx' : seen'.items[i]? with
      | none => rw [hx'] at hitem; cases hitem
      | some x' =>
        rw [hx'] at hitem
        cases hitem with
        | some hpair =>
          refine ih _ ?_
          have hfalse := hpair.next false
          have htrue := hpair.next true
          exact (hseen.insert (h.key_eq_iff_of_paired hfalse) hfalse).insert
            (h.key_eq_iff_of_paired htrue) htrue

theorem Alike.related_discover (h : Alike e start e' start') (keys : ℕ) :
    Numbering.Related (Paired e start e' start') (e.discover keys start)
      (e'.discover keys start') := by
  have hstart : Paired e start e' start' start start' := ⟨[], rfl, rfl⟩
  have hempty : Numbering.Related (Paired e start e' start') (.empty e.key) (.empty e'.key) := .nil
  exact h.related_extend keys 0 (hempty.insert (h.key_eq_iff_of_paired hstart) hstart)

/-- Systems that read words alike are numbered alike. -/
theorem Alike.automaton_eq (h : Alike e start e' start') {keys keys' : ℕ}
    (hkeys : e.FewKeys start keys) (hkeys' : e'.FewKeys start' keys') :
    e.automaton keys start = e'.automaton keys' start' := by
  have hseen := h.related_discover (max keys keys')
  have hnumber : ∀ x x', Paired e start e' start' x x' →
      (e.discover (max keys keys') start).number x =
        (e'.discover (max keys keys') start').number x' := fun _ _ hx =>
    hseen.number_eq (h.key_eq_iff_of_paired hx)
  rw [← automaton_eq_of_le hkeys (le_max_left keys keys'),
    ← automaton_eq_of_le hkeys' (le_max_right keys keys'), automaton, automaton, Automaton.mk.injEq]
  refine ⟨rfl, hseen.map_eq ?_, hseen.map_eq ?_⟩
  · rintro x x' ⟨w, rfl, rfl⟩
    exact h.accepts_eq w
  · intro x x' hx
    rw [hnumber _ _ (hx.next false), hnumber _ _ (hx.next true)]

end

end CipherMonitor.Exploration
