import Mathlib.Data.Finset.Card
import Mathlib.Data.List.Forall2
import CipherMonitor.Automaton.Numbering

/-!
# The items of a numbering

* `Numbering.knows_iff` — a key is known when an item has it.
* `Numbering.Distinct` — every key has one item.
* `Numbering.getElem?_number`, `Numbering.number_inj` — an item is found at its number.
* `Numbering.Distinct.number_insert`, `Numbering.Distinct.enter_eq` — numbers that are handed out.
* `Numbering.Distinct.size_le`, `Numbering.size_ofList`, `Numbering.image_number_ofList` — how many items
  there are, and what their numbers are.
* `Numbering.Related.insert`, `Numbering.Related.number_eq` — two numberings side by side.
-/

namespace CipherMonitor.Numbering

variable {σ κ : Type} [DecidableEq κ] [Hashable κ] {key : σ → κ} {n : Numbering key} {x y : σ}
  {i : ℕ}

theorem knows_iff : n.knows x ↔ ∃ y ∈ n.items, key y = key x := by
  rw [knows_eq, Array.any_eq_true']
  simp

/-! ### Insertion -/

theorem insert_of_knows (h : n.knows x) : (n.insert x).items = n.items := by
  rw [items_insert, ← knows_eq, if_pos h]

theorem insert_of_not_knows (h : ¬ n.knows x) : (n.insert x).items = n.items.push x := by
  rw [items_insert, ← knows_eq, if_neg h]

/-- What is new in a numbering is the inserted item. -/
theorem mem_of_mem_insert (h : y ∈ (n.insert x).items) : y ∈ n.items ∨ y = x := by
  by_cases hx : n.knows x
  · rw [insert_of_knows hx] at h
    exact .inl h
  · rw [insert_of_not_knows hx, Array.mem_push] at h
    exact h

/-- Items keep their places. -/
theorem getElem?_insert (h : n.items[i]? = some y) : (n.insert x).items[i]? = some y := by
  by_cases hx : n.knows x
  · rw [insert_of_knows hx, h]
  · have hi := (Array.getElem?_eq_some_iff.1 h).1
    rw [insert_of_not_knows hx, Array.getElem?_push_lt hi, ← h, Array.getElem?_eq_getElem hi]

theorem knows_insert_self : (n.insert x).knows x := by
  by_cases hx : n.knows x
  · rwa [knows_iff, insert_of_knows hx, ← knows_iff]
  · rw [knows_iff, insert_of_not_knows hx]
    exact ⟨x, Array.mem_push_self, rfl⟩

theorem knows_insert (h : n.knows y) : (n.insert x).knows y := by
  obtain ⟨z, hz, hkey⟩ := knows_iff.1 h
  obtain ⟨i, hi⟩ := Array.mem_iff_getElem?.1 hz
  exact knows_iff.2 ⟨z, Array.mem_of_getElem? (getElem?_insert hi), hkey⟩

/-! ### Numbers -/

/-- At the number of a known item stands an item of its key. -/
theorem getElem?_number (h : n.knows x) : ∃ y, n.items[n.number x]? = some y ∧ key y = key x := by
  have hexists : ∃ y ∈ n.items, (key y == key x) = true := by simpa using knows_iff.1 h
  have hlt : n.items.findIdx (key · == key x) < n.items.size := Array.findIdx_lt_size_of_exists hexists
  rw [number_eq, Array.getElem?_eq_getElem hlt]
  exact ⟨_, rfl, by simpa using Array.findIdx_getElem (w := hlt)⟩

theorem number_lt (h : n.knows x) : n.number x < n.size := by
  obtain ⟨y, hy, -⟩ := getElem?_number h
  exact (Array.getElem?_eq_some_iff.1 hy).1

theorem number_congr (h : key x = key y) : n.number x = n.number y := by
  rw [number, number, h]

/-- Known items have one number when they have one key. -/
theorem number_inj (hx : n.knows x) (hy : n.knows y) : n.number x = n.number y ↔ key x = key y := by
  refine ⟨fun h => ?_, number_congr⟩
  obtain ⟨x', hx', hkey⟩ := getElem?_number hx
  obtain ⟨y', hy', hkey'⟩ := getElem?_number hy
  rw [h, hy'] at hx'
  rw [← hkey, ← hkey', Option.some.inj hx']

/-! ### One item for each key -/

/-- No two items have the same key. -/
def Distinct (n : Numbering key) : Prop := (n.items.toList.map key).Nodup

theorem distinct_empty : (empty key).Distinct := by simp [Distinct, empty]

theorem Distinct.insert (h : n.Distinct) (x : σ) : (n.insert x).Distinct := by
  by_cases hx : n.knows x
  · rwa [Distinct, insert_of_knows hx]
  · rw [Distinct, insert_of_not_knows hx, Array.toList_push, List.map_append, List.nodup_append]
    refine ⟨h, List.nodup_singleton _, ?_⟩
    rintro k hk k' hk' rfl
    obtain ⟨y, hy, rfl⟩ := List.mem_map.1 hk
    exact hx (knows_iff.2 ⟨y, Array.mem_toList_iff.1 hy, by simpa using hk'⟩)

/-- Inserting the elements of a list: each of them is known afterwards, and nothing else is new. -/
theorem foldl_insert (h : n.Distinct) (xs : List σ) :
    (xs.foldl insert n).Distinct ∧ (∀ y, n.knows y → (xs.foldl insert n).knows y) ∧
      (∀ x ∈ xs, (xs.foldl insert n).knows x) ∧
      ∀ y ∈ (xs.foldl insert n).items, y ∈ n.items ∨ y ∈ xs := by
  induction xs generalizing n with
  | nil => exact ⟨h, fun _ hy => hy, by simp, fun _ hy => .inl hy⟩
  | cons x xs ih =>
    obtain ⟨hdistinct, hkept, hknown, hmem⟩ := ih (h.insert x)
    refine ⟨hdistinct, fun y hy => hkept y (knows_insert hy), ?_, ?_⟩
    · rintro y (_ | ⟨_, hy⟩)
      · exact hkept x knows_insert_self
      · exact hknown y hy
    · intro y hy
      rcases hmem y hy with hy | hy
      · rcases mem_of_mem_insert hy with hy | rfl
        · exact .inl hy
        · exact .inr (List.mem_cons_self ..)
      · exact .inr (List.mem_cons_of_mem _ hy)

theorem distinct_ofList (xs : List σ) : (ofList key xs).Distinct :=
  (foldl_insert distinct_empty xs).1

theorem knows_ofList {xs : List σ} (h : x ∈ xs) : (ofList key xs).knows x :=
  (foldl_insert distinct_empty xs).2.2.1 x h

theorem mem_of_mem_ofList {xs : List σ} (h : y ∈ (ofList key xs).items) : y ∈ xs := by
  rcases (foldl_insert distinct_empty xs).2.2.2 y h with hy | hy
  · simp [empty] at hy
  · exact hy

/-- The number of an item is its place. -/
theorem Distinct.number_eq (h : n.Distinct) (hi : n.items[i]? = some y) (hkey : key y = key x) :
    n.number x = i := by
  have hknows : n.knows x := knows_iff.2 ⟨y, Array.mem_of_getElem? hi, hkey⟩
  obtain ⟨z, hz, hzkey⟩ := getElem?_number hknows
  have hlt : n.number x < (n.items.toList.map key).length := by
    rw [List.length_map, Array.length_toList]
    exact number_lt hknows
  refine (List.getElem?_inj hlt h).1 ?_
  simp [hi, hz, hkey, hzkey]

/-! ### Numbers that are handed out -/

/-- A known item keeps its number. -/
theorem Distinct.number_insert (h : n.Distinct) (hy : n.knows y) :
    (n.insert x).number y = n.number y := by
  obtain ⟨z, hz, hkey⟩ := getElem?_number hy
  exact (h.insert x).number_eq (getElem?_insert hz) hkey

/-- An unknown item gets the next number. -/
theorem Distinct.number_insert_self (h : n.Distinct) (hx : ¬ n.knows x) :
    (n.insert x).number x = n.size := by
  refine (h.insert x).number_eq (y := x) ?_ rfl
  rw [insert_of_not_knows hx, size, Array.getElem?_push_size]

theorem size_le_insert : n.size ≤ (n.insert x).size := by
  by_cases hx : n.knows x
  · rw [size, size, insert_of_knows hx]
  · rw [size, size, insert_of_not_knows hx, Array.size_push]
    exact Nat.le_succ _

theorem size_insert_of_not_knows (hx : ¬ n.knows x) : (n.insert x).size = n.size + 1 := by
  rw [size, insert_of_not_knows hx, Array.size_push, size]

/-- The number that an item is given is the one it has afterwards. -/
theorem Distinct.enter_eq (h : n.Distinct) (x : σ) :
    n.enter x = ((n.insert x).number x, n.insert x) := by
  rw [enter]
  split
  · next hx => rw [h.number_insert hx, Numbering.insert, dif_pos hx]
  · next hx => rw [h.number_insert_self hx]

/-- Known items keep their numbers while others are inserted. -/
theorem Distinct.number_foldl_insert (h : n.Distinct) (hy : n.knows y) (xs : List σ) :
    (xs.foldl Numbering.insert n).number y = n.number y := by
  induction xs generalizing n with
  | nil => rfl
  | cons x xs ih => rw [List.foldl_cons, ih (h.insert x) (knows_insert hy), h.number_insert hy]

/-! ### How many items there are -/

/-- There are no more items than keys that they may have. -/
theorem Distinct.size_le (h : n.Distinct) {keys : Finset κ} (hkeys : ∀ x ∈ n.items, key x ∈ keys) :
    n.size ≤ keys.card := by
  have hsubset : (n.items.toList.map key).toFinset ⊆ keys := by
    intro k hk
    obtain ⟨x, hx, rfl⟩ := List.mem_map.1 (List.mem_toFinset.1 hk)
    exact hkeys x (Array.mem_toList_iff.1 hx)
  have := Finset.card_le_card hsubset
  rwa [List.toFinset_card_of_nodup h, List.length_map, Array.length_toList] at this

/-- A list of items has as many numbers as keys. -/
theorem size_ofList (xs : List σ) : (ofList key xs).size = (xs.map key).toFinset.card := by
  have hkeys : ((ofList key xs).items.toList.map key).toFinset = (xs.map key).toFinset := by
    ext k
    simp only [List.mem_toFinset, List.mem_map, Array.mem_toList_iff]
    constructor
    · rintro ⟨x, hx, rfl⟩
      exact ⟨x, mem_of_mem_ofList hx, rfl⟩
    · rintro ⟨x, hx, rfl⟩
      exact knows_iff.1 (knows_ofList hx)
  rw [← hkeys, List.toFinset_card_of_nodup (distinct_ofList xs), List.length_map,
    Array.length_toList, size]

/-- The numbers of the items of a list are all numbers below their count. -/
theorem image_number_ofList (xs : List σ) :
    (xs.map (ofList key xs).number).toFinset = Finset.range (ofList key xs).size := by
  ext i
  simp only [List.mem_toFinset, List.mem_map, Finset.mem_range]
  constructor
  · rintro ⟨x, hx, rfl⟩
    exact number_lt (knows_ofList hx)
  · intro hi
    have hitem : (ofList key xs).items[i]? = some _ := Array.getElem?_eq_getElem hi
    exact ⟨_, mem_of_mem_ofList (Array.mem_of_getElem? hitem),
      (distinct_ofList xs).number_eq hitem rfl⟩

/-! ### Two numberings side by side -/

section

variable {σ' κ' : Type} [DecidableEq κ'] [Hashable κ'] {key' : σ' → κ'} {n' : Numbering key'}
  {x' : σ'} {R : σ → σ' → Prop}

/-- The items of both numberings are related one by one. -/
def Related (R : σ → σ' → Prop) (n : Numbering key) (n' : Numbering key') : Prop :=
  List.Forall₂ R n.items.toList n'.items.toList

/-- Related lists agree on properties that related items share. -/
theorem any_and_findIdx_of_forall₂ {l : List σ} {l' : List σ'} {p : σ → Bool} {p' : σ' → Bool}
    (hp : ∀ y y', R y y' → p y = p' y') (h : List.Forall₂ R l l') :
    l.any p = l'.any p' ∧ l.findIdx p = l'.findIdx p' := by
  induction h with
  | nil => exact ⟨rfl, rfl⟩
  | cons hy _ ih => simp only [List.any_cons, List.findIdx_cons, ih, hp _ _ hy, and_self]

theorem Related.getElem? (h : Related R n n') (i : ℕ) :
    Option.Rel R n.items[i]? n'.items[i]? := by
  have hlist : ∀ {l : List σ} {l' : List σ'}, List.Forall₂ R l l' →
      ∀ i : ℕ, Option.Rel R l[i]? l'[i]? := by
    intro l l' hl
    induction hl with
    | nil => exact fun _ => .none
    | cons hy _ ih =>
      rintro (_ | i)
      · exact .some hy
      · exact ih i
  rw [← Array.getElem?_toList, ← Array.getElem?_toList]
  exact hlist h i

/-- A function that related items share has one table. -/
theorem Related.map_eq {τ : Type} (h : Related R n n') {f : σ → τ} {f' : σ' → τ}
    (hf : ∀ y y', R y y' → f y = f' y') : n.items.map f = n'.items.map f' := by
  rw [← Array.toList_inj, Array.toList_map, Array.toList_map, ← List.forall₂_eq_eq_eq,
    List.forall₂_map_left_iff, List.forall₂_map_right_iff]
  exact h.imp hf

variable (hR : ∀ y y', R y y' → (key y = key x ↔ key' y' = key' x'))

include hR

theorem Related.any_and_findIdx (h : Related R n n') :
    n.items.toList.any (key · == key x) = n'.items.toList.any (key' · == key' x') ∧
      n.items.toList.findIdx (key · == key x) = n'.items.toList.findIdx (key' · == key' x') :=
  any_and_findIdx_of_forall₂ (fun y y' hy => by simp only [beq_eq_decide, hR y y' hy]) h

/-- Related items are known together. -/
theorem Related.knows_iff (h : Related R n n') : n.knows x ↔ n'.knows x' := by
  rw [knows_eq, knows_eq, ← Array.any_toList, ← Array.any_toList, (h.any_and_findIdx hR).1]

/-- Related items have one number. -/
theorem Related.number_eq (h : Related R n n') : n.number x = n'.number x' := by
  have := (h.any_and_findIdx hR).2
  rw [← List.findIdx_toArray, ← List.findIdx_toArray] at this
  rw [Numbering.number_eq, Numbering.number_eq]
  exact this

theorem Related.insert (h : Related R n n') (hx : R x x') :
    Related R (n.insert x) (n'.insert x') := by
  have hknows := h.knows_iff hR
  by_cases hx' : n.knows x
  · rwa [Related, insert_of_knows hx', insert_of_knows (hknows.1 hx')]
  · rw [Related, insert_of_not_knows hx', insert_of_not_knows (mt hknows.2 hx'), Array.toList_push,
      Array.toList_push]
    exact List.rel_append h (.cons hx .nil)

end

end CipherMonitor.Numbering
