import Std.Data.HashMap

/-!
# Numbering in order of appearance

Items are told apart by a key.  The first item of every key is kept, and its place is the number of
all items of that key.

* `Numbering` — the items kept, with an index of their keys.
* `Numbering.insert`, `Numbering.ofList` — items appended, unless their key is known.
* `Numbering.number`, `Numbering.enter` — the number of an item, also of one that is appended for it.
* `Numbering.items_insert`, `Numbering.number_eq` — what the index looks up, said of the items alone.
-/

namespace CipherMonitor

/-- Items of different keys in order of appearance; the index maps a key to the place of its item. -/
structure Numbering {σ κ : Type} [DecidableEq κ] [Hashable κ] (key : σ → κ) where
  items : Array σ
  index : Std.HashMap κ Nat
  index_eq : ∀ k, index[k]? = items.findIdx? fun y => key y == k

namespace Numbering

variable {σ κ : Type} [DecidableEq κ] [Hashable κ] {key : σ → κ}

/-- No items. -/
def empty (key : σ → κ) : Numbering key := ⟨#[], ∅, fun k => by simp⟩

/-- Whether there is an item of the key of `x`. -/
def knows (n : Numbering key) (x : σ) : Bool := n.index.contains (key x)

theorem index_push (n : Numbering key) (x : σ) (h : ¬ n.knows x) (k : κ) :
    (n.index.insert (key x) n.items.size)[k]? = (n.items.push x).findIdx? fun y => key y == k := by
  have unknown : n.index[key x]? = none := Std.HashMap.getElem?_eq_none fun hk => h (by
    simpa [knows] using hk)
  rw [Std.HashMap.getElem?_insert, Array.findIdx?_push, ← n.index_eq k]
  by_cases hk : key x = k
  · subst hk
    simp [unknown]
  · simp [hk]

/-- Appends an item, unless its key is known. -/
def insert (n : Numbering key) (x : σ) : Numbering key :=
  if h : n.knows x then n
  else ⟨n.items.push x, n.index.insert (key x) n.items.size, n.index_push x h⟩

/-- The items of a list, each key once. -/
def ofList (key : σ → κ) (xs : List σ) : Numbering key := xs.foldl insert (empty key)

/-- The number of an item, which is the number of keys if its key is unknown. -/
def number (n : Numbering key) (x : σ) : Nat := n.index.getD (key x) n.items.size

/-- How many keys there are. -/
def size (n : Numbering key) : Nat := n.items.size

/-- The number of an item; one of an unknown key is appended and gets the next number. -/
def enter (n : Numbering key) (x : σ) : Nat × Numbering key :=
  if n.knows x then (n.number x, n) else (n.size, n.insert x)

/-- A key is known when an item has it. -/
theorem knows_eq (n : Numbering key) (x : σ) : n.knows x = n.items.any (key · == key x) := by
  rw [knows, Std.HashMap.contains_eq_isSome_getElem?, n.index_eq, Array.findIdx?_isSome]

theorem items_insert (n : Numbering key) (x : σ) :
    (n.insert x).items = if n.items.any (key · == key x) then n.items else n.items.push x := by
  rw [← n.knows_eq x, insert]
  split <;> simp_all

/-- The number of an item is the place of the first item of its key. -/
theorem number_eq (n : Numbering key) (x : σ) :
    n.number x = n.items.findIdx (key · == key x) := by
  rw [number, Std.HashMap.getD_eq_getD_getElem?, n.index_eq, Array.findIdx_eq_getD_findIdx?]

end Numbering

end CipherMonitor
