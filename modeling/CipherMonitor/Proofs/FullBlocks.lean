import Mathlib.Algebra.Order.BigOperators.Group.List
import Mathlib.Algebra.Order.Group.Nat
import Mathlib.Data.List.Forall2

/-!
# Full blocks

A sequence is cut into blocks of one length, and what is left at its end is no block.

* `fullBlocks` — the complete blocks of a sequence.
* `fullBlocks_append` — a block in front of a sequence.
* `flatten_take_fullBlocks` — the first blocks together.
-/

namespace CipherMonitor

variable {α β : Type} {k : ℕ}

/-- The complete blocks of `k` elements, without the rest. -/
def fullBlocks (k : ℕ) (l : List α) : List (List α) :=
  (List.range (l.length / k)).map fun j => (l.drop (j * k)).take k

theorem length_fullBlocks (l : List α) : (fullBlocks k l).length = l.length / k := by
  rw [fullBlocks, List.length_map, List.length_range]

theorem fullBlocks_of_lt {l : List α} (h : l.length < k) : fullBlocks k l = [] := by
  rw [fullBlocks, Nat.div_eq_of_lt h]
  rfl

theorem fullBlocks_append {block rest : List α} (hk : 0 < k) (h : block.length = k) :
    fullBlocks k (block ++ rest) = block :: fullBlocks k rest := by
  have hcount : (block ++ rest).length / k = rest.length / k + 1 := by
    rw [List.length_append, h, Nat.add_comm, Nat.add_div_right _ hk]
  rw [fullBlocks, hcount, List.range_succ_eq_map, List.map_cons, List.map_map]
  congr 1
  · rw [Nat.zero_mul, List.drop_zero, List.take_left' h]
  · refine List.map_congr_left fun j _ => ?_
    rw [Function.comp_apply, Nat.succ_mul, Nat.add_comm, ← List.drop_drop, List.drop_left' h]

/-- The first blocks together are the first elements. -/
theorem flatten_take_fullBlocks {l : List α} {j : ℕ} (hj : j ≤ l.length / k) :
    ((fullBlocks k l).take j).flatten = l.take (j * k) := by
  rw [fullBlocks, ← List.map_take, List.take_range, Nat.min_eq_left hj]
  clear hj
  induction j with
  | zero => simp
  | succ j ih =>
    rw [List.range_succ, List.map_append, List.flatten_append, ih, List.map_singleton,
      List.flatten_singleton, Nat.succ_mul, List.take_add]

theorem forall₂_fullBlocks {P : α → β → Prop} {l : List α} {l' : List β}
    (h : List.Forall₂ P l l') : List.Forall₂ (List.Forall₂ P) (fullBlocks k l) (fullBlocks k l') := by
  rw [fullBlocks, fullBlocks, h.length_eq, List.forall₂_map_left_iff, List.forall₂_map_right_iff,
    List.forall₂_same]
  exact fun j _ => List.forall₂_take k (List.forall₂_drop (j * k) h)

/-- A block of words that are not too long is not too long. -/
theorem length_flatten_of_mem_fullBlocks {words : List (List α)} {n : ℕ}
    (h : ∀ w ∈ words, w.length ≤ n) {block : List (List α)} (hblock : block ∈ fullBlocks k words) :
    block.flatten.length ≤ k * n := by
  obtain ⟨j, -, rfl⟩ := List.mem_map.1 hblock
  set block := (words.drop (j * k)).take k with hdef
  have hword : ∀ w ∈ block, w.length ≤ n := fun w hw =>
    h w (List.mem_of_mem_drop (List.mem_of_mem_take (hdef ▸ hw)))
  have hcount : block.length ≤ k := List.length_take_le _ _
  rw [List.length_flatten]
  calc _ ≤ (block.map List.length).length • n :=
        List.sum_le_card_nsmul _ n (by simpa using hword)
    _ ≤ k * n := by
        rw [List.length_map, Nat.nsmul_eq_mul]
        exact Nat.mul_le_mul_right n hcount

end CipherMonitor
