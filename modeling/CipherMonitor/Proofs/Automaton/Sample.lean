import Mathlib.Data.List.Induction
import Mathlib.Data.Nat.Bitwise
import CipherMonitor.Automaton.Sample
import CipherMonitor.Proofs.Automaton.Description
import CipherMonitor.Proofs.FullBlocks

/-!
# What the automata of per-sample properties accept

The nodes of the tree are the words shorter than a sample, so the state after a word tells whether a
sample of the word has settled the question, and if none has, which bits were read since.

* `Automaton.node` — the number of the node of a word.
* `Automaton.treeNext_node`, `Automaton.treeNext_last` — one bit inside a sample and at its end.
* `Automaton.run_tree` — the state after any word.
* `Automaton.accepts_per_sample` — every sample has the property, or some sample has it.
-/

namespace CipherMonitor.Automaton

variable {p q : ℕ} {settles : List Bool → Bool} {rootAccepts : Bool} {u word : List Bool}

/-! ### Nodes -/

/-- The number that a word stands for, the most significant bit first. -/
def ofBits (u : List Bool) : ℕ := u.foldl (fun n bit => Nat.bit bit n) 0

@[simp] theorem ofBits_concat (u : List Bool) (bit : Bool) :
    ofBits (u ++ [bit]) = Nat.bit bit (ofBits u) := by
  rw [ofBits, List.foldl_concat, ofBits]

theorem ofBits_lt (u : List Bool) : ofBits u < 2 ^ u.length := by
  induction u using List.reverseRecOn with
  | nil => exact Nat.one_pos
  | append_singleton u bit ih =>
    rw [ofBits_concat, List.length_append, List.length_singleton]
    exact Nat.bit_lt_two_pow_succ_iff.2 ih

theorem bitsOf_bit (p n : ℕ) (bit : Bool) : bitsOf (p + 1) (Nat.bit bit n) = bitsOf p n ++ [bit] := by
  rw [bitsOf, List.range_succ, List.map_append]
  congr 1
  · refine List.map_congr_left fun i hi => ?_
    have hi : i < p := List.mem_range.1 hi
    rw [show p + 1 - 1 - i = p - 1 - i + 1 by omega, Nat.testBit_bit_succ]
  · simp

/-- The bits of the number of a word are the word. -/
theorem bitsOf_ofBits (u : List Bool) : bitsOf u.length (ofBits u) = u := by
  induction u using List.reverseRecOn with
  | nil => rfl
  | append_singleton u bit ih =>
    rw [ofBits_concat, List.length_append, List.length_singleton, bitsOf_bit, ih]

/-- The node of the tree that a word leads to from the root. -/
def node (u : List Bool) : ℕ := 2 ^ u.length - 1 + ofBits u

theorem node_concat (u : List Bool) (bit : Bool) :
    node (u ++ [bit]) = 2 * node u + 1 + bit.toNat := by
  have hpos := Nat.two_pow_pos u.length
  rw [node, node, ofBits_concat, List.length_append, List.length_singleton, Nat.pow_succ, Nat.bit_val]
  omega

theorem node_lt (h : u.length < p) : node u < 2 ^ p - 1 := by
  have hbits := ofBits_lt u
  have hrow : 2 ^ (u.length + 1) ≤ 2 ^ p := Nat.pow_le_pow_right Nat.two_pos h
  rw [Nat.pow_succ] at hrow
  rw [node]
  omega

theorem node_eq_zero_iff : node u = 0 ↔ u = [] := by
  refine ⟨fun h => List.length_eq_zero_iff.1 ?_, fun h => h ▸ rfl⟩
  by_contra hlength
  have hrow : 2 ^ 1 ≤ 2 ^ u.length := Nat.pow_le_pow_right Nat.two_pos (Nat.pos_of_ne_zero hlength)
  rw [node] at h
  omega

/-- Inside a sample a bit leads to a child. -/
theorem treeNext_node (h : u.length + 1 < p) (bit : Bool) :
    treeNext p settles (node u) bit = node (u ++ [bit]) := by
  have hchild : node (u ++ [bit]) < 2 ^ p - 1 := node_lt (by simpa using h)
  rw [node_concat] at hchild
  rw [treeNext, if_pos hchild, node_concat]

/-- The last bit of a sample leads to the absorbing state or back to the root. -/
theorem treeNext_last (h : u.length + 1 = p) (bit : Bool) :
    treeNext p settles (node u) bit = if settles (u ++ [bit]) then 2 ^ p - 1 else 0 := by
  have hlength : (u ++ [bit]).length = p := by simpa using h
  have hchild : 2 * node u + 1 + bit.toNat = 2 ^ p - 1 + ofBits (u ++ [bit]) := by
    rw [← node_concat, node, hlength]
  have hsample : bitsOf p (ofBits (u ++ [bit])) = u ++ [bit] := hlength ▸ bitsOf_ofBits _
  simp only [treeNext, hchild]
  rw [if_neg (Nat.not_lt.2 (Nat.le_add_right _ _)), Nat.add_sub_cancel_left, hsample]

theorem treeNext_le (node : ℕ) (bit : Bool) : treeNext p settles node bit ≤ 2 ^ p - 1 := by
  simp only [treeNext]
  split_ifs <;> omega

/-! ### The automaton of a tree -/

/-- The automaton of the tree. -/
def tree (p : ℕ) (settles : List Bool → Bool) (rootAccepts : Bool) : Automaton where
  initial := 0
  accepting := acceptance (2 ^ p) [if rootAccepts then 0 else 2 ^ p - 1]
  transitions := treeTransitions p settles

theorem size_treeTransitions : (treeTransitions p settles).size = 2 ^ p := by
  have hpos := Nat.two_pow_pos p
  rw [treeTransitions, Array.size_push, Array.size_ofFn]
  omega

theorem targets_treeTransitions :
    ∀ t ∈ treeTransitions p settles, t.1 ≤ 2 ^ p - 1 ∧ t.2 ≤ 2 ^ p - 1 := by
  intro t ht
  rcases Array.mem_push.1 ht with ht | rfl
  · obtain ⟨node, rfl⟩ := Array.mem_ofFn.1 ht
    exact ⟨treeNext_le _ _, treeNext_le _ _⟩
  · exact ⟨le_rfl, le_rfl⟩

/-- A tree of any depth that is allowed is an automaton. -/
theorem ofTree_eq (hp : 1 ≤ p) (hmax : p ≤ maxPropositions) :
    ofTree p settles rootAccepts = .ok (tree p settles rootAccepts) := by
  have hpos := Nat.two_pow_pos p
  rw [ofTree, if_neg (by omega), make_eq_ok_iff, flaw?_eq_none_iff, size_treeTransitions]
  refine ⟨⟨hpos, fun t ht => ?_, fun q hq => ?_⟩, rfl⟩
  · have := targets_treeTransitions t ht
    omega
  · rw [List.mem_singleton.1 hq]
    split <;> omega

theorem next_tree (hq : q < 2 ^ p - 1) (bit : Bool) :
    (tree p settles rootAccepts).next q bit = treeNext p settles q bit := by
  have hentry : (treeTransitions p settles).getD q (0, 0) =
      (treeNext p settles q false, treeNext p settles q true) := by
    simp [treeTransitions, Array.getElem_push, hq, Nat.lt_succ_of_lt hq]
  rw [next_of_getD (a := tree p settles rootAccepts) hentry]
  cases bit <;> rfl

theorem next_absorbing (bit : Bool) :
    (tree p settles rootAccepts).next (2 ^ p - 1) bit = 2 ^ p - 1 := by
  have hentry : (treeTransitions p settles).getD (2 ^ p - 1) (0, 0) = (2 ^ p - 1, 2 ^ p - 1) := by
    simp [treeTransitions, Array.getElem_push]
  rw [next_of_getD (a := tree p settles rootAccepts) hentry, ite_self]

theorem isFinal_tree (hq : q < 2 ^ p) : (tree p settles rootAccepts).isFinal q = true ↔
    q = if rootAccepts then 0 else 2 ^ p - 1 := by
  rw [isFinal, tree, getD_acceptance hq, decide_eq_true_iff, List.mem_singleton]

/-! ### Words -/

theorem run_absorbing (word : List Bool) :
    (tree p settles rootAccepts).run (2 ^ p - 1) word = 2 ^ p - 1 := by
  induction word with
  | nil => rfl
  | cons bit word ih => rw [run_cons, next_absorbing, ih]

theorem run_concat (a : Automaton) (q : ℕ) (u : List Bool) (bit : Bool) :
    a.run q (u ++ [bit]) = a.next (a.run q u) bit := by
  rw [run_append, run_cons, run_nil]

/-- A word shorter than a sample leads to its node. -/
theorem run_node (h : u.length < p) : (tree p settles rootAccepts).run 0 u = node u := by
  induction u using List.reverseRecOn with
  | nil => rfl
  | append_singleton u bit ih =>
    have hu : u.length + 1 < p := by simpa using h
    rw [run_concat, ih (by omega), next_tree (node_lt (by omega)), treeNext_node hu]

/-- A sample leads to the absorbing state if it settles the question. -/
theorem run_sample (hp : 0 < p) (h : u.length = p) :
    (tree p settles rootAccepts).run 0 u = if settles u then 2 ^ p - 1 else 0 := by
  induction u using List.reverseRecOn with
  | nil => exact absurd h hp.ne
  | append_singleton u bit _ =>
    have hu : u.length + 1 = p := by simpa using h
    rw [run_concat, run_node (by omega), next_tree (node_lt (by omega)), treeNext_last hu]

/-- Any word leads to the absorbing state if one of its samples settles the question, and otherwise to
the node of the bits after the last sample. -/
theorem run_tree (hp : 0 < p) (word : List Bool) :
    (tree p settles rootAccepts).run 0 word =
      if (fullBlocks p word).any settles then 2 ^ p - 1
      else node (word.drop (word.length / p * p)) := by
  induction hn : word.length using Nat.strong_induction_on generalizing word with
  | _ n ih =>
    by_cases hshort : word.length < p
    · simp [run_node hshort, fullBlocks_of_lt hshort, ← hn, Nat.div_eq_of_lt hshort]
    · obtain ⟨sample, rest, rfl, hsample⟩ : ∃ sample rest, word = sample ++ rest ∧ sample.length = p :=
        ⟨word.take p, word.drop p, (List.take_append_drop p word).symm,
          List.length_take_of_le (Nat.not_lt.1 hshort)⟩
      rw [List.length_append, hsample] at hn
      have hdrop : (sample ++ rest).drop (n / p * p) = rest.drop (rest.length / p * p) := by
        rw [← hn, Nat.add_div_left _ hp, Nat.succ_mul, Nat.add_comm, ← List.drop_drop,
          List.drop_left' hsample]
      rw [run_append, run_sample hp hsample, fullBlocks_append hp hsample, List.any_cons, hdrop]
      cases settles sample with
      | true => exact run_absorbing rest
      | false => exact ih rest.length (by omega) rest rfl

theorem drop_eq_nil_iff_dvd : word.drop (word.length / p * p) = [] ↔ p ∣ word.length := by
  rw [List.drop_eq_nil_iff, Nat.dvd_iff_div_mul_eq]
  exact ⟨fun h => (Nat.div_mul_le_self _ _).antisymm h, fun h => h.ge⟩

/-- What the tree accepts is told by the samples of the word. -/
theorem accepts_tree (hp : 0 < p) (word : List Bool) :
    (tree p settles rootAccepts).accepts word = true ↔
      if rootAccepts then p ∣ word.length ∧ ∀ sample ∈ fullBlocks p word, settles sample = false
      else ∃ sample ∈ fullBlocks p word, settles sample = true := by
  have htwo : 2 ^ 1 ≤ 2 ^ p := Nat.pow_le_pow_right Nat.two_pos hp
  have hnode : node (word.drop (word.length / p * p)) < 2 ^ p - 1 := by
    refine node_lt ?_
    rw [List.length_drop, Nat.mul_comm, ← Nat.mod_eq_sub]
    exact Nat.mod_lt _ hp
  rw [accepts, show (tree p settles rootAccepts).initial = 0 from rfl, run_tree hp word]
  by_cases hany : (fullBlocks p word).any settles = true
  · rw [if_pos hany, isFinal_tree (by omega)]
    obtain ⟨sample, hmem, hsettles⟩ := List.any_eq_true.1 hany
    cases rootAccepts with
    | true =>
      rw [if_pos rfl, if_pos rfl]
      refine iff_of_false (by omega) fun h => ?_
      rw [h.2 sample hmem] at hsettles
      cases hsettles
    | false => exact iff_of_true rfl ⟨sample, hmem, hsettles⟩
  · have hnone : ∀ sample ∈ fullBlocks p word, settles sample = false := by
      simpa only [List.any_eq_true, not_exists, not_and, Bool.not_eq_true] using hany
    rw [if_neg hany, isFinal_tree (by omega)]
    cases rootAccepts with
    | true =>
      rw [if_pos rfl, if_pos rfl, node_eq_zero_iff, drop_eq_nil_iff_dvd]
      exact (and_iff_left hnone).symm
    | false =>
      refine iff_of_false hnode.ne ?_
      rintro ⟨sample, hmem, hsettles⟩
      rw [hnone sample hmem] at hsettles
      cases hsettles

/-- For samples of one to sixteen bits, both constructors succeed.  The one for every sample accepts
the words of complete samples that all have the property; the one for some sample accepts the words
with a complete sample that has it. -/
theorem accepts_per_sample (hp : 1 ≤ p) (hmax : p ≤ 16) (property : List Bool → Bool) :
    (∃ a, globally p property = .ok a ∧ ∀ word, a.accepts word = true ↔
      p ∣ word.length ∧ ∀ sample ∈ fullBlocks p word, property sample = true) ∧
    ∃ a, eventually p property = .ok a ∧ ∀ word, a.accepts word = true ↔
      ∃ sample ∈ fullBlocks p word, property sample = true := by
  refine ⟨⟨_, ofTree_eq hp hmax, fun word => ?_⟩, ⟨_, ofTree_eq hp hmax, fun word => ?_⟩⟩
  · refine (accepts_tree hp word).trans ?_
    simp only [if_true, Bool.not_eq_false']
  · exact accepts_tree hp word

/-- Samples of two bits of which the first is set and the second is not: half a sample is too much for
every sample, and bits of two samples are not enough for some sample. -/
theorem accepts_per_sample_rising : (1 ≤ 2 ∧ 2 ≤ 16) ∧
    (∃ a, globally 2 (· == [true, false]) = .ok a ∧ a.accepts [true, false, true, false] = true ∧
      ¬ a.accepts [true, false, true] = true) ∧
    ∃ a, eventually 2 (· == [true, false]) = .ok a ∧
      a.accepts [false, true, true, false, true] = true ∧
      ¬ a.accepts [false, true, false, true] = true := by
  obtain ⟨⟨a, ha, hevery⟩, ⟨b, hb, hsome⟩⟩ :=
    accepts_per_sample (p := 2) (by decide) (by decide) (· == [true, false])
  refine ⟨by decide, ⟨a, ha, (hevery _).2 (by decide), fun h => ?_⟩,
    ⟨b, hb, (hsome _).2 (by decide), fun h => ?_⟩⟩
  · exact absurd ((hevery _).1 h) (by decide)
  · exact absurd ((hsome _).1 h) (by decide)

end CipherMonitor.Automaton
