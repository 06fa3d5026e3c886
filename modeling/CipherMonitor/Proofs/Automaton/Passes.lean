import Mathlib
import CipherMonitor.Automaton.Refinement
import CipherMonitor.Proofs.Automaton.Description
import CipherMonitor.Proofs.Automaton.Minimization

/-!
# The passes of a refinement

A pass in the table of all states changes the classes of the given states as `Automaton.refine`
does.  Each pass but the last finds a class more, so there is a last one, and it comes soon.

* `Refinement.foldl_file`, `Refinement.of_pass` — the numbers that a pass writes down.
* `Refinement.Invariant` — what holds after `k` passes.
* `Refinement.Invariant.pass`, `Refinement.invariant_after` — one pass, and all passes.
* `Refinement.Invariant.finished` — no more than one pass for each state, and another one.
* `Refinement.of_after` — the passes end with the classes of the smallest automaton.
* `Refinement.passes_end` — all of these.
-/

namespace CipherMonitor.Refinement

open Automaton

variable {a : Automaton} {qs : List ℕ} {c c' : Classes} {r : Refinement} {k q q' : ℕ}

/-! ### One pass -/

/-- Signatures are filed in the order of the states, under numbers that they keep. -/
theorem foldl_file {found : Numbering (@id Signature)} (h : found.Distinct)
    (numbers : List (ℕ × ℕ)) :
    qs.foldl (file a c) (found, numbers) =
      ((qs.map (a.signature c)).foldl .insert found, numbers ++ qs.map fun q =>
        (q, ((qs.map (a.signature c)).foldl .insert found).number (a.signature c q))) := by
  induction qs generalizing found numbers with
  | nil => simp
  | cons q qs ih =>
    have hkept := (h.insert (a.signature c q)).number_foldl_insert Numbering.knows_insert_self
      (qs.map (a.signature c))
    rw [List.foldl_cons, file, h.enter_eq]
    simp only [ih (h.insert _), List.map_cons, List.foldl_cons, hkept, List.append_assoc,
      List.singleton_append]

/-- A pass writes down the numbers of the signatures. -/
theorem pass_eq (h : r.finished = false) : pass a qs r =
    { classes := qs.foldl (fun c q => c.setIfInBounds q
        ((a.signatures qs r.classes).number (a.signature r.classes q))) r.classes
      count := (a.signatures qs r.classes).size
      finished := (a.signatures qs r.classes).size = r.count } := by
  have hfiled : qs.foldl (file a r.classes) (.empty id, []) = (a.signatures qs r.classes,
      qs.map fun q => (q, (a.signatures qs r.classes).number (a.signature r.classes q))) :=
    foldl_file Numbering.distinct_empty []
  rw [pass, h, if_neg (by decide), hfiled]
  simp only [List.foldl_map]

theorem pass_of_finished (h : r.finished = true) : pass a qs r = r := by rw [pass, if_pos h]

theorem passes_of_finished (h : r.finished = true) (n : ℕ) : passes a qs n r = r := by
  induction n with
  | zero => rfl
  | succ n ih => rw [passes, pass_of_finished h, ih]

theorem passes_add (n m : ℕ) (r : Refinement) :
    passes a qs (n + m) r = passes a qs m (passes a qs n r) := by
  induction n generalizing r with
  | zero => rw [Nat.zero_add, passes]
  | succ n ih => rw [Nat.succ_add, passes, ih, passes]

theorem size_pass (r : Refinement) : (pass a qs r).classes.size = r.classes.size := by
  cases h : r.finished with
  | true => rw [pass_of_finished h]
  | false =>
    rw [pass_eq h]
    exact size_foldl_setIfInBounds _ _ _

/-- The classes of the given states are those of a pass over the table of a function. -/
theorem of_pass (hqs : a.Closed qs) (hsize : r.classes.size = a.numStates)
    (h : r.finished = false) (hq : q ∈ qs) :
    (pass a qs r).classes.of q = (a.refine qs r.classes).of q := by
  rw [pass_eq h, of_refine hqs hq, Classes.of,
    getD_foldl_setIfInBounds _ _ _ _ (hsize ▸ hqs.lt q hq), if_pos hq]

/-- Other states keep their marks. -/
theorem of_pass_of_not_mem (hsize : r.classes.size = a.numStates) (hlt : q < a.numStates)
    (hq : q ∉ qs) : (pass a qs r).classes.of q = r.classes.of q := by
  cases h : r.finished with
  | true => rw [pass_of_finished h]
  | false =>
    rw [pass_eq h, Classes.of, getD_foldl_setIfInBounds _ _ _ _ (hsize ▸ hlt), if_neg hq]
    rfl

/-! ### Tables that agree on the given states -/

section

variable (hqs : a.Closed qs) (hc : ∀ q ∈ qs, c.of q = c'.of q)

include hqs hc

theorem signature_congr (hq : q ∈ qs) : a.signature c q = a.signature c' q := by
  rw [signature, signature, hc q hq, hc _ (hqs.next_mem q hq false), hc _ (hqs.next_mem q hq true)]

theorem signatures_congr : a.signatures qs c = a.signatures qs c' := by
  rw [signatures, signatures, List.map_congr_left fun q hq => signature_congr hqs hc hq]

theorem of_refine_congr (hq : q ∈ qs) : (a.refine qs c).of q = (a.refine qs c').of q := by
  rw [of_refine hqs hq, of_refine hqs hq, signatures_congr hqs hc, signature_congr hqs hc hq]

end

/-! ### All passes -/

/-- What holds after `k` passes. -/
structure Invariant (a : Automaton) (qs : List ℕ) (k : ℕ) (r : Refinement) : Prop where
  size_eq : r.classes.size = a.numStates
  resolves : a.Resolves qs k r.classes
  unclassified : ∀ q < a.numStates, q ∉ qs → r.classes.of q = unclassified
  /-- The classes are all numbers below their count, but no pass has counted those of acceptance. -/
  numbered : (r.count = 0 ∧ r.finished = false) ∨
    (qs.map r.classes.of).toFinset = Finset.range r.count
  /-- Every pass but the last finds a class more. -/
  le_count : r.finished = false → k ≤ r.count
  /-- After the last pass no longer words need to be looked at. -/
  agree : r.finished = true → ∀ q ∈ qs, ∀ q' ∈ qs, a.AgreeUpTo k q q' → a.Agree q q'

theorem invariant_start (hqs : a.Closed qs) : Invariant a qs 0 (start a qs) := by
  have hsize : (start a qs).classes.size = a.numStates :=
    (size_foldl_setIfInBounds _ _ _).trans Array.size_replicate
  have hclass : ∀ q < a.numStates, (start a qs).classes.of q =
      if q ∈ qs then (a.isFinal q).toNat else unclassified := by
    intro q hq
    rw [start, Classes.of, getD_foldl_setIfInBounds _ _ _ _ (by simpa using hq)]
    simp [Array.getD, hq]
  refine ⟨hsize, fun q hq q' hq' => ?_, fun q hq hmem => ?_, .inl ⟨rfl, rfl⟩,
    fun _ => Nat.zero_le _, fun h => by cases h⟩
  · rw [hclass q (hqs.lt q hq), hclass q' (hqs.lt q' hq'), if_pos hq, if_pos hq', agreeUpTo_zero]
    cases a.isFinal q <;> cases a.isFinal q' <;> simp
  · rw [hclass q hq, if_neg hmem]

theorem Invariant.pass_of_finished (h : Invariant a qs k r) (hfinished : r.finished = true) :
    Invariant a qs (k + 1) r := by
  refine ⟨h.size_eq, fun q hq q' hq' => ?_, h.unclassified, h.numbered,
    fun hnot => absurd (hfinished.symm.trans hnot) (by decide), fun _ q hq q' hq' hagree => ?_⟩
  · rw [h.resolves q hq q' hq']
    refine ⟨fun hagree => ?_, fun hagree => hagree.mono (Nat.le_succ k)⟩
    exact fun w _ => h.agree hfinished q hq q' hq' hagree w
  · exact h.agree hfinished q hq q' hq' (hagree.mono (Nat.le_succ k))

/-- Classes that are counted are as many as the count says. -/
theorem count_eq_of_image (h : (qs.map r.classes.of).toFinset = Finset.range r.count) :
    r.classes.count qs = r.count := by rw [Classes.count, h, Finset.card_range]

/-- A pass loses no class. -/
theorem Invariant.count_le (h : Invariant a qs k r) :
    r.count ≤ (a.signatures qs r.classes).size := by
  rcases h.numbered with ⟨hzero, -⟩ | himage
  · omega
  · exact count_eq_of_image himage ▸ count_le_size_signatures

theorem Invariant.pass (h : Invariant a qs k r) (hqs : a.Closed qs) (hne : qs ≠ []) :
    Invariant a qs (k + 1) (pass a qs r) := by
  cases hfinished : r.finished with
  | true =>
    rw [Refinement.pass_of_finished hfinished]
    exact h.pass_of_finished hfinished
  | false =>
    have hclass : ∀ q ∈ qs, (Refinement.pass a qs r).classes.of q = (a.refine qs r.classes).of q :=
      fun q hq => of_pass hqs h.size_eq hfinished hq
    have hcount : (Refinement.pass a qs r).count = (a.signatures qs r.classes).size := by
      rw [pass_eq hfinished]
    have hstop : (Refinement.pass a qs r).finished = true ↔
        (a.signatures qs r.classes).size = r.count := by
      rw [pass_eq hfinished, decide_eq_true_iff]
    have hpos : 0 < (a.signatures qs r.classes).size := by
      obtain ⟨q, hq⟩ := List.exists_mem_of_ne_nil qs hne
      exact Nat.zero_lt_of_lt (Numbering.number_lt (Numbering.knows_ofList (List.mem_map_of_mem hq)))
    refine ⟨(size_pass r).trans h.size_eq, fun q hq q' hq' => ?_, fun q hlt hq => ?_, .inr ?_,
      fun hnot => ?_, fun hlast q hq q' hq' hagree => ?_⟩
    · rw [hclass q hq, hclass q' hq']
      exact h.resolves.refine hqs q hq q' hq'
    · rw [of_pass_of_not_mem h.size_eq hlt hq]
      exact h.unclassified q hlt hq
    · rw [hcount, List.map_congr_left hclass]
      exact image_classes_refine hqs
    · have hnew : (a.signatures qs r.classes).size ≠ r.count := by
        rw [Ne, ← hstop, hnot]
        decide
      have hle := h.count_le
      have hpasses := h.le_count hfinished
      omega
    · have hsame := hstop.1 hlast
      rcases h.numbered with ⟨hzero, -⟩ | himage
      · omega
      · rw [← count_eq_of_image himage] at hsame
        exact agree_of_count_eq hqs h.resolves hsame hq hq' (hagree.mono (Nat.le_succ k))

theorem Invariant.passes (h : Invariant a qs k r) (hqs : a.Closed qs) (hne : qs ≠ []) (n : ℕ) :
    Invariant a qs (k + n) (passes a qs n r) := by
  induction n generalizing k r with
  | zero => exact h
  | succ n ih =>
    rw [Refinement.passes, ← Nat.succ_add_eq_add_succ]
    exact ih (h.pass hqs hne)

/-- There are no more classes than states, so there is a pass that finds no more. -/
theorem Invariant.finished (h : Invariant a qs k r) (hk : qs.length < k) : r.finished = true := by
  by_contra hnot
  rw [Bool.not_eq_true] at hnot
  have hle := h.le_count hnot
  rcases h.numbered with ⟨hzero, -⟩ | himage
  · omega
  · have hfew := r.classes.count_le qs
    rw [count_eq_of_image himage] at hfew
    omega

/-! ### The classes of the smallest automaton -/

/-- Passes over one table, and over the tables of functions, go on and end alike. -/
theorem of_passes (hqs : a.Closed qs) (hsize : r.classes.size = a.numStates)
    (hfinished : r.finished = false) (hc : ∀ q ∈ qs, r.classes.of q = c.of q) (n : ℕ) :
    ∀ q ∈ qs, (passes a qs n r).classes.of q = (a.refineFrom qs n r.count c).of q := by
  induction n generalizing r c with
  | zero => exact hc
  | succ n ih =>
    have hclass : ∀ q ∈ qs, (pass a qs r).classes.of q = (a.refine qs c).of q := fun q hq =>
      (of_pass hqs hsize hfinished hq).trans (of_refine_congr hqs hc hq)
    have hcount : (pass a qs r).count = (a.signatures qs c).size := by
      rw [pass_eq hfinished, signatures_congr hqs hc]
    have hstop : (pass a qs r).finished = decide ((a.signatures qs c).size = r.count) := by
      rw [pass_eq hfinished, signatures_congr hqs hc]
    rw [passes, refineFrom, ← refine]
    split_ifs with hsame
    · rwa [passes_of_finished (hstop.trans (decide_eq_true hsame))]
    · rw [← hcount]
      exact ih ((size_pass r).trans hsize) (hstop.trans (decide_eq_false hsame)) hclass

theorem invariant_after (ha : a.WellFormed) (k : ℕ) : Invariant a a.reachable k (after a k) := by
  have hqs := closed_reachable ha
  have hne : a.reachable ≠ [] := List.ne_nil_of_mem ((mem_reachable ha).2 ⟨[], rfl⟩)
  have hpasses := (invariant_start hqs).passes hqs hne k
  rwa [Nat.zero_add] at hpasses

/-- Passes that are finished have nothing to add. -/
theorem after_eq_of_finished {n m : ℕ} (h : (after a n).finished = true) (hle : n ≤ m) :
    after a m = after a n := by
  obtain ⟨d, rfl⟩ := Nat.exists_eq_add_of_le hle
  rw [after, passes_add]
  exact passes_of_finished h d

/-- The last pass leaves the classes that the smallest automaton is made of. -/
theorem of_after (ha : a.WellFormed) {n : ℕ} (hn : (after a n).finished = true)
    (hle : n ≤ a.reachable.length + 1) (hq : q ∈ a.reachable) :
    a.classes.of q = (after a n).classes.of q := by
  have hqs := closed_reachable ha
  have hstart : ∀ q ∈ a.reachable,
      (start a a.reachable).classes.of q = a.acceptanceClasses.of q := by
    intro q hq
    have hlt := hqs.lt q hq
    rw [start, Classes.of, getD_foldl_setIfInBounds _ _ _ _ (by simpa using hlt), if_pos hq,
      acceptanceClasses, of_tabulate _ hlt]
  rw [← after_eq_of_finished hn hle]
  exact (of_passes hqs (invariant_start hqs).size_eq rfl hstart _ q hq).symm

/-- The refinement of the reachable states: after pass `k` two states are in one class when no word of up
to `k` bits tells them apart; there is a last pass, at most one more than there are states; it leaves the
numbers below its count as classes, and those are the classes of states that no word tells apart. -/
theorem passes_end (ha : a.WellFormed) :
    (a.reachable.Nodup ∧ ∀ q, q ∈ a.reachable ↔ ∃ w, a.run a.initial w = q) ∧
      (∀ k, a.Resolves a.reachable k (after a k).classes ∧
        ∀ q < a.numStates, q ∉ a.reachable → (after a k).classes.of q = unclassified) ∧
      ∃ n ≤ a.reachable.length + 1, (after a n).finished = true ∧
        (∀ k < n, (after a k).finished = false) ∧
        (a.reachable.map (after a n).classes.of).toFinset = Finset.range (after a n).count ∧
        (∀ q ∈ a.reachable, ∀ q' ∈ a.reachable,
          (after a n).classes.of q = (after a n).classes.of q' ↔ a.Agree q q') ∧
        ∀ q ∈ a.reachable, a.classes.of q = (after a n).classes.of q := by
  refine ⟨⟨nodup_reachable ha, fun q => mem_reachable ha⟩,
    fun k => ⟨(invariant_after ha k).resolves, (invariant_after ha k).unclassified⟩, ?_⟩
  have hend : (after a (a.reachable.length + 1)).finished = true :=
    (invariant_after ha _).finished (Nat.lt_succ_self _)
  have hexists : ∃ n, (after a n).finished = true := ⟨_, hend⟩
  have hlast := Nat.find_spec hexists
  have hle : Nat.find hexists ≤ a.reachable.length + 1 := Nat.find_min' hexists hend
  have hinvariant := invariant_after ha (Nat.find hexists)
  refine ⟨Nat.find hexists, hle, hlast, fun k hk => ?_, ?_, fun q hq q' hq' => ?_,
    fun q hq => of_after ha hlast hle hq⟩
  · exact Bool.not_eq_true _ ▸ Nat.find_min hexists hk
  · rcases hinvariant.numbered with ⟨-, hnot⟩ | himage
    · rw [hlast] at hnot
      cases hnot
    · exact himage
  · rw [hinvariant.resolves q hq q' hq']
    exact ⟨hinvariant.agree hlast q hq q' hq', fun hagree w _ => hagree w⟩

/-- The refinement of four states that are reachable, beside one that is not. -/
theorem passes_end_onesModFour :
    onesModFour.WellFormed ∧ onesModFour.reachable = [2, 3, 0, 1] ∧
      ∃ n ≤ 5, (after onesModFour n).finished = true ∧
        (onesModFour.reachable.map (after onesModFour n).classes.of).toFinset =
          Finset.range (after onesModFour n).count ∧
        ((after onesModFour n).classes.of 0 = (after onesModFour n).classes.of 2 ↔
          onesModFour.Agree 0 2) ∧
        (after onesModFour n).classes.of 4 = unclassified := by
  have hreachable : onesModFour.reachable = [2, 3, 0, 1] := by cbv
  obtain ⟨-, hpasses, n, hn, hlast, -, himage, hagree, -⟩ := passes_end wellFormed_onesModFour
  rw [hreachable] at hn hagree
  refine ⟨wellFormed_onesModFour, hreachable, n, hn, hlast, himage,
    hagree 0 (by decide) 2 (by decide), (hpasses n).2 4 (by decide) ?_⟩
  rw [hreachable]
  decide

example : after onesModFour 2 = ⟨#[0, 1, 0, 1, unclassified], 2, true⟩ := by cbv

end CipherMonitor.Refinement
