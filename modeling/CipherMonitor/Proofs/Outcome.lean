import Mathlib.Data.List.Forall2
import Mathlib.Data.List.GetD
import CipherMonitor.Source.Basic

/-!
# Successful operations

When a sequence of operations succeeds, each of them does.

* `forall₂_getD`, `forall₂_range_getD`, `forall₂_exists_of_mem` — related lists have related entries.
* `Outcome.bind_eq_ok_iff`, `Outcome.check_bind_eq_ok_iff` — two operations one after the other.
* `Outcome.mapM_eq_ok_iff`, `Outcome.forM_eq_ok_iff` — an operation on every element of a list.
* `Outcome.mapM_bind_eq_ok_iff`, `Outcome.mapM_flatMap` — two operations on every element, and an
  operation on the elements of many lists.
* `Outcome.exists_mapM_range` — a list built from the numbers of its entries.
* `Draw.bind_eq_ok_iff` — the same for computations that consume a source.
-/

namespace CipherMonitor

variable {α β : Type}

/-- Lists that are related entry by entry, read with a default. -/
theorem forall₂_getD {P : α → β → Prop} {l : List α} {l' : List β} (h : List.Forall₂ P l l')
    {i : ℕ} (hi : i < l.length) (d : α) (d' : β) : P (l.getD i d) (l'.getD i d') := by
  induction h generalizing i with
  | nil => exact absurd hi (Nat.not_lt_zero i)
  | cons hP _ ih =>
    cases i with
    | zero => exact hP
    | succ i => exact ih (Nat.lt_of_succ_lt_succ hi)

/-- Numbers that are related to the entries at their places. -/
theorem forall₂_range_getD {n : ℕ} {P : ℕ → β → Prop} {l : List β}
    (h : List.Forall₂ P (List.range n) l) {i : ℕ} (hi : i < n) (d : β) : P i (l.getD i d) := by
  have hi' : i < (List.range n).length := by simpa using hi
  have := forall₂_getD h hi' i d
  rwa [List.getD_eq_getElem _ _ hi', List.getElem_range] at this

/-- Every element of the first list is related to one of the second. -/
theorem forall₂_exists_of_mem {P : α → β → Prop} {l : List α} {l' : List β} (h : List.Forall₂ P l l')
    {a : α} (ha : a ∈ l) : ∃ b ∈ l', P a b := by
  induction h with
  | nil => cases ha
  | cons hP _ ih =>
    rcases List.mem_cons.1 ha with rfl | ha
    · exact ⟨_, List.mem_cons_self .., hP⟩
    · obtain ⟨b, hb, hP⟩ := ih ha
      exact ⟨b, List.mem_cons_of_mem _ hb, hP⟩

namespace Outcome

@[simp] theorem ok_bind (a : α) (f : α → Outcome β) : ((.ok a : Outcome α) >>= f) = f a := rfl

theorem exists_of_isOk {x : Outcome α} (h : x.isOk = true) : ∃ a, x = .ok a := by
  cases x with
  | error e => cases h
  | ok a => exact ⟨a, rfl⟩

theorem bind_eq_ok_iff {x : Outcome α} {f : α → Outcome β} {b : β} :
    (x >>= f) = .ok b ↔ ∃ a, x = .ok a ∧ f a = .ok b := by
  cases x with
  | error e => simp [bind, Except.bind]
  | ok a => simp [bind, Except.bind]

/-- A check and what follows it. -/
theorem check_bind_eq_ok_iff {x : Outcome Unit} {f : Unit → Outcome β} {b : β} :
    (x >>= f) = .ok b ↔ x = .ok () ∧ f () = .ok b := by
  rw [bind_eq_ok_iff]
  constructor
  · rintro ⟨⟨⟩, hx, hf⟩
    exact ⟨hx, hf⟩
  · rintro ⟨hx, hf⟩
    exact ⟨(), hx, hf⟩

theorem pure_eq_ok_iff {a b : α} : (pure a : Outcome α) = .ok b ↔ a = b := by
  simp [pure, Except.pure]

theorem mapM_eq_ok_iff {f : α → Outcome β} {l : List α} {bs : List β} :
    l.mapM f = .ok bs ↔ List.Forall₂ (fun a b => f a = .ok b) l bs := by
  induction l generalizing bs with
  | nil => rw [List.mapM_nil, pure_eq_ok_iff, List.forall₂_nil_left_iff, eq_comm]
  | cons a l ih =>
    simp only [List.mapM_cons, bind_eq_ok_iff, pure_eq_ok_iff, ih, List.forall₂_cons_left_iff]
    constructor
    · rintro ⟨b, hb, bs', hbs, rfl⟩
      exact ⟨b, bs', hb, hbs, rfl⟩
    · rintro ⟨b, bs', hb, hbs, rfl⟩
      exact ⟨b, hb, bs', hbs, rfl⟩

/-- What fails for the first element fails for the list. -/
theorem mapM_cons_of_error {f : α → Outcome β} {a : α} {fault : Fault} (h : f a = .error fault)
    (l : List α) : (a :: l).mapM f = .error fault := by
  rw [List.mapM_cons, h]
  rfl

theorem mapM_append_eq_ok_iff {f : α → Outcome β} {l l' : List α} {bs : List β} :
    (l ++ l').mapM f = .ok bs ↔
      ∃ first rest, l.mapM f = .ok first ∧ l'.mapM f = .ok rest ∧ first ++ rest = bs := by
  simp only [List.mapM_append, bind_eq_ok_iff, pure_eq_ok_iff]
  exact ⟨fun ⟨first, hfirst, rest, hrest, h⟩ => ⟨first, rest, hfirst, hrest, h⟩,
    fun ⟨first, rest, hfirst, hrest, h⟩ => ⟨first, hfirst, rest, hrest, h⟩⟩

/-- One operation on all elements and then another one on all results succeed with the results of both
operations on each element. -/
theorem mapM_bind_eq_ok_iff {γ : Type} {f : α → Outcome β} {g : β → Outcome γ} {l : List α}
    {cs : List γ} :
    (∃ bs, l.mapM f = .ok bs ∧ bs.mapM g = .ok cs) ↔ (l.mapM fun a => f a >>= g) = .ok cs := by
  simp only [mapM_eq_ok_iff, bind_eq_ok_iff]
  constructor
  · rintro ⟨bs, hf, hg⟩
    induction hf generalizing cs with
    | nil =>
      obtain rfl := List.forall₂_nil_left_iff.1 hg
      exact .nil
    | cons ha _ ih =>
      obtain ⟨c, cs, hc, hcs, rfl⟩ := List.forall₂_cons_left_iff.1 hg
      exact .cons ⟨_, ha, hc⟩ (ih hcs)
  · intro h
    induction h with
    | nil => exact ⟨[], .nil, .nil⟩
    | cons ha _ ih =>
      obtain ⟨b, hb, hc⟩ := ha
      obtain ⟨bs, hbs, hcs⟩ := ih
      exact ⟨b :: bs, .cons hb hbs, .cons hc hcs⟩

/-- An operation on the elements of many lists, list by list. -/
theorem mapM_flatMap {γ : Type} (f : α → List β) (g : β → Outcome γ) (l : List α) :
    (l.flatMap f).mapM g = (l.mapM fun a => (f a).mapM g) >>= fun css => pure css.flatten := by
  induction l with
  | nil => rfl
  | cons a l ih =>
    rw [List.flatMap_cons, List.mapM_append, ih, List.mapM_cons]
    cases (f a).mapM g with
    | error e => rfl
    | ok cs =>
      cases (l.mapM fun a => (f a).mapM g) with
      | error e => rfl
      | ok css => rfl

/-- An operation that succeeds on every element, with a result of some kind, succeeds on the list. -/
theorem exists_mapM {f : α → Outcome β} {P : α → β → Prop} {l : List α}
    (h : ∀ a ∈ l, ∃ b, f a = .ok b ∧ P a b) :
    ∃ bs, l.mapM f = .ok bs ∧ List.Forall₂ P l bs := by
  induction l with
  | nil => exact ⟨[], rfl, .nil⟩
  | cons a l ih =>
    obtain ⟨b, hb, hP⟩ := h a (List.mem_cons_self ..)
    obtain ⟨bs, hbs, hPs⟩ := ih fun c hc => h c (List.mem_cons_of_mem _ hc)
    exact ⟨b :: bs, mapM_eq_ok_iff.2 (.cons hb (mapM_eq_ok_iff.1 hbs)), .cons hP hPs⟩

/-- The same for the numbers below `n`, with the results read by their numbers. -/
theorem exists_mapM_range {n : ℕ} {f : ℕ → Outcome β} {P : ℕ → β → Prop}
    (h : ∀ q < n, ∃ b, f q = .ok b ∧ P q b) :
    ∃ bs, (List.range n).mapM f = .ok bs ∧ bs.length = n ∧ ∀ q < n, ∀ d, P q (bs.getD q d) := by
  obtain ⟨bs, hbs, hP⟩ := exists_mapM fun q hq => h q (List.mem_range.1 hq)
  exact ⟨bs, hbs, by rw [← hP.length_eq, List.length_range], fun q hq d => forall₂_range_getD hP hq d⟩

theorem forM_eq_ok_iff {f : α → Outcome PUnit} {l : List α} :
    l.forM f = .ok () ↔ ∀ a ∈ l, f a = .ok () := by
  induction l with
  | nil => exact ⟨fun _ _ h => absurd h List.not_mem_nil, fun _ => rfl⟩
  | cons a l ih =>
    change (f a >>= fun _ => l.forM f) = .ok () ↔ _
    rw [bind_eq_ok_iff, List.forall_mem_cons, ← ih]
    exact ⟨fun ⟨_, ha, hl⟩ => ⟨ha, hl⟩, fun ⟨ha, hl⟩ => ⟨(), ha, hl⟩⟩

end Outcome

namespace Draw

variable {s s' : Source}

theorem bind_eq_ok_iff {x : Draw α} {f : α → Draw β} {b : β} :
    (x >>= f).run s = .ok (b, s') ↔
      ∃ a t, x.run s = .ok (a, t) ∧ (f a).run t = .ok (b, s') := by
  rw [StateT.run_bind, Outcome.bind_eq_ok_iff]
  simp

theorem pure_eq_ok_iff {a b : α} : (pure a : Draw α).run s = .ok (b, s') ↔ a = b ∧ s = s' := by
  rw [StateT.run_pure, Outcome.pure_eq_ok_iff, Prod.mk.injEq]

end Draw

end CipherMonitor
