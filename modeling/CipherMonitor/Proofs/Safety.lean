import CipherMonitor.Proofs.Outcome

/-!
# Operations that keep all preconditions

An operation may fail with an error that its caller handles, but it may not break a precondition of
what it calls.

* `Outcome.Meets` — no precondition is broken, and what is given has a property.
* `Outcome.Meets.bind`, `Outcome.Meets.mapM`, `Outcome.Meets.forM` — operations one after the other,
  and an operation on every element of a list.
-/

namespace CipherMonitor.Outcome

variable {α β : Type} {P Q : α → Prop} {R : β → Prop} {x : Outcome α} {a : α}

/-- The operation breaks no precondition, and what it gives has the property. -/
def Meets (x : Outcome α) (P : α → Prop) : Prop :=
  match x with
  | .ok a => P a
  | .error (.breach _) => False
  | .error _ => True

theorem meets_ok (h : P a) : Meets (.ok a) P := h

theorem meets_pure (h : P a) : Meets (pure a) P := h

theorem meets_ckks (e : CkksError) (P : α → Prop) : Meets (.error (.ckks e)) P := trivial

theorem meets_monitor (e : MonitorError) (P : α → Prop) : Meets (.error (.monitor e)) P := trivial

theorem meets_require {c : Prop} [Decidable c] (h : c) (b : Breach) :
    (require c b).Meets fun _ => True := by
  rw [require_of h]
  trivial

theorem Meets.of_ok (h : x.Meets P) (hx : x = .ok a) : P a := by
  rw [hx] at h
  exact h

theorem Meets.ne_breach (h : x.Meets P) (b : Breach) : x ≠ .error (.breach b) := by
  rintro rfl
  exact h

theorem Meets.mono (h : x.Meets P) (hPQ : ∀ a, P a → Q a) : x.Meets Q := by
  unfold Meets at h ⊢
  split
  · exact hPQ _ h
  · exact h
  · trivial

/-- The result is what the operation gave. -/
theorem Meets.with_eq (h : x.Meets P) : x.Meets fun a => P a ∧ x = .ok a := by
  cases x with
  | ok a => exact ⟨h, rfl⟩
  | error fault => cases fault <;> exact h

/-- What the first operation gives is what the second one starts from. -/
theorem Meets.bind {f : α → Outcome β} (hx : x.Meets P) (hf : ∀ a, P a → (f a).Meets R) :
    (x >>= f).Meets R := by
  cases x with
  | ok a => exact hf a hx
  | error fault =>
    cases fault with
    | breach b => exact hx.elim
    | _ => trivial

theorem Meets.mapM {f : α → Outcome β} {l : List α} (hf : ∀ a ∈ l, (f a).Meets R) :
    (l.mapM f).Meets fun bs => ∀ b ∈ bs, R b := by
  induction l with
  | nil => exact meets_pure (by simp)
  | cons a l ih =>
    rw [List.mapM_cons]
    refine (hf a (List.mem_cons_self ..)).bind fun b hb => ?_
    refine (ih fun c hc => hf c (List.mem_cons_of_mem _ hc)).bind fun bs hbs => ?_
    exact meets_pure (List.forall_mem_cons.2 ⟨hb, hbs⟩)

theorem Meets.forM {f : α → Outcome PUnit} {l : List α}
    (hf : ∀ a ∈ l, (f a).Meets fun _ => Q a) : (l.forM f).Meets fun _ => ∀ a ∈ l, Q a := by
  induction l with
  | nil => exact meets_pure (by simp)
  | cons a l ih =>
    show (f a >>= fun _ => l.forM f).Meets _
    refine (hf a (List.mem_cons_self ..)).bind fun _ ha => ?_
    refine (ih fun c hc => hf c (List.mem_cons_of_mem _ hc)).mono fun _ hl => ?_
    exact List.forall_mem_cons.2 ⟨ha, hl⟩

end CipherMonitor.Outcome
