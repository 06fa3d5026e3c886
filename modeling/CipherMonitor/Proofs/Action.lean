import CipherMonitor.Action

/-!
# Operations on a state, step by step

* `Action.perform_bind`, `Action.perform_bind_eq_ok_iff` — two operations one after the other.
* `Action.perform_within`, `Action.perform_within_eq_ok_iff` — an operation on a part of the state.
* `Action.perform_store` — an operation whose result is stored at the end.
* `Action.perform_mapM_cons_eq_ok_iff`, `Action.perform_mapM_cons_of_ok`,
  `Action.perform_mapM_cons_of_error` — an operation on every element of a list.
-/

namespace CipherMonitor.Action

variable {σ τ α β : Type} {state state' : σ}

@[simp] theorem perform_pure (a : α) (state : σ) :
    (pure a : Action σ α).perform state = (.ok a, state) := rfl

@[simp] theorem perform_get (state : σ) : (get : Action σ σ).perform state = (.ok state, state) := rfl

@[simp] theorem perform_set (new state : σ) :
    (set new : Action σ PUnit).perform state = (.ok (), new) := rfl

@[simp] theorem perform_modify (f : σ → σ) (state : σ) :
    (modify f : Action σ PUnit).perform state = (.ok (), f state) := rfl

/-- After a failure nothing else happens. -/
theorem perform_bind (x : Action σ α) (f : α → Action σ β) (state : σ) :
    (x >>= f).perform state =
      match x.perform state with
      | (.ok a, state') => (f a).perform state'
      | (.error e, state') => (.error e, state') := by
  change ExceptT.bindCont f (x.perform state).1 (x.perform state).2 = _
  rcases x.perform state with ⟨a | a, state'⟩ <;> rfl

theorem perform_bind_of_ok {x : Action σ α} {a : α} (h : x.perform state = (.ok a, state'))
    (f : α → Action σ β) : (x >>= f).perform state = (f a).perform state' := by
  rw [perform_bind, h]

theorem perform_bind_eq_ok_iff {x : Action σ α} {f : α → Action σ β} {b : β} :
    (x >>= f).perform state = (.ok b, state') ↔
      ∃ a mid, x.perform state = (.ok a, mid) ∧ (f a).perform mid = (.ok b, state') := by
  rw [perform_bind]
  rcases x.perform state with ⟨e | a, mid⟩
  · simp
  · exact ⟨fun h => ⟨a, mid, rfl, h⟩, by rintro ⟨_, _, ⟨⟩, h⟩; exact h⟩

theorem perform_bind_pure_snd (x : Action σ α) (g : α → β) :
    ((x >>= fun a => pure (g a)).perform state).2 = (x.perform state).2 := by
  rw [perform_bind]
  rcases x.perform state with ⟨e | a, mid⟩ <;> rfl

@[simp] theorem perform_within (part : σ → τ) (update : σ → τ → σ) (action : Action τ α)
    (state : σ) : (within part update action).perform state =
      ((action.perform (part state)).1, update state (action.perform (part state)).2) := rfl

theorem perform_within_of_ok (part : σ → τ) (update : σ → τ → σ) (state : σ) {action : Action τ α}
    {a : α} {part' : τ} (h : action.perform (part state) = (.ok a, part')) :
    (within part update action).perform state = (.ok a, update state part') := by
  rw [perform_within, h]

theorem perform_within_eq_ok_iff {part : σ → τ} {update : σ → τ → σ} {action : Action τ α} {a : α} :
    (within part update action).perform state = (.ok a, state') ↔
      ∃ part', action.perform (part state) = (.ok a, part') ∧ update state part' = state' := by
  rw [perform_within]
  rcases action.perform (part state) with ⟨r, part'⟩
  simp only [Prod.mk.injEq]
  constructor
  · rintro ⟨hr, h⟩
    exact ⟨part', ⟨hr, rfl⟩, h⟩
  · rintro ⟨_, ⟨hr, rfl⟩, h⟩
    exact ⟨hr, h⟩

/-- An operation that fails leaves the state alone. -/
theorem perform_store (operation : σ → Outcome α) (put : σ → α → σ) (state : σ) :
    (store operation put).perform state =
      match operation state with
      | .ok a => (.ok (), put state a)
      | .error e => (.error e, state) := by
  rw [store, perform_bind_of_ok (perform_get _), perform_bind, perform_ofOutcome]
  cases operation state <;> rfl

theorem perform_ofOutcome_eq_ok_iff {outcome : Outcome α} {a : α} :
    (ofOutcome outcome : Action σ α).perform state = (.ok a, state') ↔
      outcome = .ok a ∧ state = state' := by
  rw [perform_ofOutcome, Prod.mk.injEq]

theorem perform_mapM_cons_eq_ok_iff {f : α → Action σ β} {a : α} {l : List α} {bs : List β} :
    ((a :: l).mapM f).perform state = (.ok bs, state') ↔
      ∃ b mid bs', (f a).perform state = (.ok b, mid) ∧
        (l.mapM f).perform mid = (.ok bs', state') ∧ b :: bs' = bs := by
  simp only [List.mapM_cons, perform_bind_eq_ok_iff, perform_pure, Prod.mk.injEq, Except.ok.injEq]
  constructor
  · rintro ⟨b, mid, hb, bs', mid', hbs, rfl, rfl⟩
    exact ⟨b, mid, bs', hb, hbs, rfl⟩
  · rintro ⟨b, mid, bs', hb, hbs, rfl⟩
    exact ⟨b, mid, hb, bs', state', hbs, rfl, rfl⟩

theorem perform_mapM_cons_of_ok {f : α → Action σ β} {a : α} {b : β}
    (h : (f a).perform state = (.ok b, state')) (l : List α) :
    ((a :: l).mapM f).perform state =
      (((l.mapM f).perform state').1.map (b :: ·), ((l.mapM f).perform state').2) := by
  rw [List.mapM_cons, perform_bind_of_ok h, perform_bind]
  rcases (l.mapM f).perform state' with ⟨e | bs, last⟩ <;> rfl

/-- Nothing is done after the first failure. -/
theorem perform_mapM_cons_of_error {f : α → Action σ β} {a : α} {e : Fault}
    (h : (f a).perform state = (.error e, state')) (l : List α) :
    ((a :: l).mapM f).perform state = (.error e, state') := by
  rw [List.mapM_cons, perform_bind, h]

end CipherMonitor.Action
