import CipherMonitor.Proofs.Action

/-!
# Histories

A history is a sequence of operations on one state.  Some of them may fail: what they stored before
stays stored, and the next operation starts from there.

* `Action.after`, `Action.answers` — the state after a history, and the answers along it.
* `Action.successes`, `Action.accepted` — the results of the operations that succeeded, and what
  they were applied to.
* `Action.accepted_append`, `Action.accepted_concat_of_ok`, `Action.accepted_concat_of_error` — what
  one more operation adds to them.
* `Action.repeated`, `Action.foreverAfter` — the answers of one operation that is performed again and
  again, and answers of which the last one is given for ever.
* `Action.after_induction` — what every operation preserves holds after a history.
* `Action.after_accepted` — operations that change nothing when they fail can be left out.
-/

namespace CipherMonitor.Action

variable {σ α β : Type} {f : α → Action σ β} {state : σ}

/-- The state after a history. -/
def after (f : α → Action σ β) (state : σ) (history : List α) : σ :=
  history.foldl (fun state a => ((f a).perform state).2) state

/-- The answers along a history. -/
def answers (f : α → Action σ β) : σ → List α → List (Outcome β)
  | _, [] => []
  | state, a :: rest => ((f a).perform state).1 :: answers f ((f a).perform state).2 rest

/-- The results among the answers. -/
def successes (answers : List (Outcome β)) : List β := answers.filterMap Except.toOption

/-- The part of a history whose operations succeed. -/
def accepted (f : α → Action σ β) : σ → List α → List α
  | _, [] => []
  | state, a :: rest =>
    match (f a).perform state with
    | (.ok _, next) => a :: accepted f next rest
    | (.error _, next) => accepted f next rest

/-- The answers of an operation that is performed a number of times. -/
def repeated (operation : Action σ β) (state : σ) (times : Nat) : List (Outcome β) :=
  answers (fun _ : Unit => operation) state (List.replicate times ())

@[simp] theorem repeated_zero (operation : Action σ β) (state : σ) :
    repeated operation state 0 = [] := rfl

theorem repeated_succ (operation : Action σ β) (state : σ) (times : Nat) :
    repeated operation state (times + 1) =
      (operation.perform state).1 :: repeated operation (operation.perform state).2 times := rfl

/-- The first answers of an operation that gives some answers and then the same one for ever. -/
def foreverAfter (answers : List (Outcome β)) (last : Outcome β) (times : Nat) : List (Outcome β) :=
  (answers ++ List.replicate times last).take times

@[simp] theorem foreverAfter_zero (answers : List (Outcome β)) (last : Outcome β) :
    foreverAfter answers last 0 = [] := List.take_zero ..

@[simp] theorem foreverAfter_nil (last : Outcome β) (times : Nat) :
    foreverAfter [] last times = List.replicate times last := by
  rw [foreverAfter, List.nil_append, List.take_of_length_le (by simp)]

theorem foreverAfter_cons (answer : Outcome β) (answers : List (Outcome β)) (last : Outcome β)
    (times : Nat) :
    foreverAfter (answer :: answers) last (times + 1) =
      answer :: foreverAfter answers last times := by
  unfold foreverAfter
  -- The last of the equal answers is not asked for.
  rw [List.replicate_succ', List.cons_append, List.take_succ_cons, ← List.append_assoc,
    List.take_append_of_le_length (by simp)]

/-- An operation that answers the same from a state and stays there. -/
theorem repeated_of_forever {operation : Action σ β} {P : σ → Prop} {last : Outcome β}
    (h : ∀ state, P state → ∃ next, P next ∧ operation.perform state = (last, next))
    (hstate : P state) (times : Nat) :
    repeated operation state times = List.replicate times last := by
  induction times generalizing state with
  | zero => rfl
  | succ times ih =>
    obtain ⟨next, hnext, hperform⟩ := h state hstate
    rw [repeated_succ, hperform, ih hnext, List.replicate_succ]

@[simp] theorem after_cons (a : α) (rest : List α) :
    after f state (a :: rest) = after f ((f a).perform state).2 rest := rfl

theorem after_concat (history : List α) (a : α) :
    after f state (history ++ [a]) = ((f a).perform (after f state history)).2 := by
  rw [after, List.foldl_append]
  rfl

theorem answers_concat (history : List α) (a : α) :
    answers f state (history ++ [a]) =
      answers f state history ++ [((f a).perform (after f state history)).1] := by
  induction history generalizing state with
  | nil => rfl
  | cons first history ih =>
    rw [List.cons_append, answers, ih, answers, after_cons, List.cons_append]

theorem accepted_append (history more : List α) :
    accepted f state (history ++ more) =
      accepted f state history ++ accepted f (after f state history) more := by
  induction history generalizing state with
  | nil => rfl
  | cons a history ih =>
    rw [List.cons_append, accepted, accepted, after_cons]
    rcases (f a).perform state with ⟨fault | b, next⟩
    · exact ih
    · exact congrArg (a :: ·) ih

theorem accepted_concat_of_ok {history : List α} {a : α} {b : β} {next : σ}
    (h : (f a).perform (after f state history) = (.ok b, next)) :
    accepted f state (history ++ [a]) = accepted f state history ++ [a] := by
  rw [accepted_append]
  simp [accepted, h]

theorem accepted_concat_of_error {history : List α} {a : α} {fault : Fault} {next : σ}
    (h : (f a).perform (after f state history) = (.error fault, next)) :
    accepted f state (history ++ [a]) = accepted f state history := by
  rw [accepted_append]
  simp [accepted, h]

theorem successes_append (before after : List (Outcome β)) :
    successes (before ++ after) = successes before ++ successes after := List.filterMap_append

/-- What every operation preserves. -/
theorem after_induction {P : σ → Prop} (hstep : ∀ state a, P state → P ((f a).perform state).2)
    (h : P state) (history : List α) : P (after f state history) := by
  induction history generalizing state with
  | nil => exact h
  | cons a rest ih => exact ih (hstep state a h)

/-- Where a failing operation changes nothing, the operations that succeed lead to the same state
and give the same results without the others. -/
theorem after_accepted {P : σ → Prop} (hstep : ∀ state a, P state → P ((f a).perform state).2)
    (hfail : ∀ state a fault state', P state → (f a).perform state = (.error fault, state') →
      state' = state) (h : P state) (history : List α) :
    after f state (accepted f state history) = after f state history ∧
      answers f state (accepted f state history) =
        (successes (answers f state history)).map .ok := by
  induction history generalizing state with
  | nil => exact ⟨rfl, rfl⟩
  | cons a rest ih =>
    obtain ⟨hafter, hanswers⟩ := ih (hstep state a h)
    rcases hperform : (f a).perform state with ⟨fault | b, next⟩
    · obtain rfl := hfail state a fault next h hperform
      rw [hperform] at hafter hanswers
      simp only [accepted, after_cons, answers, hperform]
      exact ⟨hafter, hanswers⟩
    · rw [hperform] at hafter hanswers
      simp only [accepted, after_cons, answers, hperform]
      exact ⟨hafter, congrArg (.ok b :: ·) hanswers⟩

end CipherMonitor.Action
