import CipherMonitor.Poly.Modular
import CipherMonitor.Proofs.Binary64.Scaling
import CipherMonitor.Proofs.Outcome
import CipherMonitor.Proofs.Poly.Residue

/-!
# Sampling fails only by giving up

The samplers have no precondition that a word of the source could break.  The only thing that can go
wrong is that a rejection sampler finds nothing among as many attempts as it makes.

* `Outcome.Yields`, `Draw.Yields` — nothing goes wrong except that, and what is given has a property.
* `Draw.Yields.bind`, `Draw.Yields.mapM`, `Draw.Yields.drawUntil` — the closure of this under the
  constructions that samplers are made of.
* `Draw.Yields.bind_congr`, `Draw.require_bind_congr` — what follows only matters where it is reached.
* `Draw.Total`, `Draw.total_torus` — draws that do not even give up.
* `noise_eq_ok` — noise of every finite deviation that is not negative can be cut off.
* `BoundedNormal.yields_sample`, `Poly.yields_uniformMod`, `Poly.yields_addRoundedNoise` — the
  samplers.
-/

namespace CipherMonitor

variable {α β : Type} {P : α → Prop} {Q : β → Prop}

namespace Outcome

variable {x : Outcome α}

/-- What is given has the property, or a sampler has given up. -/
def Yields (x : Outcome α) (P : α → Prop) : Prop :=
  match x with
  | .ok a => P a
  | .error fault => fault = .breach .rejection

theorem yields_pure {a : α} (h : P a) : Yields (pure a) P := h

theorem yields_require {c : Prop} [Decidable c] (h : c) (b : Breach) :
    (require c b).Yields fun _ => True := by
  rw [require_of h]
  trivial

theorem Yields.of_ok {a : α} (h : x.Yields P) (hx : x = .ok a) : P a := by
  rw [hx] at h
  exact h

theorem Yields.bind {f : α → Outcome β} (hx : x.Yields P)
    (hf : ∀ a, P a → (f a).Yields Q) : (x >>= f).Yields Q := by
  cases x with
  | ok a => exact hf a hx
  | error fault => exact hx

end Outcome

namespace Draw

variable {draw : Draw α}

/-- From every source, what is drawn has the property, or a sampler gives up. -/
def Yields (draw : Draw α) (P : α → Prop) : Prop :=
  ∀ s, Outcome.Yields (draw.run s) fun drawn => P drawn.1

theorem yields_pure {a : α} (h : P a) : Yields (pure a) P := fun _ => h

theorem Yields.mono {P' : α → Prop} (h : draw.Yields P) (hP : ∀ a, P a → P' a) :
    draw.Yields P' := by
  intro s
  have hrun := h s
  cases hs : draw.run s with
  | ok drawn =>
    rw [hs] at hrun
    exact hP _ hrun
  | error fault =>
    rw [hs] at hrun
    exact hrun

theorem Yields.bind {next : α → Draw β} (h : draw.Yields P) (hnext : ∀ a, P a → (next a).Yields Q) :
    (draw >>= next).Yields Q := by
  intro s
  rw [StateT.run_bind]
  exact (h s).bind fun drawn hdrawn => hnext drawn.1 hdrawn drawn.2

/-- The same where nothing needs to be known of the first draw. -/
theorem Yields.next {next : α → Draw β} (h : draw.Yields fun _ => True)
    (hnext : ∀ a, (next a).Yields Q) : (draw >>= next).Yields Q :=
  h.bind fun a _ => hnext a

theorem Yields.map (h : draw.Yields P) {f : α → β} (hf : ∀ a, P a → Q (f a)) :
    (f <$> draw).Yields Q := by
  rw [map_eq_pure_bind]
  exact h.bind fun a ha => yields_pure (hf a ha)

/-- What follows a draw only matters for what can be drawn. -/
theorem Yields.bind_congr {f g : α → Draw β} (h : draw.Yields P) (hfg : ∀ a, P a → f a = g a) :
    draw >>= f = draw >>= g := by
  apply StateT.ext
  intro s
  have hrun := h s
  rw [StateT.run_bind, StateT.run_bind]
  cases hs : draw.run s with
  | ok drawn =>
    rw [hs] at hrun
    rw [Outcome.ok_bind, Outcome.ok_bind, hfg _ hrun]
  | error fault => rfl

/-- A condition that holds needs no check. -/
theorem require_bind {c : Prop} [Decidable c] (h : c) (b : Breach) (next : Unit → Draw α) :
    liftM (require c b) >>= next = next () := by
  rw [require_of h]
  rfl

/-- What follows a check only matters where the condition holds. -/
theorem require_bind_congr {c : Prop} [Decidable c] (b : Breach) {f g : Unit → Draw α}
    (hfg : c → f () = g ()) : liftM (require c b) >>= f = liftM (require c b) >>= g := by
  by_cases hc : c
  · rw [require_bind hc, require_bind hc, hfg hc]
  · unfold require
    rw [if_neg hc]
    rfl

/-- Drawing once for each element of a list. -/
theorem Yields.mapM {f : α → Draw β} {l : List α} (h : ∀ a ∈ l, (f a).Yields Q) :
    (l.mapM f).Yields fun bs => bs.length = l.length ∧ ∀ b ∈ bs, Q b := by
  induction l with
  | nil => exact yields_pure ⟨rfl, by simp⟩
  | cons a l ih =>
    rw [List.mapM_cons]
    refine (h a (List.mem_cons_self ..)).bind fun b hb => ?_
    refine (ih fun c hc => h c (List.mem_cons_of_mem _ hc)).bind fun bs hbs => ?_
    exact yields_pure ⟨congrArg (· + 1) hbs.1, List.forall_mem_cons.2 ⟨hb, hbs.2⟩⟩

theorem Yields.many (h : draw.Yields P) (n : ℕ) :
    (many n draw).Yields fun xs => xs.length = n ∧ ∀ x ∈ xs, P x :=
  (Yields.mapM fun _ _ => h).mono fun _ hxs => ⟨hxs.1.trans List.length_range, hxs.2⟩

theorem many_succ (n : ℕ) (draw : Draw α) : many (n + 1) draw = (do
    let x ← draw
    let xs ← many n draw
    pure (x :: xs)) := by
  rw [many, List.range_succ_eq_map, List.mapM_cons, List.mapM_map]
  rfl

/-- Drawing for each element of a list draws as often as the list is long. -/
theorem mapM_const {γ : Type} (draw : Draw α) (f : α → β) (l : List γ) :
    (l.mapM fun _ => f <$> draw) = List.map f <$> many l.length draw := by
  induction l with
  | nil => rfl
  | cons a l ih =>
    rw [List.mapM_cons, ih, List.length_cons, many_succ]
    simp only [map_eq_pure_bind, bind_assoc, pure_bind, List.map_cons]

/-- Rejection sampling gives what the draw gives, or gives up. -/
theorem Yields.drawUntil (h : draw.Yields P) (accept : α → Bool) (limit : ℕ) :
    (drawUntil draw accept limit).Yields P := by
  induction limit with
  | zero => exact fun _ => rfl
  | succ limit ih =>
    refine h.bind fun a ha => ?_
    split_ifs
    · exact yields_pure ha
    · exact ih

/-! ### Words, bytes and normal numbers -/

theorem yields_word32 : word32.Yields fun _ => True := fun _ => trivial

theorem yields_word64 : word64.Yields fun _ => True :=
  yields_word32.next fun _ => yields_word32.next fun _ => yields_pure trivial

theorem yields_flag : flag.Yields fun _ => True := yields_word64.next fun _ => yields_pure trivial

theorem yields_torus (w : ℕ) : (torus w).Yields fun _ => True := by
  rw [torus]
  split_ifs
  · exact yields_word32.next fun _ => yields_pure trivial
  · exact yields_word64.next fun _ => yields_pure trivial

theorem yields_bytes (n : ℕ) : (bytes n).Yields fun _ => True :=
  (Yields.mapM fun _ _ => yields_word32).bind fun _ _ => yields_pure trivial

theorem yields_openUnit : openUnit.Yields fun _ => True :=
  yields_word64.next fun _ => yields_pure trivial

theorem yields_tailOffset (limit : ℕ) : (tailOffset limit).Yields fun _ => True := by
  refine Yields.next (Yields.drawUntil ?_ _ limit) fun _ => yields_pure trivial
  exact yields_openUnit.next fun _ => yields_openUnit.next fun _ => yields_pure trivial

theorem yields_normalAttempt (limit : ℕ) : (normalAttempt limit).Yields fun _ => True := by
  refine yields_word64.next fun bits => ?_
  dsimp only
  split
  · exact yields_pure trivial
  · split
    · exact (yields_tailOffset limit).next fun _ => yields_pure trivial
    · exact yields_word64.next fun _ => yields_pure trivial

theorem yields_standardNormal (limit : ℕ) : (standardNormal limit).Yields fun _ => True :=
  ((yields_normalAttempt limit).drawUntil _ limit).next fun _ => yields_pure trivial

end Draw

/-! ### Draws that cannot fail -/

namespace Draw

variable {draw : Draw α}

/-- From every source something is drawn. -/
def Total (draw : Draw α) : Prop := ∀ s, ∃ drawn, draw.run s = .ok drawn

theorem total_pure (a : α) : Total (pure a) := fun _ => ⟨_, rfl⟩

theorem Total.bind {next : α → Draw β} (h : draw.Total) (hnext : ∀ a, (next a).Total) :
    (draw >>= next).Total := by
  intro s
  obtain ⟨⟨a, s'⟩, hdraw⟩ := h s
  rw [StateT.run_bind, hdraw]
  exact hnext a s'

theorem Total.mapM {f : α → Draw β} {l : List α} (h : ∀ a, (f a).Total) : (l.mapM f).Total := by
  induction l with
  | nil => exact total_pure []
  | cons a l ih =>
    rw [List.mapM_cons]
    exact (h a).bind fun _ => ih.bind fun _ => total_pure _

theorem Total.many (h : draw.Total) (n : ℕ) : (many n draw).Total := Total.mapM fun _ => h

theorem total_word32 : word32.Total := fun _ => ⟨_, rfl⟩

theorem total_word64 : word64.Total :=
  total_word32.bind fun _ => total_word32.bind fun _ => total_pure _

theorem total_torus (w : ℕ) : (torus w).Total := by
  rw [torus]
  split_ifs
  · exact total_word32.bind fun _ => total_pure _
  · exact total_word64.bind fun _ => total_pure _

end Draw

/-! ### Noise -/

theorem BoundedNormal.yields_sample (d : BoundedNormal) (limit : ℕ) :
    (d.sample limit).Yields fun _ => True :=
  Draw.Yields.drawUntil ((Draw.yields_standardNormal limit).next fun _ => Draw.yields_pure trivial)
    _ limit

/-- The bound of six deviations is no smaller than the deviation, also where it is rounded. -/
theorem noise_eq_ok {sigma : Float} (hfinite : sigma.isFinite) (hsigma : 0.0 ≤ sigma) :
    noise sigma = .ok { sigma, bound := sixSigma * sigma } := by
  have hbound : sixSigma * sigma ≥ sigma :=
    Binary64.le_mul (by decide +kernel) (by decide +kernel) hfinite hsigma
  rw [noise, BoundedNormal.make, require_of hfinite, Outcome.ok_bind, require_of hbound]
  rfl

namespace Poly

theorem yields_uniformMod (n logQ : ℕ) : (uniformMod n logQ).Yields (·.IsReduced n logQ) := by
  have hcoeff : (do
      let bytes ← Draw.bytes (coeffBytes logQ)
      pure (keepBits (Bytes.toNat bytes) logQ) : Draw ℤ).Yields fun c => 0 ≤ c ∧ c < 2 ^ logQ := by
    refine (Draw.yields_bytes _).next fun bytes => Draw.yields_pure ?_
    exact ⟨Int.emod_nonneg _ (by positivity), Int.emod_lt_of_pos _ (by positivity)⟩
  refine (hcoeff.many n).bind fun coeffs hcoeffs => Draw.yields_pure ⟨hcoeffs.1, fun i hi => ?_⟩
  have hlt : i < coeffs.length := hcoeffs.1.symm ▸ hi
  rw [coeff_of_lt hlt]
  exact hcoeffs.2 _ (List.getElem_mem hlt)

theorem yields_addRoundedNoise (p : Poly ℤ) (d : BoundedNormal) :
    (p.addRoundedNoise d).Yields fun q => q.size = p.size := by
  have hcoeff : ∀ c ∈ p.coeffs.toList, (do
      let e ← d.sample
      pure (c + roundedNoise e) : Draw ℤ).Yields fun _ => True :=
    fun c _ => (d.yields_sample _).next fun _ => Draw.yields_pure trivial
  rw [addRoundedNoise, Array.mapM_eq_mapM_toList]
  refine Draw.Yields.bind (P := fun coeffs => coeffs.size = p.size) ?_
    fun coeffs hcoeffs => Draw.yields_pure hcoeffs
  exact (Draw.Yields.mapM hcoeff).map fun coeffs hcoeffs => hcoeffs.1

end Poly

end CipherMonitor
