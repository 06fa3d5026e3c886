import Mathlib.Algebra.BigOperators.Fin
import CipherMonitor.Ckks.Ciphertext
import CipherMonitor.Proofs.Outcome
import CipherMonitor.Proofs.Poly.Residue

/-!
# Phases as elements of a ring

The phase polynomial of a ciphertext represents the value of its polynomials at the secret, in the
ring of negacyclic polynomials modulo the modulus of the ciphertext.

* `Ckks.Secret.residue` — the secret as an element of the ring.
* `Ckks.atSecret`, `Ckks.Ciphertext.value` — `c 0 + c 1 * s + c 2 * s ^ 2 + …` in the ring.
* `Ckks.Ciphertext.IsReduced` — what ciphertexts on a level look like.
* `Ckks.Ciphertext.DecryptsTo` — decryption succeeds, with a reduced polynomial of a given value.
* `Ckks.Ciphertext.decryptsTo_value` — every ciphertext decrypts to its value.
-/

namespace CipherMonitor.Ckks

open CipherMonitor.Poly

/-- The secret as an element of the ring. -/
noncomputable def Secret.residue (s : Secret) (logQ : ℕ) : NegacyclicRing s.degree logQ :=
  s.toPoly.residue s.degree logQ

/-- `p 0 + p 1 * s + p 2 * s ^ 2 + …` in the ring. -/
noncomputable def atSecret (s : Secret) (logQ : ℕ) (ps : List (Poly ℤ)) :
    NegacyclicRing s.degree logQ :=
  ∑ i : Fin ps.length, ps[i].residue s.degree logQ * s.residue logQ ^ (i : ℕ)

section

variable {s : Secret} {logQ : ℕ}

@[simp] theorem atSecret_nil : atSecret s logQ [] = 0 := rfl

@[simp] theorem atSecret_cons (p : Poly ℤ) (ps : List (Poly ℤ)) :
    atSecret s logQ (p :: ps) =
      p.residue s.degree logQ + atSecret s logQ ps * s.residue logQ := by
  calc atSecret s logQ (p :: ps)
      = ∑ i : Fin (ps.length + 1), (p :: ps)[i].residue s.degree logQ * s.residue logQ ^ (i : ℕ) :=
        rfl
    _ = p.residue s.degree logQ + ∑ i : Fin ps.length,
          ps[i].residue s.degree logQ * s.residue logQ ^ (i : ℕ) * s.residue logQ := by
        rw [Fin.sum_univ_succ]
        simp [pow_succ, mul_assoc]
    _ = p.residue s.degree logQ + atSecret s logQ ps * s.residue logQ := by
        rw [atSecret, Finset.sum_mul]

theorem atSecret_append_zeros (ps : List (Poly ℤ)) (count n : ℕ) :
    atSecret s logQ (ps ++ List.replicate count (Poly.zero n)) = atSecret s logQ ps := by
  induction ps with
  | nil =>
    induction count with
    | zero => rfl
    | succ count ih => simpa [List.replicate_succ] using congrArg (· * s.residue logQ) ih
  | cons p ps ih => rw [List.cons_append, atSecret_cons, ih, atSecret_cons]

end

namespace Ciphertext

/-- One to three polynomials, whose coefficients are reduced modulo `2 ^ logQ`. -/
structure IsReduced (n logQ : ℕ) (c : Ciphertext) : Prop where
  logQ_eq : c.logQ = logQ
  size_pos : 1 ≤ c.size
  size_le : c.size ≤ 3
  polys : ∀ p ∈ c.polys, p.IsReduced n logQ

instance (n logQ : ℕ) (c : Ciphertext) : Decidable (c.IsReduced n logQ) :=
  decidable_of_iff (c.logQ = logQ ∧ 1 ≤ c.size ∧ c.size ≤ 3 ∧ ∀ p ∈ c.polys, p.IsReduced n logQ)
    ⟨fun ⟨h1, h2, h3, h4⟩ => ⟨h1, h2, h3, h4⟩, fun ⟨h1, h2, h3, h4⟩ => ⟨h1, h2, h3, h4⟩⟩

/-- The value of the polynomials at the secret. -/
noncomputable def value (s : Secret) (logQ : ℕ) (c : Ciphertext) : NegacyclicRing s.degree logQ :=
  atSecret s logQ c.polys

/-- Decryption gives a reduced polynomial that represents `v`. -/
def DecryptsTo (s : Secret) (logQ : ℕ) (c : Ciphertext) (v : NegacyclicRing s.degree logQ) : Prop :=
  ∃ t, c.decrypt s = .ok t ∧ t.poly.IsReduced s.degree logQ ∧ t.poly.residue s.degree logQ = v

variable {s : Secret} {logQ : ℕ}

theorem isReduced_evalAt {ps : List (Poly ℤ)} (hne : ps ≠ [])
    (h : ∀ p ∈ ps, p.IsReduced s.degree logQ) : (evalAt s logQ ps).IsReduced s.degree logQ := by
  induction ps with
  | nil => exact absurd rfl hne
  | cons p ps ih =>
    cases ps with
    | nil => exact h p (List.mem_singleton.2 rfl)
    | cons q ps =>
      have hp := (h p (List.mem_cons_self ..)).size_eq
      have hq := (ih (by simp) fun r hr => h r (List.mem_cons_of_mem _ hr)).size_eq
      exact isReduced_reduce (by simp [mulSmallMod, hp, hq])

/-- Evaluation from the last polynomial down gives the value at the secret. -/
theorem residue_evalAt {ps : List (Poly ℤ)} (hne : ps ≠ [])
    (h : ∀ p ∈ ps, p.IsReduced s.degree logQ) :
    (evalAt s logQ ps).residue s.degree logQ = atSecret s logQ ps := by
  induction ps with
  | nil => exact absurd rfl hne
  | cons p ps ih =>
    cases ps with
    | nil => simp [evalAt]
    | cons q ps =>
      have hmem : ∀ r ∈ q :: ps, r.IsReduced s.degree logQ := fun r hr =>
        h r (List.mem_cons_of_mem _ hr)
      have hp := (h p (List.mem_cons_self ..)).size_eq
      have hq := (isReduced_evalAt (List.cons_ne_nil q ps) hmem).size_eq
      rw [evalAt, residue_addMod hp (by simp [mulSmallMod, hq]), residue_mulSmallMod hq rfl,
        ih (List.cons_ne_nil q ps) hmem, atSecret_cons p]
      rfl

theorem decryptsTo_of_polys {c : Ciphertext} (hq : c.logQ = logQ) (hne : c.polys ≠ [])
    (h : ∀ p ∈ c.polys, p.IsReduced s.degree logQ) :
    c.DecryptsTo s logQ (atSecret s logQ c.polys) := by
  subst hq
  have hdegree : c.size = 1 ∨ c.degree = s.degree := by
    cases hc : c.polys with
    | nil => exact absurd hc hne
    | cons p ps =>
      have hp := (h p (by simp [hc])).size_eq
      exact Or.inr (by rw [degree, hc]; exact hp)
  refine ⟨{ poly := c.phase s, level := c.level, logQ := c.logQ, scale := c.scale }, ?_,
    isReduced_evalAt hne h, residue_evalAt hne h⟩
  rw [decrypt, require_of hne, require_of hdegree]
  rfl

theorem IsReduced.ne_nil {n : ℕ} {c : Ciphertext} (h : c.IsReduced n logQ) : c.polys ≠ [] := by
  intro hc
  have := h.size_pos
  simp [size, hc] at this

/-- Every ciphertext decrypts to its value. -/
theorem decryptsTo_value {c : Ciphertext} (h : c.IsReduced s.degree logQ) :
    c.DecryptsTo s logQ (c.value s logQ) := decryptsTo_of_polys h.logQ_eq h.ne_nil h.polys

end Ciphertext

end CipherMonitor.Ckks
