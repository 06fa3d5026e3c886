import CipherMonitor.Bridge.Conversion
import CipherMonitor.Config.Format
import CipherMonitor.Proofs.Ckks.Levels
import CipherMonitor.Proofs.Gadget.Decomposition

/-!
# What an accepted configuration can be used for

A configuration that is read from a text has levels, but neither the sum of its chain nor its boolean
parameters are looked at: moduli, bridge and gadgets check for themselves what they are made of.

* `Gadget.exists_make_iff`, `Fourier.exists_make_iff`, `SchemeBridge.exists_make_iff` — when gadgets,
  tables and bridges exist.
* `SchemeBridge.make_of_not_degree` — why others do not.
* `MonitorConfig.read_eq_ok_iff` — the configurations that are read.
* `MonitorConfig.usable_of_read` — what they can be used for.
-/

namespace CipherMonitor

/-! ### Gadgets and bridges -/

theorem Gadget.exists_make_iff {base2k rows : ℕ} :
    (∃ g, Gadget.make base2k rows = .ok g) ↔ 1 ≤ base2k ∧ base2k * rows ≤ 64 := by
  simp only [Gadget.make_eq_ok_iff, exists_and_left, exists_eq', and_true]

/-- There are tables for powers of two for which there is room. -/
theorem Fourier.exists_make_iff {n : ℕ} :
    (∃ t, Fourier.make n = .ok t) ↔ (n.isPowerOfTwo ∧ 2 ≤ n) ∧ n < 2 ^ 61 := by
  have hroom : n.isPowerOfTwo ∧ 2 ≤ n → (n / 2 * 8 < 2 ^ 63 ↔ n < 2 ^ 61) := fun _ => by omega
  rw [← and_congr_right hroom]
  simp only [Fourier.make, Outcome.bind_eq_ok_iff, require_eq_ok_iff, reserve_eq_ok_iff,
    Outcome.pure_eq_ok_iff, exists_const, exists_and_left, exists_eq', and_true]

theorem Fourier.make_of_not_degree {n : ℕ} (h : ¬ (n.isPowerOfTwo ∧ 2 ≤ n)) :
    Fourier.make n = .error (.breach (.ringDegree n)) := by
  rw [Fourier.make, require, if_neg h]
  rfl

section

variable {ckks : Ckks.Parameters} {tfhe : Tfhe.Parameters} {config : BridgeConfig}

theorem SchemeBridge.exists_make_iff :
    (∃ b, SchemeBridge.make ckks tfhe config = .ok b) ↔
      (tfhe.midDegree.isPowerOfTwo ∧ 2 ≤ tfhe.midDegree) ∧ tfhe.midDegree < 2 ^ 61 := by
  rw [← Fourier.exists_make_iff]
  simp only [SchemeBridge.make, Outcome.bind_eq_ok_iff, Outcome.pure_eq_ok_iff]
  exact ⟨fun ⟨_, t, ht, _⟩ => ⟨t, ht⟩, fun ⟨t, ht⟩ => ⟨_, t, ht, rfl⟩⟩

theorem SchemeBridge.make_of_not_degree
    (h : ¬ (tfhe.midDegree.isPowerOfTwo ∧ 2 ≤ tfhe.midDegree)) :
    SchemeBridge.make ckks tfhe config = .error (.breach (.ringDegree tfhe.midDegree)) := by
  rw [SchemeBridge.make, Fourier.make_of_not_degree h]
  rfl

end

/-- The gadgets of all keys. -/
def Tfhe.Parameters.gadgets (p : Tfhe.Parameters) : List GadgetParameters :=
  [p.blindRotation, p.circuitBootstrapping, p.coarseToMid, p.midToFine, p.privateSwitch]

namespace MonitorConfig

variable {text : List Char} {c : MonitorConfig}

/-! ### Texts -/

theorem read_eq_ok_iff : read text = .ok c ↔ parse? text = some c ∧ c.validate = .ok () := by
  unfold read
  cases hparse : parse? text with
  | none => simp
  | some d =>
    simp only [Outcome.bind_eq_ok_iff, Outcome.pure_eq_ok_iff, Option.some.injEq]
    constructor
    · rintro ⟨_, hvalid, rfl⟩
      exact ⟨rfl, hvalid⟩
    · rintro ⟨rfl, hvalid⟩
      exact ⟨(), hvalid, rfl⟩

/-- The parameters of the approximate scheme in a valid configuration are valid. -/
theorem validate_ckks (h : c.validate = .ok ()) : c.ckks.validate = .ok () := by
  obtain ⟨_, hckks, -⟩ := Outcome.bind_eq_ok_iff.1 h
  exact hckks

/-- Every text that is read gives a chain with levels.  A modulus whose bits fit 32 bits is computed, and
with those of the whole chain all of them are and the modulus of switching keys.  A bridge is refused for
mid degrees that are no powers of two from two on, and made for those below `2 ^ 61` that are; a gadget
is made exactly for a base with digits that fit 64 bits. -/
theorem usable_of_read (h : read text = .ok c) :
    ∃ levels, c.ckks.levels = .ok levels ∧ 1 ≤ levels ∧
      (∀ level < levels, c.ckks.chainSum (level + 1) < 2 ^ 32 →
        c.ckks.logQ level = .ok (c.ckks.chainSum (level + 1))) ∧
      (c.ckks.modulusBits.sum < 2 ^ 32 → c.ckks.logPQ = .ok c.ckks.modulusBits.sum ∧
        ∀ level < levels, c.ckks.logQ level = .ok (c.ckks.chainSum (level + 1))) ∧
      (¬ (c.tfhe.midDegree.isPowerOfTwo ∧ 2 ≤ c.tfhe.midDegree) →
        SchemeBridge.make c.ckks c.tfhe c.bridge =
          .error (.breach (.ringDegree c.tfhe.midDegree))) ∧
      (c.tfhe.midDegree.isPowerOfTwo → 2 ≤ c.tfhe.midDegree → c.tfhe.midDegree < 2 ^ 61 →
        ∃ b, SchemeBridge.make c.ckks c.tfhe c.bridge = .ok b) ∧
      ∀ p ∈ c.tfhe.gadgets, (∃ g, p.gadget = .ok g) ↔ 1 ≤ p.base2k ∧ p.base2k * p.rows ≤ 64 := by
  obtain ⟨-, hvalid⟩ := read_eq_ok_iff.1 h
  obtain ⟨-, hlength, -⟩ := Ckks.Parameters.of_validate (validate_ckks hvalid)
  have hlevel : ∀ level < c.ckks.modulusBits.length - 1, level + 1 < c.ckks.modulusBits.length :=
    fun level hlevel => by omega
  have hlogQ : ∀ level < c.ckks.modulusBits.length - 1, c.ckks.chainSum (level + 1) < 2 ^ 32 →
      c.ckks.logQ level = .ok (c.ckks.chainSum (level + 1)) := fun level hlt hsum => by
    rw [Ckks.Parameters.logQ_eq_ite (hlevel level hlt), if_pos hsum]
  refine ⟨c.ckks.modulusBits.length - 1,
    Ckks.Parameters.levels_eq_ok_iff.2 ⟨List.length_pos_iff.1 (Nat.zero_lt_of_lt hlength), rfl⟩,
    by omega, hlogQ, fun hsum => ⟨?_, fun level hlt => hlogQ level hlt ?_⟩,
    SchemeBridge.make_of_not_degree,
    fun hpower htwo hroom => SchemeBridge.exists_make_iff.2 ⟨⟨hpower, htwo⟩, hroom⟩,
    fun p _ => Gadget.exists_make_iff⟩
  · rw [Ckks.Parameters.logPQ_eq_ite hlength, if_pos hsum]
  · rw [← Ckks.Parameters.chainSum_length] at hsum
    exact (Ckks.Parameters.chainSum_mono (hlevel level hlt).le).trans_lt hsum

/-! ### Two texts -/

/-- Two moduli, a mid degree of two, and gadgets that fit. -/
def tightText : List Char :=
  "[[2,[60,60],2,0],[2,0,1,0,[4,5],[3,5],[2,8],[2,7],[4,6]],[\"high\",4,8,3],\"online\"]".toList

/-- The configuration of this text. -/
def tight : MonitorConfig where
  ckks := { ringDegree := 2, modulusBits := [60, 60], scale := 2.0, sigma := 0.0 }
  tfhe :=
    { midDegree := 2
      midSigma := 0.0
      fineDimension := 1
      fineSigma := 0.0
      blindRotation := ⟨4, 5⟩
      circuitBootstrapping := ⟨3, 5⟩
      coarseToMid := ⟨2, 8⟩
      midToFine := ⟨2, 7⟩
      privateSwitch := ⟨4, 6⟩ }
  mode := .online

theorem read_tightText : read tightText = .ok tight :=
  read_eq_ok_iff.2 ⟨by decide +kernel, by decide +kernel⟩

theorem usable_of_read_tightText :
    tight.ckks.logQ 0 = .ok 60 ∧ tight.ckks.logPQ = .ok 120 ∧
      (∃ b, SchemeBridge.make tight.ckks tight.tfhe tight.bridge = .ok b) ∧
      ∀ p ∈ tight.tfhe.gadgets, ∃ g, p.gadget = .ok g := by
  obtain ⟨levels, hlevels, hpos, hlogQ, hchain, -, hbridge, hgadgets⟩ :=
    usable_of_read read_tightText
  refine ⟨hlogQ 0 hpos (by decide), (hchain (by decide)).1, hbridge ⟨1, rfl⟩ le_rfl (by decide),
    fun p hp => (hgadgets p hp).2 ?_⟩
  revert p
  decide

/-- A chain that leaves 32 bits, a mid degree of three, a gadget of base one, and one with more digits
than a word has bits. -/
def looseText : List Char :=
  "[[2,[4294967295,1,1],2,0],[3,0,1,0,[0,1],[4,17],[2,8],[2,7],[4,6]],[\"high\",4,8,3],\"online\"]".toList

/-- The configuration of this text. -/
def loose : MonitorConfig where
  ckks := { ringDegree := 2, modulusBits := [4294967295, 1, 1], scale := 2.0, sigma := 0.0 }
  tfhe := { tight.tfhe with
    midDegree := 3, blindRotation := ⟨0, 1⟩, circuitBootstrapping := ⟨4, 17⟩ }
  mode := .online

/-- The text is accepted, but nothing can be made of it. -/
theorem read_looseText :
    read looseText = .ok loose ∧ loose.ckks.levels = .ok 2 ∧
      loose.ckks.logQ 1 = .error (.breach .arithmetic) ∧
      loose.ckks.logPQ = .error (.breach .arithmetic) ∧
      SchemeBridge.make loose.ckks loose.tfhe loose.bridge = .error (.breach (.ringDegree 3)) ∧
      loose.tfhe.blindRotation.gadget = .error (.breach .gadgetBase) ∧
      loose.tfhe.circuitBootstrapping.gadget = .error (.breach (.gadgetWidth 68)) := by
  exact ⟨read_eq_ok_iff.2 ⟨by decide +kernel, by decide +kernel⟩, rfl, rfl, rfl,
    SchemeBridge.make_of_not_degree (by decide), rfl, rfl⟩

end MonitorConfig

end CipherMonitor
