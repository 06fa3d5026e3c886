import CipherMonitor.Ckks.Relinearization
import CipherMonitor.Ckks.Arithmetic
import CipherMonitor.Proofs.Ckks.Levels

/-!
# Levels, moduli and scales of results

A ciphertext with the modulus of its level is all that moving down the chain asks for.  Linear
operations leave the level, the modulus and the scale of their first operand alone.

* `Ckks.Ciphertext.Beside` — two ciphertexts with one level, modulus and scale.
* `Ckks.Ciphertext.beside_sub`, `beside_withFirst`, `beside_relinearize` — operations that stay there.
* `Ckks.Ciphertext.level_add`, `level_multiply`, `level_rescale`, … — the levels of all results.
* `Ckks.Ciphertext.rescale_eq_ok_iff` — one level down, with the bits and the scale of the level.
* `Ckks.Ciphertext.exists_normalize` — whatever has the modulus of its level is brought to the lowest
  one.
-/

namespace CipherMonitor.Ckks

theorem Parameters.rescaleBits_eq_ok_iff {p : Parameters} {level bits : ℕ} :
    p.rescaleBits level = .ok bits ↔ p.modulusBits[level]? = some bits := by
  unfold rescaleBits
  cases p.modulusBits[level]? <;> simp

/-- What belongs to the parameters has the modulus of its level. -/
theorem Parameters.logQ_of_check {p : Parameters} {c : Ciphertext} (h : p.check c = .ok ()) :
    p.logQ c.level = .ok c.logQ := by
  unfold Parameters.check at h
  dsimp only at h
  split_ifs at h with hdegree
  obtain ⟨levels, -, h⟩ := Outcome.bind_eq_ok_iff.1 h
  split_ifs at h with hlevel
  obtain ⟨expected, hexpected, h⟩ := Outcome.bind_eq_ok_iff.1 h
  split_ifs at h with hlogQ
  rw [hexpected, not_not.1 hlogQ]

namespace Ciphertext

variable {p : Parameters} {a b c r : Ciphertext} {t : Plaintext}

/-- The second ciphertext has the level, the modulus and the scale of the first one. -/
structure Beside (a r : Ciphertext) : Prop where
  level_eq : r.level = a.level
  logQ_eq : r.logQ = a.logQ
  scale_eq : r.scale = a.scale

theorem Beside.refl (a : Ciphertext) : a.Beside a := ⟨rfl, rfl, rfl⟩

theorem Beside.trans (hab : a.Beside b) (hbc : b.Beside c) : a.Beside c :=
  ⟨hbc.level_eq.trans hab.level_eq, hbc.logQ_eq.trans hab.logQ_eq, hbc.scale_eq.trans hab.scale_eq⟩

theorem Beside.logQ (h : a.Beside r) (ha : p.logQ a.level = .ok a.logQ) :
    p.logQ r.level = .ok r.logQ := by
  rw [h.level_eq, h.logQ_eq, ha]

theorem beside_negate (a : Ciphertext) : a.Beside a.negate := ⟨rfl, rfl, rfl⟩

theorem beside_sub (h : a.sub b = .ok r) : a.Beside r := by
  obtain ⟨-, -, h⟩ := Outcome.bind_eq_ok_iff.1 h
  obtain ⟨-, -, h⟩ := Outcome.bind_eq_ok_iff.1 h
  obtain rfl := Outcome.pure_eq_ok_iff.1 h
  exact ⟨rfl, rfl, rfl⟩

theorem beside_withFirst {f : Poly ℤ → Poly ℤ → ℕ → Poly ℤ} (h : withFirst f a t = .ok r) :
    a.Beside r := by
  obtain ⟨-, -, h⟩ := Outcome.bind_eq_ok_iff.1 h
  split at h
  case h_1 => cases h
  case h_2 =>
    obtain ⟨-, -, h⟩ := Outcome.bind_eq_ok_iff.1 h
    obtain rfl := Outcome.pure_eq_ok_iff.1 h
    exact ⟨rfl, rfl, rfl⟩

theorem beside_relinearize {k : RelinearizationKey} (h : a.relinearize k = .ok r) : a.Beside r := by
  unfold relinearize at h
  split at h
  case h_1 =>
    obtain ⟨-, -, h⟩ := Outcome.bind_eq_ok_iff.1 h
    obtain ⟨-, -, h⟩ := Outcome.bind_eq_ok_iff.1 h
    dsimp only at h
    split_ifs at h
    obtain ⟨-, -, h⟩ := Outcome.bind_eq_ok_iff.1 h
    obtain rfl := Outcome.pure_eq_ok_iff.1 h
    exact ⟨rfl, rfl, rfl⟩
  case h_2 => cases h

/-! ### Levels of results -/

theorem level_add (hlevel : a.level = b.level) (h : a.add b = .ok r) : r.level = a.level := by
  obtain ⟨-, -, h⟩ := Outcome.bind_eq_ok_iff.1 h
  obtain ⟨-, -, h⟩ := Outcome.bind_eq_ok_iff.1 h
  split_ifs at h
  · obtain rfl := Outcome.pure_eq_ok_iff.1 h
    rfl
  · obtain rfl := Outcome.pure_eq_ok_iff.1 h
    exact hlevel.symm

theorem level_sub (h : a.sub b = .ok r) : r.level = a.level := (beside_sub h).level_eq

theorem level_withFirst {f : Poly ℤ → Poly ℤ → ℕ → Poly ℤ} (h : withFirst f a t = .ok r) :
    r.level = a.level := (beside_withFirst h).level_eq

theorem level_multiply (h : a.multiply b = .ok r) : r.level = a.level := by
  unfold multiply at h
  split_ifs at h
  split at h
  case h_1 =>
    obtain ⟨-, -, h⟩ := Outcome.bind_eq_ok_iff.1 h
    obtain rfl := Outcome.pure_eq_ok_iff.1 h
    rfl
  case h_2 => cases h
  case h_3 => cases h

theorem level_square (h : a.square = .ok r) : r.level = a.level := by
  unfold square at h
  split at h
  case h_1 =>
    cases h
    rfl
  case h_2 => cases h

theorem level_multiplyPlain (h : a.multiplyPlain t = .ok r) : r.level = a.level := by
  unfold multiplyPlain at h
  split_ifs at h
  obtain ⟨-, -, h⟩ := Outcome.bind_eq_ok_iff.1 h
  obtain rfl := Outcome.pure_eq_ok_iff.1 h
  rfl

/-! ### Down the chain -/

/-- One level down, the modulus loses the bits of the level and the scale is divided by them. -/
theorem rescale_eq_ok_iff : a.rescale p = .ok r ↔
    a.level ≠ 0 ∧ ∃ bits, p.modulusBits[a.level]? = some bits ∧ bits ≤ a.logQ ∧
      { polys := a.polys.map (·.divRoundMod bits (a.logQ - bits))
        level := a.level - 1
        logQ := a.logQ - bits
        scale := a.scale / powTwo bits } = r := by
  unfold rescale
  by_cases hlevel : a.level = 0
  · simp [hlevel]
  · rw [if_neg hlevel]
    simp only [Outcome.bind_eq_ok_iff, Parameters.rescaleBits_eq_ok_iff, require_eq_ok_iff,
      Outcome.pure_eq_ok_iff, exists_const, ne_eq, hlevel, not_false_eq_true, true_and]

theorem level_rescale (h : a.rescale p = .ok r) : a.level = r.level + 1 := by
  obtain ⟨hlevel, -, -, -, rfl⟩ := rescale_eq_ok_iff.1 h
  exact (Nat.sub_add_cancel (Nat.pos_of_ne_zero hlevel)).symm

/-- Above the lowest level there is always a level to go down to. -/
theorem exists_rescale (ha : p.logQ a.level = .ok a.logQ) (hlevel : a.level ≠ 0) :
    ∃ r, a.rescale p = .ok r ∧ r.level = a.level - 1 ∧ p.logQ r.level = .ok r.logQ := by
  obtain ⟨hlt, hsum, hword⟩ := Parameters.logQ_eq_ok_iff.1 ha
  have hbits := List.getElem?_eq_getElem (Nat.lt_of_succ_lt hlt)
  have hchain := Parameters.chainSum_succ hbits
  refine ⟨_, rescale_eq_ok_iff.2 ⟨hlevel, _, hbits, by omega, rfl⟩, rfl, ?_⟩
  refine Parameters.logQ_eq_ok_iff.2 ⟨by dsimp only; omega, ?_, by dsimp only; omega⟩
  dsimp only
  rw [Nat.sub_add_cancel (Nat.pos_of_ne_zero hlevel)]
  omega

theorem exists_rescaleDown (ha : p.logQ a.level = .ok a.logQ) {steps : ℕ} (hsteps : steps ≤ a.level) :
    ∃ r, rescaleDown p steps a = .ok r ∧ p.logQ r.level = .ok r.logQ := by
  induction steps generalizing a with
  | zero => exact ⟨a, rfl, ha⟩
  | succ steps ih =>
    unfold rescaleDown
    split_ifs with hscale
    · obtain ⟨next, hnext, hlevel, hlogQ⟩ := exists_rescale ha (by omega)
      obtain ⟨r, hr, hend⟩ := ih hlogQ (by omega)
      exact ⟨r, by rw [hnext, Outcome.ok_bind, hr], hend⟩
    · exact ⟨a, rfl, ha⟩

/-- Whatever has the modulus of its level is brought to the lowest one. -/
theorem exists_normalize (ha : p.logQ a.level = .ok a.logQ) : ∃ r, a.normalize p = .ok r := by
  obtain ⟨c, hc, hlogQ⟩ := exists_rescaleDown ha le_rfl
  unfold normalize
  rw [hc, Outcome.ok_bind]
  split_ifs with hlevel
  · obtain ⟨hlt, hsum, hword⟩ := Parameters.logQ_eq_ok_iff.1 hlogQ
    have hmono : p.chainSum (0 + 1) ≤ p.chainSum (c.level + 1) := Parameters.chainSum_mono (by omega)
    have hzero : p.logQ 0 = .ok (p.chainSum (0 + 1)) :=
      Parameters.logQ_eq_ok_iff.2 ⟨by omega, rfl, by omega⟩
    unfold modSwitch
    rw [if_neg (Nat.not_lt_zero _), hzero]
    exact ⟨_, rfl⟩
  · exact ⟨c, rfl⟩

end Ciphertext

end CipherMonitor.Ckks
