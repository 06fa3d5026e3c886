import Mathlib.Algebra.Order.BigOperators.Group.List
import Mathlib.Algebra.Order.Group.Nat
import CipherMonitor.Ckks.Parameters
import CipherMonitor.Proofs.Outcome

/-!
# The moduli of the levels

* `Ckks.Parameters.of_validate` — what is known of a validated chain.
* `Ckks.Parameters.logQ_eq_ok_iff`, `Ckks.Parameters.topLevel_eq_ok_iff` — when a level exists.
* `Ckks.Parameters.logQ_le_top` — no level has a larger modulus than the highest one.
* `Ckks.Parameters.logPQ_eq` — the modulus of switching keys is that of the highest level times the
  special one.
* `Ckks.Parameters.logQ_eq_ite`, `Ckks.Parameters.logPQ_eq_ite` — what happens to moduli that are too
  large for a machine word.
-/

namespace CipherMonitor.Ckks.Parameters

variable {p : Parameters} {level top logQ logTop logSpecial logPQ : ℕ}

/-- The degree, the length and the entries of a validated chain. -/
theorem of_validate (h : p.validate = .ok ()) :
    2 ≤ p.ringDegree ∧ 2 ≤ p.modulusBits.length ∧ ∀ b ∈ p.modulusBits, 0 < b := by
  unfold validate at h
  dsimp only at h
  split_ifs at h with hdegree hlength hempty
  refine ⟨?_, Nat.not_lt.1 hlength, fun b hb => ?_⟩
  · rw [not_or, not_lt] at hdegree
    exact hdegree.2
  · exact Nat.pos_of_ne_zero fun hzero => hempty (hzero ▸ hb)

theorem levels_eq_ok_iff {levels : ℕ} :
    p.levels = .ok levels ↔ p.modulusBits ≠ [] ∧ p.modulusBits.length - 1 = levels := by
  simp only [Parameters.levels, Outcome.bind_eq_ok_iff, require_eq_ok_iff, Outcome.pure_eq_ok_iff,
    exists_const]

theorem topLevel_eq_ok_iff : p.topLevel = .ok top ↔ p.modulusBits.length = top + 2 := by
  have hne : p.modulusBits ≠ [] ↔ 0 < p.modulusBits.length := List.length_pos_iff.symm
  simp only [topLevel, Outcome.bind_eq_ok_iff, levels_eq_ok_iff, require_eq_ok_iff,
    Outcome.pure_eq_ok_iff, hne, exists_const]
  constructor
  · rintro ⟨levels, ⟨h1, h2⟩, h3, h4⟩
    omega
  · intro h
    exact ⟨p.modulusBits.length - 1, by omega, by omega, by omega⟩

theorem logQ_eq_ok_iff :
    p.logQ level = .ok logQ ↔
      level + 1 < p.modulusBits.length ∧ p.chainSum (level + 1) = logQ ∧ logQ < 2 ^ 32 := by
  have hne : p.modulusBits ≠ [] ↔ 0 < p.modulusBits.length := List.length_pos_iff.symm
  simp only [Parameters.logQ, Outcome.bind_eq_ok_iff, levels_eq_ok_iff, require_eq_ok_iff,
    Outcome.pure_eq_ok_iff, hne, exists_const]
  constructor
  · rintro ⟨levels, ⟨h1, h2⟩, h3, h4, h5⟩
    exact ⟨by omega, h5, h5 ▸ h4⟩
  · rintro ⟨h1, h2, h3⟩
    exact ⟨p.modulusBits.length - 1, by omega, by omega, h2 ▸ h3, h2⟩

/-- The modulus of a level that exists, unless its bits leave 32 bits. -/
theorem logQ_eq_ite (h : level + 1 < p.modulusBits.length) :
    p.logQ level = if p.chainSum (level + 1) < 2 ^ 32 then .ok (p.chainSum (level + 1))
      else .error (.breach .arithmetic) := by
  have hlevels : p.levels = .ok (p.modulusBits.length - 1) :=
    levels_eq_ok_iff.2 ⟨List.length_pos_iff.1 (Nat.zero_lt_of_lt h), rfl⟩
  rw [Parameters.logQ, hlevels, Outcome.ok_bind, require_of (by omega), Outcome.ok_bind, require]
  split_ifs <;> rfl

theorem chainSum_succ {bits : ℕ} (h : p.modulusBits[level]? = some bits) :
    p.chainSum (level + 1) = p.chainSum level + bits := by
  rw [chainSum, List.take_add_one, h, List.sum_append]
  rfl

theorem chainSum_length : p.chainSum p.modulusBits.length = p.modulusBits.sum := by
  rw [chainSum, List.take_length]

theorem chainSum_mono {i j : ℕ} (h : i ≤ j) : p.chainSum i ≤ p.chainSum j := by
  rw [chainSum, chainSum, ← Nat.min_eq_left h, ← List.take_take]
  exact (List.take_sublist i _).sum_le_sum fun _ _ => Nat.zero_le _

/-- The highest level has the largest modulus. -/
theorem logQ_le_top (hq : p.logQ level = .ok logQ) (htop : p.topLevel = .ok top)
    (hlogTop : p.logQ top = .ok logTop) : logQ ≤ logTop := by
  obtain ⟨hlevel, rfl, -⟩ := logQ_eq_ok_iff.1 hq
  obtain ⟨-, rfl, -⟩ := logQ_eq_ok_iff.1 hlogTop
  rw [topLevel_eq_ok_iff] at htop
  exact chainSum_mono (by omega)

theorem logPQ_eq (hpq : p.logPQ = .ok logPQ) (htop : p.topLevel = .ok top)
    (hlogTop : p.logQ top = .ok logTop) (hspecial : p.logSpecial = .ok logSpecial) :
    logPQ = logTop + logSpecial ∧ logPQ < 2 ^ 32 := by
  simp only [Parameters.logPQ, htop, hlogTop, hspecial, Outcome.bind_eq_ok_iff, Except.ok.injEq,
    exists_eq_left', require_eq_ok_iff, Outcome.pure_eq_ok_iff, exists_const] at hpq
  obtain ⟨hlt, rfl⟩ := hpq
  exact ⟨rfl, hlt⟩

/-- The modulus of switching keys has the bits of the whole chain, unless they leave 32 bits. -/
theorem logPQ_eq_ite (h : 2 ≤ p.modulusBits.length) :
    p.logPQ = if p.modulusBits.sum < 2 ^ 32 then .ok p.modulusBits.sum
      else .error (.breach .arithmetic) := by
  obtain ⟨top, htop⟩ := Nat.exists_eq_add_of_le' h
  have hlast : top + 1 < p.modulusBits.length := by omega
  have hlevels : p.levels = .ok (top + 1) :=
    levels_eq_ok_iff.2 ⟨List.length_pos_iff.1 (Nat.zero_lt_of_lt h), by omega⟩
  have hspecial : p.logSpecial = .ok p.modulusBits[top + 1] := by
    rw [logSpecial, hlevels, Outcome.ok_bind, rescaleBits, List.getElem?_eq_getElem hlast]
  have hsum : p.modulusBits.sum = p.chainSum (top + 1) + p.modulusBits[top + 1] := by
    rw [← chainSum_length, htop, chainSum_succ (List.getElem?_eq_getElem hlast)]
  rw [logPQ, topLevel_eq_ok_iff.2 htop, Outcome.ok_bind, logQ_eq_ite hlast]
  by_cases htotal : p.modulusBits.sum < 2 ^ 32
  · rw [if_pos (by omega), Outcome.ok_bind, hspecial, Outcome.ok_bind, ← hsum, require_of htotal,
      if_pos htotal]
    rfl
  · rw [if_neg htotal]
    split_ifs
    · rw [Outcome.ok_bind, hspecial, Outcome.ok_bind, ← hsum, require, if_neg htotal]
      rfl
    · rfl

/-- In a chain of positive sizes the special modulus is not one. -/
theorem logSpecial_pos (hpos : ∀ b ∈ p.modulusBits, 0 < b)
    (hspecial : p.logSpecial = .ok logSpecial) : 0 < logSpecial := by
  obtain ⟨levels, -, h⟩ := Outcome.bind_eq_ok_iff.1 hspecial
  rw [rescaleBits] at h
  cases hget : p.modulusBits[levels]? with
  | none => simp [hget] at h
  | some b =>
    rw [hget, Except.ok.injEq] at h
    exact hpos logSpecial (h ▸ List.mem_of_getElem? hget)

end CipherMonitor.Ckks.Parameters
