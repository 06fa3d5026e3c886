import CipherMonitor.Ckks.Relinearization
import CipherMonitor.Proofs.Ckks.Arithmetic
import CipherMonitor.Proofs.Ckks.KeyGeneration
import CipherMonitor.Proofs.Safety

/-!
# Arithmetic on the levels of a chain breaks no precondition

Validated parameters give every level its modulus.  A ciphertext that sits on a level stays on one
through all operations, none of which then breaks a precondition.

* `Ckks.Parameters.Sound` — what validated parameters satisfy.
* `Ckks.Ciphertext.OnLevel`, `Ckks.Ciphertext.OnLevel.map`, `Ckks.Ciphertext.OnLevel.combine` —
  ciphertexts on a level, and operations on their polynomials, one by one or in pairs.
* `Ckks.Ciphertext.meets_rescale`, `Ckks.Ciphertext.meets_relinearize`, … — one lemma for each
  operation.
* `Ckks.Ciphertext.meets_normalize` — every ciphertext on a level is brought to the lowest one.
-/

namespace CipherMonitor.Ckks

open CipherMonitor.Poly

/-! ### Parameters -/

namespace Parameters

/-- Validated parameters whose moduli fit machine words. -/
structure Sound (p : Parameters) : Prop where
  two_le_ringDegree : 2 ≤ p.ringDegree
  two_le_length : 2 ≤ p.modulusBits.length
  pos : ∀ b ∈ p.modulusBits, 0 < b
  sum_lt : p.modulusBits.sum < 2 ^ 31

variable {p : Parameters} {level : ℕ}

theorem sound_of_validate (h : p.validate = .ok ()) (hsum : p.modulusBits.sum < 2 ^ 31) :
    p.Sound := by
  obtain ⟨hdegree, hlength, hpos⟩ := of_validate h
  exact ⟨hdegree, hlength, hpos, hsum⟩

namespace Sound

variable (hp : p.Sound)

include hp

theorem levels_eq : p.levels = .ok (p.modulusBits.length - 1) :=
  levels_eq_ok_iff.2 ⟨List.length_pos_iff.1 (Nat.zero_lt_of_lt hp.two_le_length), rfl⟩

theorem topLevel_eq : p.topLevel = .ok (p.modulusBits.length - 2) :=
  topLevel_eq_ok_iff.2 (by have := hp.two_le_length; omega)

theorem chainSum_lt (count : ℕ) : p.chainSum count < 2 ^ 31 :=
  lt_of_le_of_lt ((List.take_sublist count _).sum_le_sum fun _ _ => Nat.zero_le _) hp.sum_lt

theorem logQ_eq (h : level + 1 < p.modulusBits.length) :
    p.logQ level = .ok (p.chainSum (level + 1)) :=
  logQ_eq_ok_iff.2 ⟨h, rfl, (hp.chainSum_lt _).trans (by decide)⟩

theorem exists_bits (h : level < p.modulusBits.length) :
    ∃ bits, p.modulusBits[level]? = some bits ∧ 0 < bits :=
  ⟨p.modulusBits[level], List.getElem?_eq_getElem h, hp.pos _ (List.getElem_mem h)⟩

theorem chainSum_pos (h : level < p.modulusBits.length) : 0 < p.chainSum (level + 1) := by
  obtain ⟨bits, hbits, hpos⟩ := hp.exists_bits h
  rw [chainSum_succ hbits]
  omega

theorem headD_eq : p.modulusBits.headD 0 = p.chainSum 1 := by
  have := hp.two_le_length
  unfold chainSum
  cases hbits : p.modulusBits with
  | nil => simp [hbits] at this
  | cons b bits => simp

end Sound

end Parameters

/-! ### Plaintexts -/

/-- A plaintext of a level. -/
structure Plaintext.OnLevel (p : Parameters) (level : ℕ) (scale : Float) (t : Plaintext) :
    Prop where
  level_eq : t.level = level
  scale_eq : t.scale = scale
  level_lt : level + 1 < p.modulusBits.length
  poly : t.poly.IsReduced p.ringDegree (p.chainSum (level + 1))

variable {p : Parameters} {level : ℕ} {scale : Float}

theorem meets_quantize (v scale : Float) (logQ : ℕ) (bound : Float) :
    (quantize v scale logQ bound).Meets fun _ => True := by
  unfold quantize
  dsimp only
  split
  · split_ifs
    · exact Outcome.meets_ckks _ _
    · exact Outcome.meets_ok trivial
  · exact Outcome.meets_ckks _ _

/-- Numbers are encoded on any level and at any scale, or refused. -/
theorem meets_encode (hp : p.Sound) (value : Float) (level : ℕ) (scale : Float) :
    (encode p value level scale).Meets (Plaintext.OnLevel p level scale) := by
  unfold encode encodeAll
  rw [hp.levels_eq, Outcome.ok_bind]
  split_ifs with hlevel
  · rw [hp.topLevel_eq]
    exact Outcome.meets_ckks _ _
  · have hlt : level + 1 < p.modulusBits.length := by
      have := hp.two_le_length
      omega
    have hpos := hp.chainSum_pos (Nat.lt_of_succ_lt hlt)
    have hword := hp.chainSum_lt (level + 1)
    refine (Outcome.meets_require (Nat.zero_lt_of_lt hp.two_le_ringDegree) _).bind fun _ _ => ?_
    rw [hp.logQ_eq hlt, Outcome.ok_bind]
    refine (Outcome.meets_require hpos _).bind fun _ _ => ?_
    split_ifs
    · exact Outcome.meets_ckks _ _
    · refine (Outcome.meets_require (Nat.ne_of_lt hword) _).bind fun _ _ => ?_
      refine (Outcome.Meets.mapM fun v _ => meets_quantize v _ _ _).bind fun coeffs _ => ?_
      exact Outcome.meets_pure ⟨rfl, rfl, hlt, isReduced_reduce (size_ofFn _ _)⟩

/-! ### Ciphertexts -/

namespace Ciphertext

/-- A ciphertext of `size` polynomials on a level of the chain. -/
structure OnLevel (p : Parameters) (size : ℕ) (c : Ciphertext) : Prop where
  level_lt : c.level + 1 < p.modulusBits.length
  logQ_eq : c.logQ = p.chainSum (c.level + 1)
  size_eq : c.size = size
  polys : ∀ q ∈ c.polys, q.IsReduced p.ringDegree c.logQ

variable {c d : Ciphertext} {size : ℕ} {t : Plaintext}

theorem OnLevel.degree_eq (hc : c.OnLevel p size) (hsize : 0 < size) : c.degree = p.ringDegree := by
  obtain ⟨q, qs, hq⟩ := List.exists_cons_of_length_pos (hc.size_eq ▸ hsize)
  rw [degree, hq]
  exact (hc.polys q (by simp [hq])).size_eq

/-- An operation on every polynomial, to a modulus of some level. -/
theorem OnLevel.map (hc : c.OnLevel p size) {level logQ : ℕ} (scale : Float)
    {f : Poly ℤ → Poly ℤ} (hlevel : level + 1 < p.modulusBits.length)
    (hlogQ : logQ = p.chainSum (level + 1))
    (hf : ∀ q : Poly ℤ, q.size = p.ringDegree → (f q).IsReduced p.ringDegree logQ) :
    OnLevel p size { polys := c.polys.map f, level, logQ, scale } where
  level_lt := hlevel
  logQ_eq := hlogQ
  size_eq := (List.length_map f).trans hc.size_eq
  polys := List.forall_mem_map.2 fun q hq => hf q (hc.polys q hq).size_eq

theorem onLevel_negate (hc : c.OnLevel p size) : c.negate.OnLevel p size :=
  hc.map _ hc.level_lt hc.logQ_eq fun q hq => isReduced_reduce (by rw [size_neg, hq])

theorem meets_aligned (levelA : ℕ) (scaleA : Float) (levelB : ℕ) (scaleB : Float) :
    (aligned levelA scaleA levelB scaleB).Meets fun _ => levelA = levelB := by
  unfold aligned
  split_ifs with hlevel
  · exact Outcome.meets_ckks _ _
  · exact Outcome.meets_ckks _ _
  · exact Outcome.meets_ok (not_not.1 hlevel)

/-- An operation on the first polynomial and the plaintext. -/
theorem meets_withFirst {f : Poly ℤ → Poly ℤ → ℕ → Poly ℤ} (hsize : 0 < size)
    (hf : ∀ q, q.IsReduced p.ringDegree c.logQ → (f q t.poly c.logQ).IsReduced p.ringDegree c.logQ)
    (hc : c.OnLevel p size) (ht : t.poly.size = p.ringDegree) :
    (withFirst f c t).Meets (OnLevel p size) := by
  unfold withFirst
  refine (meets_aligned _ _ _ _).bind fun _ _ => ?_
  obtain ⟨q, qs, hq⟩ := List.exists_cons_of_length_pos (hc.size_eq ▸ hsize)
  have hpolys := hc.polys
  rw [hq, List.forall_mem_cons] at hpolys
  rw [hq]
  refine (Outcome.meets_require (hpolys.1.size_eq.trans ht.symm) _).bind fun _ _ => ?_
  refine Outcome.meets_pure ⟨hc.level_lt, hc.logQ_eq, ?_, ?_⟩
  · rw [← hc.size_eq, Ciphertext.size, Ciphertext.size, hq]
    rfl
  · exact List.forall_mem_cons.2 ⟨hf q hpolys.1, hpolys.2⟩

theorem meets_multiplyPlain (hsize : 0 < size) (hc : c.OnLevel p size)
    (ht : t.poly.size = p.ringDegree) : (c.multiplyPlain t).Meets (OnLevel p size) := by
  unfold multiplyPlain
  split_ifs
  · exact Outcome.meets_ckks _ _
  · refine (Outcome.meets_require (.inr (ht.trans (hc.degree_eq hsize).symm)) _).bind fun _ _ => ?_
    refine Outcome.meets_pure (hc.map _ hc.level_lt hc.logQ_eq fun q hq => isReduced_reduce ?_)
    rw [size_mul (ht.trans hq.symm), ht]

section

variable {m n : ℕ}

theorem OnLevel.logQ_eq_of_level (hc : c.OnLevel p m) (hd : d.OnLevel p n)
    (hlevel : c.level = d.level) : d.logQ = c.logQ := by
  rw [hd.logQ_eq, hc.logQ_eq, hlevel]

theorem meets_sameDegree (hm : 0 < m) (hn : 0 < n) (hc : c.OnLevel p m) (hd : d.OnLevel p n) :
    (sameDegree c d).Meets fun _ => True :=
  Outcome.meets_require (.inr (.inr ((hc.degree_eq hm).trans (hd.degree_eq hn).symm))) _

/-- An operation on pairs of polynomials, where the other list is not longer. -/
theorem OnLevel.combine (hc : c.OnLevel p size) {f : Poly ℤ → Poly ℤ → Poly ℤ}
    (hf : ∀ q r : Poly ℤ, q.IsReduced p.ringDegree c.logQ → r.IsReduced p.ringDegree c.logQ →
      (f q r).IsReduced p.ringDegree c.logQ)
    {qs : List (Poly ℤ)} (hqs : ∀ q ∈ qs, q.IsReduced p.ringDegree c.logQ)
    (hlength : qs.length ≤ size) : OnLevel p size { c with polys := zipLong f c.polys qs } where
  level_lt := hc.level_lt
  logQ_eq := hc.logQ_eq
  size_eq := (length_zipLong f (hlength.trans_eq hc.size_eq.symm)).trans hc.size_eq
  polys := isReduced_zipLong hf hc.polys hqs

/-- Zeros behind the polynomials. -/
theorem OnLevel.pad (hc : c.OnLevel p m) (count : ℕ) : OnLevel p (m + count)
    { c with polys := c.polys ++ List.replicate count (Poly.zero p.ringDegree) } where
  level_lt := hc.level_lt
  logQ_eq := hc.logQ_eq
  size_eq := by
    rw [Ciphertext.size, List.length_append, List.length_replicate]
    exact congrArg (· + count) hc.size_eq
  polys := by
    intro q hq
    rcases List.mem_append.1 hq with hq | hq
    · exact hc.polys q hq
    · rw [List.eq_of_mem_replicate hq]
      exact isReduced_zero

/-- Ciphertexts of one level and one scale are added, others are refused. -/
theorem meets_add (hm : 0 < m) (hn : 0 < n) (hc : c.OnLevel p m) (hd : d.OnLevel p n) :
    (c.add d).Meets (OnLevel p (max m n)) := by
  unfold add
  refine (meets_aligned _ _ _ _).bind fun _ hlevel => ?_
  refine (meets_sameDegree hm hn hc hd).bind fun _ _ => ?_
  have hlogQ := hc.logQ_eq_of_level hd hlevel
  rw [hc.size_eq, hd.size_eq]
  -- The longer operand comes first, and the sum keeps its level and modulus.
  split_ifs with hle
  · rw [max_eq_left hle]
    refine Outcome.meets_pure (hc.combine (fun _ _ => isReduced_addMod) ?_ (hd.size_eq.trans_le hle))
    rw [← hlogQ]
    exact hd.polys
  · have hle := (not_le.1 hle).le
    rw [max_eq_right hle, ← hlogQ]
    refine Outcome.meets_pure (hd.combine (fun _ _ => isReduced_addMod) ?_ (hc.size_eq.trans_le hle))
    rw [hlogQ]
    exact hc.polys

/-- Ciphertexts of one level and one scale are subtracted, others are refused. -/
theorem meets_sub (hm : 0 < m) (hn : 0 < n) (hc : c.OnLevel p m) (hd : d.OnLevel p n) :
    (c.sub d).Meets (OnLevel p (max m n)) := by
  unfold sub
  refine (meets_aligned _ _ _ _).bind fun _ hlevel => ?_
  refine (meets_sameDegree hm hn hc hd).bind fun _ _ => ?_
  have hlogQ := hc.logQ_eq_of_level hd hlevel
  have hsize : m + (n - m) = max m n := by omega
  rw [hc.size_eq, hd.size_eq, hd.degree_eq hn, ← hsize]
  refine Outcome.meets_pure ((hc.pad (n - m)).combine (fun _ _ => isReduced_subMod) ?_ ?_)
  · rw [← hlogQ]
    exact hd.polys
  · exact hd.size_eq.trans_le (by omega)

/-- Ciphertexts of two polynomials on one level are multiplied, others are refused. -/
theorem meets_multiply (hc : c.OnLevel p m) (hd : d.OnLevel p n) :
    (c.multiply d).Meets (OnLevel p 3) := by
  unfold multiply
  split_ifs with hlevel
  · exact Outcome.meets_ckks _ _
  · have hdpolys := hd.polys
    rw [hc.logQ_eq_of_level hd (not_not.1 hlevel)] at hdpolys
    have hcpolys := hc.polys
    split
    case h_1 a₀ a₁ b₀ b₁ ha hb =>
      rw [ha, List.forall_mem_cons, List.forall_mem_singleton] at hcpolys
      rw [hb, List.forall_mem_cons, List.forall_mem_singleton] at hdpolys
      obtain ⟨ha₀, ha₁⟩ := hcpolys
      obtain ⟨hb₀, hb₁⟩ := hdpolys
      have hcross := isReduced_addMod (isReduced_mulMod ha₀ hb₁) (isReduced_mulMod ha₁ hb₀)
      have hsizes : a₀.size = b₀.size := ha₀.size_eq.trans hb₀.size_eq.symm
      refine (Outcome.meets_require hsizes _).bind fun _ _ => ?_
      refine Outcome.meets_pure ⟨hc.level_lt, hc.logQ_eq, rfl, ?_⟩
      simp only [List.forall_mem_cons]
      exact ⟨isReduced_mulMod ha₀ hb₀, hcross, isReduced_mulMod ha₁ hb₁, by simp⟩
    case h_2 => exact Outcome.meets_ckks _ _
    case h_3 => exact Outcome.meets_ckks _ _

end

/-- Ciphertexts of two polynomials are squared, others are refused. -/
theorem meets_square (hc : c.OnLevel p size) : c.square.Meets (OnLevel p 3) := by
  have hpolys := hc.polys
  unfold square
  split
  case h_1 q₀ q₁ hq =>
    rw [hq, List.forall_mem_cons, List.forall_mem_singleton] at hpolys
    obtain ⟨h₀, h₁⟩ := hpolys
    have hcross := isReduced_mulMod h₀ h₁
    refine Outcome.meets_ok ⟨hc.level_lt, hc.logQ_eq, rfl, ?_⟩
    simp only [List.forall_mem_cons]
    exact ⟨isReduced_mulMod h₀ h₀, isReduced_reduce (by simpa using hcross.size_eq),
      isReduced_mulMod h₁ h₁, by simp⟩
  case h_2 => exact Outcome.meets_ckks _ _

theorem isReduced_divRoundMod {q : Poly ℤ} {n bits logQ : ℕ} (hq : q.size = n) (hbits : 0 < bits) :
    (q.divRoundMod bits logQ).IsReduced n logQ := by
  rw [divRoundMod_eq_reduce q hbits]
  exact isReduced_reduce (by rw [size_rounded, hq])

/-- A level down, the modulus loses the bits of the level. -/
theorem meets_rescale (hp : p.Sound) (hc : c.OnLevel p size) :
    (c.rescale p).Meets (OnLevel p size) := by
  unfold rescale
  split_ifs with hlevel
  · exact Outcome.meets_ckks _ _
  · obtain ⟨bits, hbits, hpos⟩ := hp.exists_bits (Nat.lt_of_succ_lt hc.level_lt)
    have hchain := Parameters.chainSum_succ hbits
    have hlogQ := hc.logQ_eq
    have hle : bits ≤ c.logQ := by omega
    have hbelow : c.logQ - bits = p.chainSum (c.level - 1 + 1) := by
      rw [Nat.sub_add_cancel (Nat.pos_of_ne_zero hlevel)]
      omega
    have hlt : c.level - 1 + 1 < p.modulusBits.length :=
      lt_of_le_of_lt (Nat.succ_le_succ (Nat.sub_le _ _)) hc.level_lt
    rw [Parameters.rescaleBits, hbits, Outcome.ok_bind]
    refine (Outcome.meets_require hle _).bind fun _ _ => ?_
    exact Outcome.meets_pure (hc.map _ hlt hbelow fun q hq => isReduced_divRoundMod hq hpos)

theorem meets_modSwitch (hp : p.Sound) (hc : c.OnLevel p size) (level : ℕ) :
    (c.modSwitch p level).Meets fun r => r.OnLevel p size ∧ r.level = level := by
  unfold modSwitch
  split_ifs with hlevel
  · exact Outcome.meets_ckks _ _
  · have hlt : level + 1 < p.modulusBits.length :=
      lt_of_le_of_lt (Nat.succ_le_succ (Nat.not_lt.1 hlevel)) hc.level_lt
    rw [hp.logQ_eq hlt, Outcome.ok_bind]
    exact Outcome.meets_pure ⟨hc.map _ hlt rfl fun q hq => isReduced_reduce hq, rfl⟩

theorem meets_modSwitchNext (hp : p.Sound) (hc : c.OnLevel p size) :
    (c.modSwitchNext p).Meets (OnLevel p size) := by
  unfold modSwitchNext
  split_ifs
  · exact Outcome.meets_ckks _ _
  · exact (meets_modSwitch hp hc _).mono fun _ hr => hr.1

theorem meets_rescaleDown (hp : p.Sound) (hc : c.OnLevel p size) (steps : ℕ) :
    (rescaleDown p steps c).Meets (OnLevel p size) := by
  induction steps generalizing c with
  | zero => exact Outcome.meets_ok hc
  | succ steps ih =>
    unfold rescaleDown
    split_ifs
    · exact (meets_rescale hp hc).bind fun next hnext => ih hnext
    · exact Outcome.meets_ok hc

/-- Every ciphertext on a level is brought to the lowest one. -/
theorem meets_normalize (hp : p.Sound) (hc : c.OnLevel p size) :
    (c.normalize p).Meets fun r => r.OnLevel p size ∧ r.level = 0 := by
  unfold normalize
  refine (meets_rescaleDown hp hc _).bind fun r hr => ?_
  split_ifs with hlevel
  · exact meets_modSwitch hp hr 0
  · exact Outcome.meets_pure ⟨hr, Nat.eq_zero_of_not_pos hlevel⟩

/-! ### Relinearization -/

section

variable {s : Secret} {k : RelinearizationKey} {B : ℕ}

/-- A generated key has rows for the secret of the ring degree of the parameters. -/
theorem degree_of_generate (hp : p.Sound) {xa xe xa' xe' : Source}
    (h : RelinearizationKey.generate p s xa xe = .ok (k, xa', xe')) :
    s.degree = p.ringDegree := by
  rw [RelinearizationKey.generate] at h
  obtain ⟨logSpecial, -, h⟩ := Outcome.bind_eq_ok_iff.1 h
  obtain ⟨logPQ, -, h⟩ := Outcome.bind_eq_ok_iff.1 h
  obtain ⟨top, htop, h⟩ := Outcome.bind_eq_ok_iff.1 h
  obtain ⟨logTop, hlogTop, h⟩ := Outcome.bind_eq_ok_iff.1 h
  obtain ⟨_, hspecial, h⟩ := Outcome.bind_eq_ok_iff.1 h
  obtain ⟨_, hdegree, -⟩ := Outcome.bind_eq_ok_iff.1 h
  rw [require_eq_ok_iff] at hspecial hdegree
  obtain ⟨hlevel, rfl, -⟩ := Parameters.logQ_eq_ok_iff.1 hlogTop
  have hcover : p.chainSum (top + 1) ≤ _ := le_mul_digitCount hspecial
  have hpos := hp.chainSum_pos (Nat.lt_of_succ_lt hlevel)
  rcases hdegree with hzero | hdegree
  · rw [hzero, Nat.mul_zero] at hcover
    omega
  · exact hdegree.symm

/-- Ciphertexts of three polynomials are brought back to two, others are refused. -/
theorem meets_relinearize (hp : p.Sound) (hk : k.IsFor p s B) (hs : s.degree = p.ringDegree)
    (hc : c.OnLevel p size) : (c.relinearize k).Meets (OnLevel p 2) := by
  by_cases hsize : c.size = 3
  · obtain ⟨q₀, q₁, q₂, hq⟩ := List.length_eq_three.1 hsize
    have hpolys := hc.polys
    rw [hq, ← hs] at hpolys
    simp only [List.forall_mem_cons] at hpolys
    obtain ⟨h₀, h₁, h₂, -⟩ := hpolys
    have hlogQ : p.logQ c.level = .ok c.logQ := by rw [hp.logQ_eq hc.level_lt, hc.logQ_eq]
    obtain ⟨hspecial, hext, hdigits, hok⟩ := relinearize_eq_ok hp.pos hk hlogQ hq h₂.size_eq
    obtain ⟨hb, ha, -⟩ := RelinearizationKey.phase_accumulate h₂ (le_mul_digitCount hspecial)
      hdigits fun i row hi => (hk.rows i row hi).of_le hext
    have hr := isReduced_relinearized h₀.size_eq h₁.size_eq rfl hb ha
    rw [hok]
    refine Outcome.meets_ok ⟨hc.level_lt, hc.logQ_eq, rfl, ?_⟩
    rw [← hs]
    exact hr.polys
  · unfold relinearize
    split
    case h_1 hq =>
      refine absurd ?_ hsize
      rw [Ciphertext.size, hq]
      rfl
    case h_2 => exact Outcome.meets_ckks _ _

end

end Ciphertext

end CipherMonitor.Ckks
