import CipherMonitor.Proofs.Ckks.ModulusSwitch
import CipherMonitor.Proofs.Ckks.Relinearization

/-!
# Moving down the levels keeps the phase

A rescaling by `bits` bits rounds both polynomials of a ciphertext.  Scaled back by `2 ^ bits`, the new
phase is the old one up to the two rounding errors, the one of the mask multiplied by the secret.
Rescalings one after the other add up their errors, each scaled by the bits that were dropped before it;
the modulus switch at the end only reduces.

* `Ckks.Parameters.logQ_pred`, `Ckks.Parameters.logQ_zero` — the modulus one level down, and the lowest.
* `Ckks.Ciphertext.ScaledPhase`, `Ckks.Ciphertext.ScaledPhase.trans` — a phase that was divided, and
  divisions one after the other.
* `Ckks.Ciphertext.Sits.rescale`, `Ckks.Ciphertext.Sits.scaledPhase_switched` — one rescaling, and one
  modulus switch.
* `Ckks.Ciphertext.Drops`, `Ckks.Ciphertext.Drops.scaledPhase` — rescalings with the bits that they drop
  together, and the error of all of them.
* `Ckks.Ciphertext.Sits.rescaleDown` — the loop of normalisation.
* `Ckks.Ciphertext.normalize_phase` — normalisation succeeds on every level, with the phase up to a
  bounded error.
-/

namespace CipherMonitor.Ckks

open CipherMonitor.Poly

/-! ### Moduli of neighbouring levels -/

namespace Parameters

variable {p : Parameters} {level logQ : ℕ}

/-- Above the lowest level, the modulus has the bits of the level more than the one below. -/
theorem logQ_pred (hlevel : 0 < level) (h : p.logQ level = .ok logQ) :
    ∃ bits below, p.modulusBits[level]? = some bits ∧ p.logQ (level - 1) = .ok below ∧
      below + bits = logQ := by
  obtain ⟨hlt, rfl, hword⟩ := logQ_eq_ok_iff.1 h
  have hbits := List.getElem?_eq_getElem (Nat.lt_of_succ_lt hlt)
  have hsum := chainSum_succ hbits
  refine ⟨_, p.chainSum level, hbits, logQ_eq_ok_iff.2 ⟨by omega, ?_, by omega⟩, hsum.symm⟩
  rw [Nat.sub_add_cancel hlevel]

/-- The lowest level has the first modulus of the chain. -/
theorem logQ_zero (h : p.logQ level = .ok logQ) :
    ∃ first, p.modulusBits[0]? = some first ∧ p.logQ 0 = .ok first ∧ first ≤ logQ := by
  obtain ⟨hlt, rfl, hword⟩ := logQ_eq_ok_iff.1 h
  have hfirst := List.getElem?_eq_getElem (Nat.zero_lt_of_lt hlt)
  have hsum : p.chainSum 1 = _ := (chainSum_succ hfirst).trans (Nat.zero_add _)
  have hle : p.chainSum 1 ≤ p.chainSum (level + 1) := chainSum_mono (by omega)
  exact ⟨_, hfirst, logQ_eq_ok_iff.2 ⟨by omega, hsum, by omega⟩, hsum ▸ hle⟩

end Parameters

namespace Ciphertext

variable {p : Parameters} {s : Secret} {bits bits' m m' logQ logQ' n : ℕ} {c d r : Ciphertext}

/-! ### Phases that were divided -/

/-- Modulo `2 ^ logQ`, `2 ^ bits` times the phase of `r` is the phase of `c`, up to an error of at most
`m` in every coefficient. -/
def ScaledPhase (s : Secret) (bits m logQ : ℕ) (c r : Ciphertext) : Prop :=
  ∃ tc tr, c.decrypt s = .ok tc ∧ r.decrypt s = .ok tr ∧
    ∃ e : Poly ℤ, e.size = s.degree ∧ e.BoundedBy m ∧
      ∀ i < s.degree, 2 ^ bits * tr.poly.coeff i ≡ tc.poly.coeff i + e.coeff i [ZMOD 2 ^ logQ]

theorem ScaledPhase.mono (h : ScaledPhase s bits m logQ c r) (hm : m ≤ m') :
    ScaledPhase s bits m' logQ c r := by
  obtain ⟨tc, tr, hc, hr, e, he, hB, hphase⟩ := h
  exact ⟨tc, tr, hc, hr, e, he, hB.mono hm, hphase⟩

theorem ScaledPhase.refl (hc : c.Sits p s.degree) (logQ : ℕ) : ScaledPhase s 0 0 logQ c c := by
  obtain ⟨tc, htc⟩ := hc.exists_decrypt
  exact ⟨tc, tc, htc, htc, Poly.zero s.degree, size_zero _, boundedBy_zero _, fun i _ => by simp⟩

/-- The second error is scaled by the bits that were dropped first. -/
theorem ScaledPhase.trans (h : ScaledPhase s bits m logQ c d)
    (h' : ScaledPhase s bits' m' logQ' d r) (hle : logQ' + bits ≤ logQ) :
    ScaledPhase s (bits' + bits) (m + 2 ^ bits * m') (logQ' + bits) c r := by
  obtain ⟨tc, td, hc, hd, e, he, hB, hphase⟩ := h
  obtain ⟨td', tr, hd', hr, e', he', hB', hphase'⟩ := h'
  obtain rfl := Except.ok.inj (hd.symm.trans hd')
  refine ⟨tc, tr, hc, hr, e.add (e'.scale (2 ^ bits)), by simp [he, he'], ?_, fun i hi => ?_⟩
  · have hpow : ((2 : ℤ) ^ bits).natAbs = 2 ^ bits := Int.natAbs_pow 2 bits
    exact hpow ▸ hB.add (hB'.scale (2 ^ bits))
  · have hfirst := (hphase i hi).of_dvd (pow_dvd_pow 2 hle)
    have hsecond : 2 ^ bits * (2 ^ bits' * tr.poly.coeff i) ≡
        2 ^ bits * (td.poly.coeff i + e'.coeff i) [ZMOD 2 ^ (logQ' + bits)] := by
      rw [Nat.add_comm, pow_add]
      exact (hphase' i hi).mul_left'
    rw [coeff_add (he ▸ hi) (by simpa [he'] using hi), coeff_scale _ (he' ▸ hi)]
    calc 2 ^ (bits' + bits) * tr.poly.coeff i
        = 2 ^ bits * (2 ^ bits' * tr.poly.coeff i) := by ring
      _ ≡ 2 ^ bits * td.poly.coeff i + 2 ^ bits * e'.coeff i [ZMOD 2 ^ (logQ' + bits)] := by
          rw [← mul_add]
          exact hsecond
      _ ≡ (tc.poly.coeff i + e.coeff i) + 2 ^ bits * e'.coeff i [ZMOD 2 ^ (logQ' + bits)] :=
          hfirst.add_right _
      _ = tc.poly.coeff i + (e.coeff i + 2 ^ bits * e'.coeff i) := by ring

/-! ### One level down -/

/-- The ciphertext divided by `2 ^ bits`. -/
def rescaled (c : Ciphertext) (bits : ℕ) : Ciphertext where
  polys := c.polys.map (·.divRoundMod bits (c.logQ - bits))
  level := c.level - 1
  logQ := c.logQ - bits
  scale := c.scale / powTwo bits

theorem rescale_eq_ok (hlevel : 0 < c.level) (hbits : p.modulusBits[c.level]? = some bits)
    (hle : bits ≤ c.logQ) : c.rescale p = .ok (c.rescaled bits) := by
  rw [rescale, if_neg (by omega), Parameters.rescaleBits, hbits, Outcome.ok_bind, require_of hle]
  rfl

/-- Two polynomials at the secret. -/
theorem atSecret_pair (s : Secret) (logQ : ℕ) (c0 c1 : Poly ℤ) :
    atSecret s logQ [c0, c1] = pairPhase s logQ (c0, c1) := by
  rw [atSecret_cons, atSecret_cons, atSecret_nil, pairPhase, zero_mul, add_zero]

theorem pairPhase_divRoundMod (hbits : 0 < bits) (s : Secret) (logQ : ℕ) (c0 c1 : Poly ℤ) :
    pairPhase s logQ (c0.divRoundMod bits logQ, c1.divRoundMod bits logQ) =
      pairPhase s logQ (c0.rounded bits, c1.rounded bits) := by
  rw [pairPhase, pairPhase, divRoundMod_eq_reduce c0 hbits, divRoundMod_eq_reduce c1 hbits,
    residue_reduce le_rfl, residue_reduce le_rfl]

/-- The phase of a ciphertext of two polynomials is divided up to the two rounding errors. -/
theorem scaledPhase_rescaled (hbits : 0 < bits) (hle : bits ≤ c.logQ) {c0 c1 : Poly ℤ}
    (hpolys : c.polys = [c0, c1]) (hreduced : ∀ q ∈ c.polys, q.IsReduced s.degree c.logQ)
    (hreduced' : ∀ q ∈ (c.rescaled bits).polys, q.IsReduced s.degree (c.logQ - bits)) :
    ScaledPhase s bits (2 ^ (bits - 1) * (1 + magnitude s.coeffs)) c.logQ c (c.rescaled bits) := by
  have h0 : c0.size = s.degree := (hreduced c0 (by simp [hpolys])).size_eq
  have h1 : c1.size = s.degree := (hreduced c1 (by simp [hpolys])).size_eq
  have hpolys' : (c.rescaled bits).polys =
      [c0.divRoundMod bits (c.logQ - bits), c1.divRoundMod bits (c.logQ - bits)] := by
    rw [rescaled, hpolys]
    rfl
  obtain ⟨tc, htc, htcReduced, htcValue⟩ := decryptsTo_of_polys rfl (by simp [hpolys]) hreduced
  have hdecrypts : (c.rescaled bits).DecryptsTo s (c.logQ - bits) _ :=
    decryptsTo_of_polys rfl (by simp [hpolys']) hreduced'
  obtain ⟨tr, htr, htrReduced, htrValue⟩ := hdecrypts
  rw [hpolys, atSecret_pair] at htcValue
  rw [hpolys', atSecret_pair, pairPhase_divRoundMod hbits] at htrValue
  obtain ⟨e, he, hB, hround⟩ := @exists_roundingError s (c0, c1) bits hbits h0 h1 c.logQ
  -- The quotients before reduction, as one integer polynomial.
  obtain ⟨d, hd, hphase⟩ : ∃ d : Poly ℤ, d.size = s.degree ∧ ∀ logQ,
      d.residue s.degree logQ = pairPhase s logQ (c0.rounded bits, c1.rounded bits) :=
    ⟨(c0.rounded bits).add ((c1.rounded bits).mul s.toPoly),
      by simp [h0, h1, Secret.size_mul_toPoly],
      @residue_add_mul_secret s (c0.rounded bits, c1.rounded bits) (by simp [h0]) (by simp [h1])⟩
  have hscaled : ∀ i < s.degree, 2 ^ bits * (tr.poly.coeff i - (Poly.zero s.degree).coeff i) ≡
      (tc.poly.add e).coeff i [ZMOD 2 ^ (c.logQ - bits + bits)] :=
    modEq_of_scaled_difference htrReduced.size_eq (size_zero _) hd (by simp [htcReduced.size_eq, he])
      (by rw [residue_zero, sub_zero, htrValue, hphase])
      (by rw [Nat.sub_add_cancel hle, hphase, hround, residue_add htcReduced.size_eq he, htcValue])
  refine ⟨tc, tr, htc, htr, e, he, hB, fun i hi => ?_⟩
  have hi' := hscaled i hi
  rwa [coeff_zero, sub_zero, Nat.sub_add_cancel hle,
    coeff_add (htcReduced.size_eq ▸ hi) (he ▸ hi)] at hi'

/-- A ciphertext of two polynomials is rescaled on every level but the lowest, by the bits of the
level. -/
theorem Sits.rescale (hpos : ∀ b ∈ p.modulusBits, 0 < b) (hc : c.Sits p s.degree)
    (hsize : c.size = 2) (hlevel : 0 < c.level) :
    ∃ bits r, p.modulusBits[c.level]? = some bits ∧ c.rescale p = .ok r ∧
      r.Sits p s.degree ∧ r.size = 2 ∧ r.level + 1 = c.level ∧ r.logQ + bits = c.logQ ∧
      ScaledPhase s bits (2 ^ (bits - 1) * (1 + magnitude s.coeffs)) c.logQ c r := by
  obtain ⟨bits, below, hbits, hbelow, hsum⟩ := Parameters.logQ_pred hlevel hc.logQ_eq
  have hbitsPos : 0 < bits := hpos bits (List.mem_of_getElem? hbits)
  have hle : bits ≤ c.logQ := by omega
  have hdiff : c.logQ - bits = below := by omega
  obtain ⟨c0, c1, hpolys⟩ := List.length_eq_two.1 hsize
  have hreduced : ∀ q ∈ (c.rescaled bits).polys, q.IsReduced s.degree (c.logQ - bits) := by
    refine List.forall_mem_map.2 fun q hq => ?_
    rw [divRoundMod_eq_reduce q hbitsPos]
    exact isReduced_reduce (by rw [size_rounded, hc.size_eq q hq])
  have hsits : (c.rescaled bits).Sits p s.degree :=
    ⟨by rw [rescaled, hdiff, hbelow], by simp [rescaled, hpolys], hreduced⟩
  exact ⟨bits, c.rescaled bits, hbits, rescale_eq_ok hlevel hbits hle, hsits,
    (List.length_map _).trans hsize, Nat.sub_add_cancel hlevel, Nat.sub_add_cancel hle,
    scaledPhase_rescaled hbitsPos hle hpolys hc.polys hreduced⟩

/-- A modulus switch keeps the phase modulo the smaller modulus. -/
theorem Sits.scaledPhase_switched (hc : c.Sits p s.degree) {level q : ℕ} (hq : q ≤ c.logQ) :
    ScaledPhase s 0 0 q c (c.switched level q) := by
  obtain ⟨tc, htc, htcReduced, -⟩ := decryptsTo_of_polys rfl hc.ne_nil hc.polys
  refine ⟨tc, tc.switched level q, htc, ?_, Poly.zero s.degree, size_zero _, boundedBy_zero _,
    fun i hi => ?_⟩
  · rw [hc.decrypt_switched s level hq, htc]
    rfl
  · have hreduce : (tc.switched level q).poly.coeff i = tc.poly.coeff i % 2 ^ q :=
      coeff_reduce (htcReduced.size_eq ▸ hi)
    rw [hreduce, pow_zero, one_mul, coeff_zero, add_zero]
    exact Int.mod_modEq _ _

/-! ### Rescalings one after the other -/

/-- Rescalings that drop `bits` bits together. -/
inductive Drops (p : Parameters) : ℕ → Ciphertext → Ciphertext → Prop
  | refl (c : Ciphertext) : Drops p 0 c c
  | step {c d r : Ciphertext} {bits rest : ℕ} : p.modulusBits[c.level]? = some bits →
    c.rescale p = .ok d → Drops p rest d r → Drops p (rest + bits) c r

theorem level_pos_of_rescale (h : c.rescale p = .ok d) : 0 < c.level := by
  refine Nat.pos_of_ne_zero fun hlevel => ?_
  rw [rescale, if_pos hlevel] at h
  cases h

/-- The error of a rescaling by `bits` bits, and the one of later rescalings by `rest` bits. -/
theorem add_errors_le (hbits : 0 < bits) (rest m : ℕ) :
    2 ^ (bits - 1) * m + 2 ^ bits * ((2 ^ rest - 1) * m) ≤ (2 ^ (rest + bits) - 1) * m := by
  obtain ⟨k, rfl⟩ := Nat.exists_eq_add_of_lt hbits
  rw [Nat.zero_add, Nat.add_sub_cancel, ← Nat.mul_assoc, ← Nat.add_mul]
  refine Nat.mul_le_mul_right m ?_
  have hrest : 1 ≤ 2 ^ rest := Nat.one_le_two_pow
  have hk : 1 ≤ 2 ^ k := Nat.one_le_two_pow
  rw [Nat.mul_sub_one, ← pow_add, Nat.add_comm (k + 1) rest]
  have hle : 2 ^ (k + 1) ≤ 2 ^ (rest + (k + 1)) := Nat.pow_le_pow_right Nat.two_pos (by omega)
  rw [pow_succ] at hle ⊢
  omega

/-- Every error is scaled by the bits that were dropped before it, so all of them together are smaller
than one error of all the bits. -/
theorem Drops.scaledPhase (hpos : ∀ b ∈ p.modulusBits, 0 < b) (h : Drops p bits c r)
    (hc : c.Sits p s.degree) (hsize : c.size = 2) :
    r.Sits p s.degree ∧ r.size = 2 ∧ r.logQ + bits = c.logQ ∧
      ScaledPhase s bits ((2 ^ bits - 1) * (1 + magnitude s.coeffs)) c.logQ c r := by
  induction h with
  | refl c => exact ⟨hc, hsize, rfl, (ScaledPhase.refl hc c.logQ).mono (Nat.zero_le _)⟩
  | @step c d r bits rest hbits hd _ ih =>
    obtain ⟨bits', d', hbits', hd', hsits, hsize', -, hlogQ, hphase⟩ :=
      hc.rescale hpos hsize (level_pos_of_rescale hd)
    obtain rfl := Option.some.inj (hbits.symm.trans hbits')
    obtain rfl := Except.ok.inj (hd.symm.trans hd')
    obtain ⟨hr, hrsize, hrlogQ, hrest⟩ := ih hsits hsize'
    have htotal := hphase.trans hrest hlogQ.le
    rw [hlogQ] at htotal
    exact ⟨hr, hrsize, by omega,
      htotal.mono (add_errors_le (hpos bits (List.mem_of_getElem? hbits)) rest _)⟩

/-! ### Normalisation -/

/-- The loop ends on the lowest level, or as soon as the scale is not too large any more. -/
theorem Sits.rescaleDown (hpos : ∀ b ∈ p.modulusBits, 0 < b) (hc : c.Sits p s.degree)
    (hsize : c.size = 2) {steps : ℕ} (hsteps : steps ≤ c.level) :
    ∃ bits r, Ciphertext.rescaleDown p steps c = .ok r ∧ Drops p bits c r ∧
      (r.level + steps = c.level ∨ ¬ r.scale > 2.0 * p.scale) := by
  induction steps generalizing c with
  | zero => exact ⟨0, c, rfl, .refl c, .inl rfl⟩
  | succ steps ih =>
    by_cases hscale : c.scale > 2.0 * p.scale
    · obtain ⟨bits, d, hbits, hd, hsits, hsize', hlevel, -⟩ := hc.rescale hpos hsize (by omega)
      obtain ⟨rest, r, hr, hdrops, hend⟩ := ih hsits hsize' (by omega)
      refine ⟨rest + bits, r, ?_, .step hbits hd hdrops, hend.imp_left fun h => by omega⟩
      rw [Ciphertext.rescaleDown, if_pos hscale, hd]
      exact hr
    · exact ⟨0, c, by rw [Ciphertext.rescaleDown, if_neg hscale], .refl c, .inr hscale⟩

/-- After the loop, the remaining levels are dropped at once. -/
theorem normalize_eq_ok (hr : rescaleDown p c.level c = .ok r) (hsits : r.Sits p n) {first : ℕ}
    (hfirst : p.logQ 0 = .ok first) : c.normalize p = .ok (r.switched 0 first) := by
  rw [normalize, hr, Outcome.ok_bind]
  split_ifs with hlevel
  · exact modSwitch_eq_ok hfirst (Nat.zero_le _)
  · have hzero : r.level = 0 := Nat.eq_zero_of_not_pos hlevel
    have hlogQ := hsits.logQ_eq
    rw [hzero, hfirst, Except.ok.injEq] at hlogQ
    have hself := hsits.switched_self
    rw [hzero, ← hlogQ] at hself
    rw [hself]
    rfl

/-- A ciphertext of two polynomials on a level of a chain of positive sizes is brought to the lowest
level.  If the rescalings that happen on the way drop `bits` bits together, `2 ^ bits` times the new
phase is the old one, up to an error of at most `2 ^ bits` times one plus the magnitude of the secret,
modulo the lowest modulus with these bits; the rescalings stop as soon as the scale is at most twice the
nominal one.  A single rescaling is known modulo the modulus of its level, with half of this error. -/
theorem normalize_phase (hpos : ∀ b ∈ p.modulusBits, 0 < b) (hc : c.Sits p s.degree)
    (hsize : c.size = 2) :
    (∃ bits mid r first, rescaleDown p c.level c = .ok mid ∧ Drops p bits c mid ∧
      (mid.level = 0 ∨ ¬ mid.scale > 2.0 * p.scale) ∧
      c.normalize p = .ok r ∧ r.Sits p s.degree ∧ r.size = 2 ∧ r.level = 0 ∧
      p.modulusBits[0]? = some first ∧ r.logQ = first ∧
      ScaledPhase s bits ((1 + magnitude s.coeffs) * 2 ^ bits) (first + bits) c r) ∧
    (0 < c.level → ∃ bits r, p.modulusBits[c.level]? = some bits ∧ c.rescale p = .ok r ∧
      r.Sits p s.degree ∧ r.size = 2 ∧ r.level + 1 = c.level ∧ r.logQ + bits = c.logQ ∧
      ScaledPhase s bits (2 ^ (bits - 1) * (1 + magnitude s.coeffs)) c.logQ c r) := by
  refine ⟨?_, hc.rescale hpos hsize⟩
  obtain ⟨bits, mid, hmid, hdrops, hend⟩ := hc.rescaleDown hpos hsize le_rfl
  obtain ⟨hsits, hmidSize, hlogQ, hphase⟩ := hdrops.scaledPhase hpos hc hsize
  obtain ⟨first, hfirst, hzero, hle⟩ := Parameters.logQ_zero hsits.logQ_eq
  have hswitched : ScaledPhase s 0 0 first mid (mid.switched 0 first) := hsits.scaledPhase_switched hle
  have htotal := hphase.trans hswitched (by omega)
  rw [Nat.zero_add, Nat.mul_zero, Nat.add_zero] at htotal
  refine ⟨bits, mid, _, first, hmid, hdrops, hend.imp_left fun h => by omega,
    normalize_eq_ok hmid hsits hzero, hsits.sits_switched hzero,
    (size_switched mid 0 first).trans hmidSize, rfl, hfirst, rfl, htotal.mono ?_⟩
  rw [Nat.mul_comm]
  exact Nat.mul_le_mul_left _ (Nat.sub_le _ _)

/-- A ciphertext two levels above the lowest one. -/
def upperSample : Ciphertext :=
  { polys := [⟨#[100, 1]⟩, ⟨#[77, 127]⟩], level := 2, logQ := 7, scale := 16.0 }

/-- Its normalisation and its first rescaling, under the secret `1 - X`. -/
theorem normalize_phase_upperSample :
    let p : Parameters :=
      { ringDegree := 2, modulusBits := [3, 2, 2, 2], scale := 2.0, sigma := 1.0 }
    upperSample.Sits p sampleSecret.degree ∧
    (∃ bits mid r, Drops p bits upperSample mid ∧ rescaleDown p 2 upperSample = .ok mid ∧
      upperSample.normalize p = .ok r ∧ r.level = 0 ∧ r.logQ = 3 ∧
      ScaledPhase sampleSecret bits (3 * 2 ^ bits) (3 + bits) upperSample r) ∧
    ∃ r, upperSample.rescale p = .ok r ∧ r.level = 1 ∧ r.logQ = 5 ∧
      ScaledPhase sampleSecret 2 6 7 upperSample r := by
  intro p
  have hsits : upperSample.Sits p sampleSecret.degree := by decide
  obtain ⟨⟨bits, mid, r, first, hmid, hdrops, -, hr, -, -, hlevel, hfirst, hlogQ, hphase⟩, hrescale⟩ :=
    normalize_phase (p := p) (by decide) hsits rfl
  obtain rfl : 3 = first := Option.some.inj hfirst
  refine ⟨hsits, ⟨bits, mid, r, hdrops, hmid, hr, hlevel, hlogQ, hphase⟩, ?_⟩
  obtain ⟨two, r, htwo, hr, -, -, hlevel, hlogQ, hphase⟩ := hrescale (by decide)
  obtain rfl : 2 = two := Option.some.inj htwo
  exact ⟨r, hr, Nat.succ.inj hlevel, Nat.add_right_cancel hlogQ, hphase⟩

end Ciphertext

end CipherMonitor.Ckks
