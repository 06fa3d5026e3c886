import CipherMonitor.Proofs.Ckks.Safety
import CipherMonitor.Proofs.Source.Draw

/-!
# Encodings and their encryptions

An encoding has the modulus of its level, and so has every encryption of it.  Encryption has no
precondition beyond the ring degree, and its noise can always be cut off.

* `Ckks.Plaintext.OnChain`, `Ckks.Ciphertext.OnChain` — what sits on a level with the modulus of that
  level, ciphertexts with one to three polynomials.
* `Ckks.Plaintext.onChain_of_encodeAll` — encodings.
* `Ckks.yields_encrypt`, `Ckks.Ciphertext.onChain_of_encrypt` — encryptions of them.
-/

namespace CipherMonitor.Ckks

open CipherMonitor.Poly

variable {p : Parameters} {s : Secret} {t : Plaintext} {c : Ciphertext} {xa xe xa' xe' : Source}

/-- The plaintext sits on a level and is reduced by the modulus of that level. -/
structure Plaintext.OnChain (p : Parameters) (t : Plaintext) : Prop where
  level_lt : t.level + 1 < p.modulusBits.length
  logQ_eq : t.logQ = p.chainSum (t.level + 1)
  poly : t.poly.IsReduced p.ringDegree (p.chainSum (t.level + 1))

/-- The ciphertext sits on a level and is reduced by the modulus of that level. -/
structure Ciphertext.OnChain (p : Parameters) (c : Ciphertext) : Prop where
  level_lt : c.level + 1 < p.modulusBits.length
  isReduced : c.IsReduced p.ringDegree (p.chainSum (c.level + 1))

theorem Ciphertext.OnChain.onLevel (h : c.OnChain p) : c.OnLevel p c.size where
  level_lt := h.level_lt
  logQ_eq := h.isReduced.logQ_eq
  size_eq := rfl
  polys := h.isReduced.logQ_eq ▸ h.isReduced.polys

theorem Ciphertext.OnLevel.onChain {size : ℕ} (h : c.OnLevel p size) (hpos : 1 ≤ size)
    (hle : size ≤ 3) : c.OnChain p where
  level_lt := h.level_lt
  isReduced := ⟨h.logQ_eq, hpos.trans_eq h.size_eq.symm, h.size_eq.trans_le hle, h.logQ_eq ▸ h.polys⟩

/-! ### Encodings -/

/-- Every encoding sits on its level. -/
theorem Plaintext.onChain_of_encodeAll {values : List Float} {level : ℕ} {scale : Float}
    (h : encodeAll p values level scale = .ok t) : t.OnChain p := by
  obtain ⟨levels, -, h⟩ := Outcome.bind_eq_ok_iff.1 h
  split_ifs at h
  · obtain ⟨_, -, h⟩ := Outcome.bind_eq_ok_iff.1 h
    cases h
  · obtain ⟨_, -, h⟩ := Outcome.bind_eq_ok_iff.1 h
    obtain ⟨logQ, hlogQ, h⟩ := Outcome.bind_eq_ok_iff.1 h
    obtain ⟨_, -, h⟩ := Outcome.bind_eq_ok_iff.1 h
    split_ifs at h
    obtain ⟨_, -, h⟩ := Outcome.bind_eq_ok_iff.1 h
    obtain ⟨coeffs, -, h⟩ := Outcome.bind_eq_ok_iff.1 h
    obtain rfl := Outcome.pure_eq_ok_iff.1 h
    obtain ⟨hlevel, rfl, -⟩ := Parameters.logQ_eq_ok_iff.1 hlogQ
    exact ⟨hlevel, rfl, isReduced_reduce (size_ofFn _ _)⟩

/-! ### Encryptions -/

theorem yields_noisePoly {sigma : Float} (hfinite : sigma.isFinite) (hsigma : 0.0 ≤ sigma) (n : ℕ) :
    (noisePoly n sigma).Yields fun e => e.size = n := by
  unfold noisePoly
  rw [noise_eq_ok hfinite hsigma]
  refine (yields_addRoundedNoise (Poly.zero n) _).mono fun e he => ?_
  rw [he, size_zero]

/-- A plaintext on a level is encrypted on that level. -/
theorem yields_encrypt (hfinite : p.sigma.isFinite) (hsigma : 0.0 ≤ p.sigma)
    (hs : s.degree = p.ringDegree) (ht : t.OnChain p) (xa xe : Source) :
    (encrypt p s t xa xe).Yields fun result => result.1.OnChain p := by
  have hsize : t.poly.size = s.degree := ht.poly.size_eq.trans hs.symm
  unfold encrypt
  refine (Outcome.yields_require hsize _).bind fun _ _ => ?_
  refine (Outcome.yields_require hs.symm _).bind fun _ _ => ?_
  refine (yields_uniformMod s.degree t.logQ xa).bind fun mask hmask => ?_
  refine (yields_noisePoly hfinite hsigma s.degree xe).bind fun noise hnoise => ?_
  have hbody : (body s t.poly mask.1 noise.1 t.logQ).IsReduced s.degree t.logQ :=
    isReduced_body hsize hmask.size_eq hnoise
  rw [hs] at hbody hmask
  have hlevel : Ciphertext.OnLevel p 2
      { polys := [body s t.poly mask.1 noise.1 t.logQ, mask.1], level := t.level, logQ := t.logQ,
        scale := t.scale } :=
    ⟨ht.level_lt, ht.logQ_eq, rfl, List.forall_mem_cons.2 ⟨hbody, by simpa using hmask⟩⟩
  exact Outcome.yields_pure (hlevel.onChain (by decide) (by decide))

/-- Every encryption of a plaintext on a level sits on that level. -/
theorem Ciphertext.onChain_of_encrypt (hfinite : p.sigma.isFinite) (hsigma : 0.0 ≤ p.sigma)
    (ht : t.OnChain p) (h : encrypt p s t xa xe = .ok (c, xa', xe')) : c.OnChain p := by
  have hs : s.degree = p.ringDegree := by
    obtain ⟨_, -, h⟩ := Outcome.bind_eq_ok_iff.1 h
    obtain ⟨_, hdegree, -⟩ := Outcome.bind_eq_ok_iff.1 h
    exact (require_eq_ok_iff.1 hdegree).symm
  exact (yields_encrypt hfinite hsigma hs ht xa xe).of_ok h

end CipherMonitor.Ckks
