import CipherMonitor.Proofs.Ckks.Relinearization
import CipherMonitor.Proofs.Source.Draw

/-!
# Generated relinearization keys

* `Ckks.size_noisePoly`, `Ckks.isReduced_body` — noise and encryptions have the size of the ring.
* `Ckks.residue_body` — an encryption has the phase of its message, up to its noise.
* `Ckks.RelinearizationKey.exists_isFor_of_generate` — generated keys have the shape that
  relinearization relies on.
-/

namespace CipherMonitor

open CipherMonitor.Poly

theorem Poly.boundedBy_magnitude (p : Poly ℤ) : p.BoundedBy (magnitude p.coeffs) :=
  boundedBy_of_lt fun i hi => by
    rw [Int.abs_eq_natAbs]
    have hmem : (p.coeff i).natAbs ∈ p.coeffs.toList.map Int.natAbs := by
      rw [coeff_of_lt hi]
      exact List.mem_map_of_mem (Array.getElem_mem_toList hi)
    exact_mod_cast List.single_le_sum (fun _ _ => Nat.zero_le _) _ hmem

namespace Ckks

theorem size_noisePoly {n : ℕ} {sigma : Float} {x x' : Source} {e : Poly ℤ}
    (h : (noisePoly n sigma).run x = .ok (e, x')) : e.size = n := by
  obtain ⟨d, t, -, h⟩ := Draw.bind_eq_ok_iff.1 h
  exact ((yields_addRoundedNoise _ d t).of_ok h).trans (size_zero n)

variable {s : Secret} {m a e : Poly ℤ} {logQ : ℕ}

theorem isReduced_body (hm : m.size = s.degree) (ha : a.size = s.degree) (he : e.size = s.degree) :
    (body s m a e logQ).IsReduced s.degree logQ :=
  isReduced_reduce (by simp [mulSmallMod, hm, ha, he])

/-- The phase of an encryption is the message plus the noise. -/
theorem residue_body (hm : m.size = s.degree) (ha : a.size = s.degree) (he : e.size = s.degree) :
    pairPhase s logQ (body s m a e logQ, a) =
      m.residue s.degree logQ + e.residue s.degree logQ := by
  have hmask : (a.mulSmallMod s.coeffs logQ).size = s.degree := by simp [mulSmallMod, ha]
  rw [pairPhase, body, residue_addMod (by simp [hmask, he]) hm, residue_reduce le_rfl,
    residue_add (by simp [hmask]) he, residue_negMod, residue_mulSmallMod ha rfl, Secret.residue]
  change -(_ * s.toPoly.residue s.degree logQ) + _ + _ + _ = _
  ring

namespace RelinearizationKey

/-- The rows encrypt the messages in their order. -/
theorem encryptRows_ok {sigma : Float} {ms : List (Poly ℤ)} {rows : List (Poly ℤ × Poly ℤ)}
    {xa xe xa' xe' : Source} (hms : ∀ m ∈ ms, m.size = s.degree)
    (h : encryptRows s sigma logQ ms xa xe = .ok (rows, xa', xe')) :
    rows.length = ms.length ∧ ∃ B, ∀ (i : ℕ) row, rows[i]? = some row →
      row.1.size = s.degree ∧ row.2.size = s.degree ∧
        ∃ m e : Poly ℤ, ms[i]? = some m ∧ e.size = s.degree ∧ e.BoundedBy B ∧
          pairPhase s logQ row = m.residue s.degree logQ + e.residue s.degree logQ := by
  induction ms generalizing rows xa xe xa' xe' with
  | nil =>
    obtain ⟨rfl, -⟩ := Prod.mk.inj (Outcome.pure_eq_ok_iff.1 h)
    exact ⟨rfl, 0, by simp⟩
  | cons m ms ih =>
    have hm := hms m (List.mem_cons_self ..)
    obtain ⟨⟨a, xa₁⟩, ha, h⟩ := Outcome.bind_eq_ok_iff.1 h
    obtain ⟨⟨e, xe₁⟩, he, h⟩ := Outcome.bind_eq_ok_iff.1 h
    obtain ⟨⟨rows₁, xa₂, xe₂⟩, hrows, h⟩ := Outcome.bind_eq_ok_iff.1 h
    obtain ⟨rfl, -⟩ := Prod.mk.inj (Outcome.pure_eq_ok_iff.1 h)
    obtain ⟨hlength, B, hB⟩ := ih (fun m' hm' => hms m' (List.mem_cons_of_mem _ hm')) hrows
    have ha := ((yields_uniformMod _ _ _).of_ok ha).size_eq
    have he := size_noisePoly he
    -- Noise that has been drawn is bounded by its own magnitude.
    refine ⟨by simp [hlength], max B (magnitude e.coeffs), ?_⟩
    intro i row hrow
    cases i with
    | zero =>
      obtain rfl := Option.some.inj hrow
      exact ⟨(isReduced_body hm ha he).size_eq, ha, m, e, rfl, he,
        e.boundedBy_magnitude.mono (le_max_right _ _),
        residue_body hm ha he⟩
    | succ i =>
      obtain ⟨hbody, hmask, m', e', hm', he', hB', hphase⟩ := hB i row hrow
      exact ⟨hbody, hmask, m', e', hm', he', hB'.mono (le_max_left _ _), hphase⟩

/-- A weight that is left out is a multiple of the modulus. -/
theorem residue_rowMessage (s : Secret) (logSpecial logPQ i : ℕ) :
    (rowMessage (s.squared.reduce logPQ) logSpecial logPQ i).residue s.degree logPQ =
      2 ^ (logSpecial * (i + 1)) * s.residue logPQ ^ 2 := by
  rw [rowMessage]
  split_ifs with hshift
  · rw [residue_scaleMod, residue_reduce le_rfl, s.residue_squared]
    push_cast
    rfl
  · have hzero : ((2 ^ (logSpecial * (i + 1)) : ℤ) : NegacyclicRing s.degree logPQ) = (0 : ℤ) :=
      NegacyclicRing.intCast_eq_of_modEq
        (Int.modEq_zero_iff_dvd.2 (pow_dvd_pow 2 (not_lt.1 hshift)))
    push_cast at hzero
    rw [residue_zero, hzero, zero_mul]

/-- Every generated key has the shape that relinearization relies on. -/
theorem exists_isFor_of_generate {p : Parameters} {k : RelinearizationKey} {xa xe xa' xe' : Source}
    (h : generate p s xa xe = .ok (k, xa', xe')) : ∃ B, k.IsFor p s B := by
  rw [generate] at h
  obtain ⟨logSpecial, hspecial, h⟩ := Outcome.bind_eq_ok_iff.1 h
  obtain ⟨logPQ, hpq, h⟩ := Outcome.bind_eq_ok_iff.1 h
  obtain ⟨top, htop, h⟩ := Outcome.bind_eq_ok_iff.1 h
  obtain ⟨logTop, hlogTop, h⟩ := Outcome.bind_eq_ok_iff.1 h
  obtain ⟨-, -, h⟩ := Outcome.bind_eq_ok_iff.1 h
  obtain ⟨-, -, h⟩ := Outcome.bind_eq_ok_iff.1 h
  obtain ⟨⟨rows, xa₁, xe₁⟩, hrows, h⟩ := Outcome.bind_eq_ok_iff.1 h
  obtain ⟨rfl, -⟩ := Prod.mk.inj (Outcome.pure_eq_ok_iff.1 h)
  have hsize : ∀ m ∈ (List.range (digitCount logTop logSpecial)).map
      (rowMessage (s.squared.reduce logPQ) logSpecial logPQ), m.size = s.degree := by
    intro m hm
    obtain ⟨i, -, rfl⟩ := List.mem_map.1 hm
    rw [rowMessage]
    split_ifs <;> simp [s.size_squared]
  obtain ⟨hlength, B, hB⟩ := encryptRows_ok hsize hrows
  refine ⟨B, hspecial, hpq, ⟨top, logTop, htop, hlogTop, by simp [hlength]⟩, ?_⟩
  intro i row hrow
  obtain ⟨hbody, hmask, m, e, hm, he, heB, hphase⟩ := hB i row hrow
  refine ⟨hbody, hmask, e, he, heB, ?_⟩
  obtain ⟨j, hj, rfl⟩ : ∃ j, (List.range (digitCount logTop logSpecial))[i]? = some j ∧
      rowMessage (s.squared.reduce logPQ) logSpecial logPQ j = m := by
    simpa [List.getElem?_map] using hm
  obtain ⟨hlt, hindex⟩ := List.getElem?_eq_some_iff.1 hj
  rw [List.getElem_range] at hindex
  rw [hphase, residue_rowMessage, hindex]

end RelinearizationKey

end Ckks

end CipherMonitor
