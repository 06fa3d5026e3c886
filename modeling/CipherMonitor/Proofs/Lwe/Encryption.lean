import CipherMonitor.Proofs.Glwe.Phase
import CipherMonitor.Proofs.Source.Draw

/-!
# What an encryption carries

* `Torus.IsNoise` — the noise words that can be drawn.
* `Lwe.phase_ofMask`, `Lwe.of_encrypt` — an encryption carries its message and a noise word.
* `Lwe.Checked.exists_encrypt` — the noise word is the one that is drawn, whatever is encrypted.
-/

namespace CipherMonitor

variable {w : ℕ} {sigma : Float} {xa xe xa' xe' : Source}

/-- A noise word that is drawn from some source. -/
def Torus.IsNoise (sigma : Float) (e : BitVec w) : Prop :=
  ∃ d xe xe', noise sigma = .ok d ∧ (noiseWord d w).run xe = .ok (e, xe')

namespace Lwe

variable {s : LweSecret} {m e : BitVec w} {mask : List (BitVec w)} {c : Lwe w}

theorem ofDimension_ofMask (h : mask.length = s.dimension) :
    (ofMask s m e mask).OfDimension s.dimension := by
  simp [OfDimension, ofMask, ofParts, h]

theorem phase_ofMask (s : LweSecret) (m e : BitVec w) (mask : List (BitVec w)) :
    (ofMask s m e mask).phase s = m + e := by
  rw [phase, ofMask, body_ofParts, mask_ofParts, sub_add_cancel]

/-- An encryption has the dimension of the secret, and its message with noise for its phase. -/
theorem of_encrypt (h : encrypt s m sigma xa xe = .ok (c, xa', xe')) :
    c.OfDimension s.dimension ∧ ∃ e, Torus.IsNoise sigma e ∧ c.phase s = m + e := by
  obtain ⟨⟨mask, _⟩, hmask, h⟩ := Outcome.bind_eq_ok_iff.1 h
  obtain ⟨d, hd, h⟩ := Outcome.bind_eq_ok_iff.1 h
  obtain ⟨⟨e, _⟩, he, h⟩ := Outcome.bind_eq_ok_iff.1 h
  cases Outcome.pure_eq_ok_iff.1 h
  have hlength := (((Draw.yields_torus w).many s.dimension) xa).of_ok hmask
  exact ⟨ofDimension_ofMask hlength.1, e, ⟨d, xe, _, hd, he⟩, phase_ofMask s m e mask⟩

namespace Checked

variable {d : BoundedNormal} {old : Lwe w}

/-- The noise is drawn from its source alone; an encryption fails only where it cannot be drawn. -/
theorem encrypt_eq_map (hd : noise sigma = .ok d) (hold : old.OfDimension s.dimension)
    (m : BitVec w) (xa xe : Source) :
    ∃ mask xa', mask.length = s.dimension ∧ encrypt old s m sigma xa xe =
      ((Torus.noiseWord d w).run xe).map fun (e, xe') => (ofMask s m e mask, xa', xe') := by
  obtain ⟨⟨mask, xa'⟩, hmask⟩ := (Draw.total_torus w).many s.dimension xa
  have hlength := ((Draw.yields_torus w).many s.dimension xa).of_ok hmask
  refine ⟨mask, xa', hlength.1, ?_⟩
  rw [encrypt, ofDimension_eq_ok_iff.2 hold, Outcome.ok_bind, Lwe.encrypt, hmask, Outcome.ok_bind]
  dsimp only
  rw [hd, Outcome.ok_bind]
  cases (Torus.noiseWord d w).run xe <;> rfl

theorem exists_encrypt (hd : noise sigma = .ok d) (he : (Torus.noiseWord d w).run xe = .ok (e, xe'))
    (hold : old.OfDimension s.dimension) (m : BitVec w) (xa : Source) :
    ∃ c xa', encrypt old s m sigma xa xe = .ok (c, xa', xe') ∧ phase s c = .ok (m + e) := by
  obtain ⟨mask, xa', hlength, hencrypt⟩ := encrypt_eq_map hd hold m xa xe
  rw [he] at hencrypt
  exact ⟨_, xa', hencrypt, phase_eq_ok_iff.2 ⟨ofDimension_ofMask hlength, phase_ofMask s m e mask⟩⟩

end Checked

end Lwe

end CipherMonitor
