import CipherMonitor.Proofs.Lwe.Encryption

/-!
# What an encryption of a ring ciphertext carries

* `TorusPoly.yields_uniform`, `TorusPoly.yields_addNoise` — masks and noise have the degree of the ring.
* `TorusPoly.addNoise_eq_map` — noise does not depend on what it is added to.
* `Glwe.coeff_phase_ofMask`, `Glwe.of_encrypt` — an encryption carries its message, and a noise word in
  every coefficient.
* `Glwe.Checked.phase_of`, `Glwe.Checked.exists_encrypt` — the noise is the one that is drawn, whatever
  is encrypted.
-/

namespace CipherMonitor

open CipherMonitor.Poly

variable {w n : ℕ} {sigma : Float} {d : BoundedNormal} {xa xe xa' xe' : Source}

/-- What is drawn is drawn from some source. -/
theorem Draw.Yields.drawn {α : Type} {P : α → Prop} {draw : Draw α} (h : draw.Yields P) :
    draw.Yields fun a => ∃ s s', draw.run s = .ok (a, s') := by
  intro s
  have hrun := h s
  cases hs : draw.run s with
  | ok drawn => exact ⟨s, drawn.2, hs⟩
  | error fault =>
    rw [hs] at hrun
    exact hrun

theorem Torus.yields_noiseWord (hd : noise sigma = .ok d) :
    (noiseWord d w).Yields (IsNoise sigma) := by
  have hword : (noiseWord d w).Yields fun _ => True :=
    (d.yields_sample _).next fun _ => Draw.yields_pure trivial
  exact hword.drawn.mono fun _ ⟨s, s', hrun⟩ => ⟨d, s, s', hd, hrun⟩

theorem TorusPoly.yields_uniform (w n : ℕ) : (uniform w n).Yields fun a => a.size = n :=
  ((Draw.yields_torus w).many n).bind fun _ hcoeffs => Draw.yields_pure hcoeffs.1

theorem TorusPoly.total_uniform (w n : ℕ) : (uniform w n).Total :=
  ((Draw.total_torus w).many n).bind fun _ => Draw.total_pure _

/-- Noise on words is noise on zeros that is added to them. -/
theorem Torus.mapM_addNoise (d : BoundedNormal) (xs : List (BitVec w)) :
    xs.mapM (fun x => (x + ofFloat w ·) <$> d.sample) = List.zipWith (· + ·) xs <$>
      (List.replicate xs.length 0).mapM fun x => (x + ofFloat w ·) <$> d.sample := by
  induction xs with
  | nil => rfl
  | cons x xs ih => simp [List.replicate_succ, List.mapM_cons, ih]

/-- What noise adds to a polynomial does not depend on the polynomial. -/
theorem TorusPoly.addNoise_eq_map (p : TorusPoly w) (d : BoundedNormal) :
    addNoise p d = p.add <$> addNoise (Poly.zero p.size) d := by
  obtain ⟨⟨xs⟩⟩ := p
  unfold addNoise Torus.addNoise
  simp only [Array.mapM_eq_mapM_toList, bind_pure_comp, Torus.mapM_addNoise d xs]
  simp [Poly.add, Poly.zero, Poly.replicate, Poly.size]

/-- Noise on zeros is a noise word in every coefficient. -/
theorem TorusPoly.yields_addNoise (hd : noise sigma = .ok d) (n : ℕ) :
    (addNoise (Poly.zero n : TorusPoly w) d).Yields fun e =>
      e.size = n ∧ ∀ j < n, Torus.IsNoise sigma (e.coeff j) := by
  have hcoeff : ∀ x ∈ (Poly.zero n : TorusPoly w).coeffs.toList, (do
      let e ← d.sample
      pure (x + Torus.ofFloat w e) : Draw (BitVec w)).Yields (Torus.IsNoise sigma) := by
    intro x hx
    rw [Poly.zero, replicate, Array.toList_replicate] at hx
    obtain rfl := List.eq_of_mem_replicate hx
    simp only [zero_add]
    exact Torus.yields_noiseWord hd
  have hsize : (Poly.zero n : TorusPoly w).coeffs.toList.length = n := size_zero n
  unfold addNoise Torus.addNoise
  rw [Array.mapM_eq_mapM_toList]
  refine (((Draw.Yields.mapM hcoeff).map fun es hes => ?_).bind fun coeffs hcoeffs =>
    Draw.yields_pure hcoeffs)
  refine ⟨hes.1.trans hsize, fun j hj => ?_⟩
  have hlt : j < es.length := hj.trans_eq (hes.1.trans hsize).symm
  rw [coeff_of_lt hlt]
  exact hes.2 _ (List.getElem_mem hlt)

namespace Glwe

variable {s : GlweSecret} {m a e : TorusPoly w} {c : Glwe w}

theorem ofDegree_ofMask (hm : m.size = n) (ha : a.size = n) (he : e.size = n) :
    (ofMask s m a e).OfDegree n := by
  simp [OfDegree, ofMask, hm, ha, he]

/-- The mask cancels. -/
theorem coeff_phase_ofMask (hm : m.size = n) (ha : a.size = n) (he : e.size = n) {k : ℕ} (hk : k < n) :
    ((ofMask s m a e).phase s).coeff k = m.coeff k + e.coeff k := by
  rw [coeff_phase (ofDegree_ofMask hm ha he) hk, ofMask,
    coeff_add (by simp [ha, he, hk]) (hk.trans_eq hm.symm),
    coeff_add (by simp [ha, hk]) (hk.trans_eq he.symm), coeff_neg (by simp [ha, hk])]
  ring

/-- An encryption has the degree of the secret, and its message with noise for its phase. -/
theorem of_encrypt (hm : m.size = s.degree) (h : encrypt s m sigma xa xe = .ok (c, xa', xe')) :
    c.OfDegree s.degree ∧ ∀ k < s.degree, ∃ e, Torus.IsNoise sigma e ∧
      (c.phase s).coeff k = m.coeff k + e := by
  obtain ⟨⟨a, _⟩, ha, h⟩ := Outcome.bind_eq_ok_iff.1 h
  obtain ⟨d, hd, h⟩ := Outcome.bind_eq_ok_iff.1 h
  obtain ⟨⟨e, _⟩, he, h⟩ := Outcome.bind_eq_ok_iff.1 h
  cases Outcome.pure_eq_ok_iff.1 h
  have hmask : a.size = s.degree := ((TorusPoly.yields_uniform w s.degree) xa).of_ok ha
  obtain ⟨hsize, hnoise⟩ := ((TorusPoly.yields_addNoise hd s.degree) xe).of_ok he
  exact ⟨ofDegree_ofMask hm hmask hsize, fun k hk =>
    ⟨e.coeff k, hnoise k hk, coeff_phase_ofMask hm hmask hsize hk⟩⟩

namespace Checked

variable {old : Glwe w}

/-- The phase of a ciphertext of the degree of the secret. -/
theorem phase_of (hpower : s.degree.isPowerOfTwo) (hc : c.OfDegree s.degree) :
    phase s c = .ok (c.phase s) := by
  have hdegree : c.degree = s.degree := hc.1
  have hmask : (c.a.mulSmall s.coeffs).size = c.degree := by rw [size_mulSmall, hc.2, hdegree]
  rw [phase, degreeOk, require_of (by rwa [hdegree]), Outcome.ok_bind, require_of hc.2.symm,
    Outcome.ok_bind, require_of (.inl (by rw [hc.2, hdegree])), Outcome.ok_bind, ← hmask,
    ofFn_coeff]
  rfl

/-- The noise is drawn from its source alone; an encryption fails only where it cannot be drawn. -/
theorem encrypt_eq_map (hd : noise sigma = .ok d) (hold : old.OfDegree s.degree)
    (hm : m.size = s.degree) (xa xe : Source) :
    ∃ a xa', a.size = s.degree ∧ encrypt old s m sigma xa xe =
      ((TorusPoly.addNoise (Poly.zero s.degree) d).run xe).map
        fun (e, xe') => (ofMask s m a e, xa', xe') := by
  obtain ⟨⟨a, xa'⟩, ha⟩ := TorusPoly.total_uniform w s.degree xa
  refine ⟨a, xa', (TorusPoly.yields_uniform w s.degree xa).of_ok ha, ?_⟩
  rw [encrypt, require_of ⟨hold.1, hold.2, hm⟩, Outcome.ok_bind, Glwe.encrypt, ha, Outcome.ok_bind]
  dsimp only
  rw [hd, Outcome.ok_bind]
  cases (TorusPoly.addNoise (Poly.zero s.degree) d).run xe <;> rfl

theorem exists_encrypt (hpower : s.degree.isPowerOfTwo) (hd : noise sigma = .ok d)
    (he : (TorusPoly.addNoise (Poly.zero s.degree) d).run xe = .ok (e, xe'))
    (hold : old.OfDegree s.degree) (hm : m.size = s.degree) (xa : Source) :
    ∃ c xa', encrypt old s m sigma xa xe = .ok (c, xa', xe') ∧ phase s c = .ok (m.add e) := by
  obtain ⟨a, xa', ha, hencrypt⟩ := encrypt_eq_map hd hold hm xa xe
  have hsize : e.size = s.degree := ((TorusPoly.yields_addNoise hd s.degree) xe).of_ok he |>.1
  have hc := ofDegree_ofMask (s := s) hm ha hsize
  rw [he] at hencrypt
  refine ⟨_, xa', hencrypt, ?_⟩
  rw [phase_of hpower hc]
  congr 1
  refine phase_eq_of_coeff hc (by rw [size_add, hm, hsize, min_self]) fun k hk => ?_
  rw [coeff_phase_ofMask hm ha hsize hk, coeff_add (hk.trans_eq hm.symm) (hk.trans_eq hsize.symm)]

end Checked

end Glwe

end CipherMonitor
