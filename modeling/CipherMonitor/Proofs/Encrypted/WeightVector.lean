import CipherMonitor.Monitor.Suffix
import CipherMonitor.Proofs.Bridge.Contract

/-!
# Reading a word backwards

The weight of every state follows the acceptance of the word from that state.  A bit in front of the
word adds the noise of one choice, and a refresh takes all noise away that has gathered.

* `WeightVector.Carries` — the weights tell from which states a word is accepted.
* `WeightVector.Carries.transition`, `WeightVector.Carries.refresh` — one bit, and one refresh.
* `WeightVector.Carries.readAndRefresh` — one sample.
* `WeightVector.Carries.verdict` — the verdict of the weights.
-/

namespace CipherMonitor

open Torus

namespace WeightVector

/-- The weight of every state tells, up to noise of at most `err`, whether the word is accepted from
there. -/
structure Carries (s : GlweSecret) (a : Automaton) (word : List Bool) (err : ℕ)
    (v : WeightVector) : Prop where
  automaton_eq : v.automaton = a
  length_eq : v.weights.length = a.numStates
  ofDegree : ∀ q < a.numStates, (v.weight q).OfDegree s.degree
  distance_le : ∀ q < a.numStates,
    distance ((v.weight q).constantPhase s) (signWord (a.isFinal (a.run q word))) ≤ err

variable {b : SchemeBridge} {s : GlweSecret} {a : Automaton} {word : List Bool}
  {err eps delta rho : ℕ} {v : WeightVector}

theorem Carries.mono {err' : ℕ} (h : v.Carries s a word err) (herr : err ≤ err') :
    v.Carries s a word err' :=
  ⟨h.automaton_eq, h.length_eq, h.ofDegree, fun q hq => (h.distance_le q hq).trans herr⟩

/-- Before the first bit, the weights carry the empty word without noise. -/
theorem start_ok (hdegree : Poly.degreeOk s.degree = .ok ()) (hpos : 0 < s.degree) :
    ∃ v, start a s.degree = .ok v ∧ v.Carries s a [] 0 := by
  refine ⟨⟨a, (List.range a.numStates).map fun q =>
    Glwe.constant s.degree (signWord (a.isFinal q))⟩, ?_, rfl, by simp, ?_, ?_⟩
  · rw [start, hdegree]
    rfl
  · intro q hq
    simpa [weight, hq] using Glwe.ofDegree_constant s.degree _
  · intro q hq
    simp [weight, hq, Glwe.constantPhase_constant hpos]

/-- A vector is built state by state. -/
theorem exists_carries {f : ℕ → Outcome (Glwe 32)} (hf : ∀ q < a.numStates, ∃ w, f q = .ok w ∧
    w.OfDegree s.degree ∧
      distance (w.constantPhase s) (signWord (a.isFinal (a.run q word))) ≤ err) :
    ∃ ws, (List.range a.numStates).mapM f = .ok ws ∧
      (⟨a, ws⟩ : WeightVector).Carries s a word err := by
  obtain ⟨ws, hws, hlength, hentry⟩ := Outcome.exists_mapM_range hf
  exact ⟨ws, hws, rfl, hlength, fun q hq => (hentry q hq _).1, fun q hq => (hentry q hq _).2⟩

/-- The weight of one state after a bit. -/
theorem Carries.stepAt {t : Fourier} {g : PreparedGgsw} {bit : Bool} (hpos : 0 < s.degree)
    (ha : a.WellFormed) (h : v.Carries s a word err) (hg : g.Encrypts t s eps bit) {q : ℕ}
    (hq : q < a.numStates) :
    ∃ w, v.stepAt t g q = .ok w ∧ w.OfDegree s.degree ∧
      distance (w.constantPhase s) (signWord (a.isFinal (a.run q (bit :: word)))) ≤ err + eps := by
  have hnext : ∀ bit, a.next q bit < a.numStates := ha.next_lt q hq
  rw [WeightVector.stepAt, h.automaton_eq, Automaton.run_cons]
  split_ifs with hsame
  · -- Both bits lead to one successor, whose weight is copied without a product.
    have hbit : a.next q bit = a.next q false := by cases bit <;> simp [hsame]
    refine ⟨_, rfl, h.ofDegree _ (hnext false), ?_⟩
    rw [hbit]
    exact (h.distance_le _ (hnext false)).trans (Nat.le_add_right _ _)
  · obtain ⟨w, hw, hdegree, hdist⟩ := hg.selectChecked hpos (h.ofDegree _ (hnext true))
      (h.ofDegree _ (hnext false))
    refine ⟨w, hw, hdegree, ?_⟩
    have hchosen := h.distance_le _ (hnext bit)
    rw [Nat.add_comm err]
    cases bit
    · exact (distance_triangle _ _ _).trans (Nat.add_le_add hdist hchosen)
    · exact (distance_triangle _ _ _).trans (Nat.add_le_add hdist hchosen)

/-- A bit in front of the word. -/
theorem Carries.transition {t : Fourier} {g : PreparedGgsw} {bit : Bool} (hpos : 0 < s.degree)
    (ha : a.WellFormed) (h : v.Carries s a word err) (hg : g.Encrypts t s eps bit) :
    ∃ v', v.transition t g = .ok v' ∧ v'.Carries s a (bit :: word) (err + eps) := by
  obtain ⟨ws, hws, hcarries⟩ := exists_carries fun q hq => h.stepAt hpos ha hg hq
  refine ⟨⟨a, ws⟩, ?_, hcarries⟩
  rw [WeightVector.transition, h.length_eq, hws, ← h.automaton_eq]
  rfl

/-- The bits of a sample in front of the word; the last one is read first. -/
theorem Carries.readSample {bits : List PreparedGgsw} {values : List Bool} (hpos : 0 < s.degree)
    (ha : a.WellFormed) (h : v.Carries s a word err)
    (hbits : List.Forall₂ (PreparedGgsw.Encrypts b.tables s eps) bits values) :
    ∃ v', v.readSample b bits = .ok v' ∧
      v'.Carries s a (values ++ word) (err + values.length * eps) := by
  -- Reading is a loop over the reversed sample, so the last bit of the list is the first to go in.
  have hloop : ∀ {gs : List PreparedGgsw} {bs : List Bool},
      List.Forall₂ (PreparedGgsw.Encrypts b.tables s eps) gs bs →
      ∀ {v : WeightVector} {word : List Bool} {err : ℕ}, v.Carries s a word err →
        ∃ v', gs.foldlM (fun v g => v.transition b.tables g) v = .ok v' ∧
          v'.Carries s a (bs.reverse ++ word) (err + bs.length * eps) := by
    intro gs bs hgs
    induction hgs with
    | nil =>
      intro v word err hv
      exact ⟨v, rfl, by simpa using hv⟩
    | @cons g bit gs bs hg _ ih =>
      intro v word err hv
      obtain ⟨v₁, hv₁, hcarries⟩ := hv.transition hpos ha hg
      obtain ⟨v', hv', hcarries'⟩ := ih hcarries
      refine ⟨v', by rw [List.foldlM_cons, hv₁]; exact hv', ?_⟩
      rw [List.reverse_cons, List.append_assoc, List.length_cons, Nat.add_mul, Nat.one_mul,
        Nat.add_comm (bs.length * eps), ← Nat.add_assoc]
      exact hcarries'
  have := hloop (List.forall₂_reverse_iff.2 hbits) h
  rwa [List.reverse_reverse, List.length_reverse] at this

/-- A refresh, while the noise is small enough. -/
theorem Carries.refresh (hs : s.degree = b.tfhe.midDegree) (hb : b.Refreshes s delta rho)
    (h : v.Carries s a word err) (herr : err ≤ delta) :
    ∃ v', v.refresh b = .ok v' ∧ v'.Carries s a word rho := by
  have hpos : 0 < s.degree := hs ▸ hb.degreeOk.2
  have hweight : ∀ q < a.numStates, ∃ w, refreshWeight b (v.weight q) = .ok w ∧
      w.OfDegree s.degree ∧
        distance (w.constantPhase s) (signWord (a.isFinal (a.run q word))) ≤ rho := by
    intro q hq
    obtain ⟨hextract, hdimension, hphase⟩ := Glwe.sampleExtract_zero hpos (h.ofDegree q hq)
    obtain ⟨w, hw, hdegree, hdist⟩ := hb.signRotate hs hdimension
      (hphase ▸ (h.distance_le q hq).trans herr)
    refine ⟨w, ?_, hdegree, hdist⟩
    rw [refreshWeight, hextract]
    exact hw
  obtain ⟨ws, hws, hcarries⟩ := exists_carries hweight
  have hmap : v.weights = (List.range a.numStates).map v.weight :=
    List.ext_getElem (by simp [h.length_eq]) (by simp +contextual [weight])
  refine ⟨⟨a, ws⟩, ?_, hcarries⟩
  rw [WeightVector.refresh, hmap, List.mapM_map]
  change ((List.range a.numStates).mapM fun q => refreshWeight b (v.weight q)) >>= _ = _
  rw [hws, ← h.automaton_eq]
  rfl

/-- The noise after a number of samples of at most `predicates` bits: that of the last refresh, and
that of the samples since then. -/
def noiseAfter (rho eps predicates bootInterval count : ℕ) : ℕ :=
  rho + count % bootInterval * (predicates * eps)

/-- One sample, followed by a refresh when it is due. -/
theorem Carries.readAndRefresh {bits : List PreparedGgsw} {values : List Bool}
    {predicates bootInterval count : ℕ} (hs : s.degree = b.tfhe.midDegree) (ha : a.WellFormed)
    (hb : b.Refreshes s delta rho) (hinterval : 0 < bootInterval)
    (hbound : rho + bootInterval * (predicates * eps) ≤ delta)
    (h : v.Carries s a word (noiseAfter rho eps predicates bootInterval count))
    (hbits : List.Forall₂ (PreparedGgsw.Encrypts b.tables s eps) bits values)
    (hlength : values.length ≤ predicates) :
    ∃ v', v.readAndRefresh b bootInterval (count + 1) bits = .ok v' ∧
      v'.Carries s a (values ++ word) (noiseAfter rho eps predicates bootInterval (count + 1)) := by
  have hpos : 0 < s.degree := hs ▸ hb.degreeOk.2
  obtain ⟨v₁, hv₁, hcarries⟩ := h.readSample hpos ha hbits
  -- Before a refresh that is due, the noise of this sample counts as well.
  have hnoise : noiseAfter rho eps predicates bootInterval count + values.length * eps ≤
      rho + (count % bootInterval + 1) * (predicates * eps) := by
    rw [noiseAfter, Nat.add_mul, Nat.one_mul, Nat.add_assoc]
    gcongr
  have hlt := Nat.mod_lt count hinterval
  have hmod : (count + 1) % bootInterval = (count % bootInterval + 1) % bootInterval :=
    (Nat.mod_add_mod count bootInterval 1).symm
  rw [WeightVector.readAndRefresh, hv₁, Outcome.ok_bind]
  by_cases hdue : (count + 1) % bootInterval = 0
  · have hsmall : rho + (count % bootInterval + 1) * (predicates * eps) ≤ delta :=
      (Nat.add_le_add_left (Nat.mul_le_mul_right _ hlt) _).trans hbound
    obtain ⟨v', hv', hcarries'⟩ := hcarries.refresh hs hb (hnoise.trans hsmall)
    refine ⟨v', ?_, hcarries'.mono (Nat.le_add_right _ _)⟩
    rw [if_pos hdue]
    exact hv'
  · have hnext : count % bootInterval + 1 < bootInterval := by
      refine lt_of_le_of_ne hlt fun heq => hdue ?_
      rw [hmod, heq, Nat.mod_self]
    refine ⟨v₁, ?_, hcarries.mono ?_⟩
    · rw [if_neg hdue]
      rfl
    · change _ ≤ rho + (count + 1) % bootInterval * (predicates * eps)
      rw [hmod, Nat.mod_eq_of_lt hnext]
      exact hnoise

/-- The verdict carries the acceptance of the word. -/
theorem Carries.verdict (hpos : 0 < s.degree) (ha : a.WellFormed) (h : v.Carries s a word err) :
    distance (v.verdict.phase s.toLwe) (signWord (a.accepts word)) ≤ err := by
  rw [WeightVector.verdict, h.automaton_eq,
    (Glwe.sampleExtract_zero hpos (h.ofDegree _ ha.initial_lt)).2.2]
  exact h.distance_le _ ha.initial_lt

end WeightVector

end CipherMonitor
