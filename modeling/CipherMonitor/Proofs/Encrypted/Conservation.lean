import CipherMonitor.Proofs.Encrypted.StateVector

/-!
# The states of a vector keep their sum

A bit hands the ciphertext of every state on to its successors: all of it to a single successor, or the
product with the bit to one of two and the rest to the other.  What the shares add up to does not depend
on the product, so the sum over all states stays exactly the same, whatever the noise and the rounding
of the products are and even for bits that encrypt no bit.

* `StateVector.total` — the sum of the ciphertexts of all states.
* `StateVector.Shape`, `StateVector.Reachable` — the vectors that the operations give.
* `StateVector.stepWith`, `StateVector.Moves` — steps with given products.
* `StateVector.Shape.total_stepWith` — one step.
* `StateVector.Shape.transition_eq_ok_iff` — when a transition succeeds.
* `StateVector.Shape.verdict_of_all_final` — the verdict when all states accept.
* `StateVector.total_conserved` — sequences of steps, and what they make of a new vector.
-/

namespace CipherMonitor

open Finset Torus

/-! ### Sums of ring ciphertexts -/

namespace Glwe

variable {w n k : ℕ} {c d : Glwe w}

theorem ext_coeff (hc : c.OfDegree n) (hd : d.OfDegree n) (hb : ∀ i < n, c.b.coeff i = d.b.coeff i)
    (ha : ∀ i < n, c.a.coeff i = d.a.coeff i) : c = d := by
  obtain ⟨cb, ca⟩ := c
  obtain ⟨db, da⟩ := d
  obtain ⟨hcb, hca⟩ := hc
  obtain ⟨hdb, hda⟩ := hd
  congr 1
  · exact Poly.ext_coeff (hcb.trans hdb.symm) fun i hi => hb i (hi.trans_eq hcb)
  · exact Poly.ext_coeff (hca.trans hda.symm) fun i hi => ha i (hi.trans_eq hca)

/-- Both coefficients at an index follow sums and differences. -/
theorem isAdditive_coeff_b {i : ℕ} (hi : i < n) : IsAdditive n fun c => c.b.coeff i where
  zero := Poly.coeff_zero n i
  add := fun hc hd => Poly.coeff_add (hi.trans_eq hc.1.symm) (hi.trans_eq hd.1.symm)
  sub := fun hc hd => Poly.coeff_sub (hi.trans_eq hc.1.symm) (hi.trans_eq hd.1.symm)

theorem isAdditive_coeff_a {i : ℕ} (hi : i < n) : IsAdditive n fun c => c.a.coeff i where
  zero := Poly.coeff_zero n i
  add := fun hc hd => Poly.coeff_add (hi.trans_eq hc.2.symm) (hi.trans_eq hd.2.symm)
  sub := fun hc hd => Poly.coeff_sub (hi.trans_eq hc.2.symm) (hi.trans_eq hd.2.symm)

theorem ofDegree_foldl_add {l : List (Glwe w)} (hl : ∀ c ∈ l, c.OfDegree n) {start : Glwe w}
    (hstart : start.OfDegree n) : (l.foldl add start).OfDegree n := by
  induction l generalizing start with
  | nil => exact hstart
  | cons c l ih =>
    obtain ⟨hc, hl⟩ := List.forall_mem_cons.1 hl
    exact ih hl (ofDegree_add hstart hc)

theorem IsAdditive.foldl_add {φ : Glwe 32 → BitVec 32} (hφ : IsAdditive n φ) {l : List (Glwe 32)}
    (hl : ∀ c ∈ l, c.OfDegree n) {start : Glwe 32} (hstart : start.OfDegree n) :
    φ (l.foldl Glwe.add start) = φ start + (l.map φ).sum := by
  induction l generalizing start with
  | nil => simp
  | cons c l ih =>
    obtain ⟨hc, hl⟩ := List.forall_mem_cons.1 hl
    rw [List.foldl_cons, ih hl (ofDegree_add hstart hc), hφ.add hstart hc, List.map_cons,
      List.sum_cons, add_assoc]

end Glwe

/-! ### Sums of extracted ciphertexts -/

namespace Lwe

variable {w : ℕ}

theorem add_assoc (c d e : Lwe w) : (c.add d).add e = c.add (d.add e) :=
  congrArg Lwe.mk (Array.ext (by simp [add, Nat.min_assoc]) (by simp [add, BitVec.add_assoc]))

theorem ofParts_add_ofParts (x y : BitVec w) (m m' : List (BitVec w)) :
    (ofParts x m).add (ofParts y m') = ofParts (x + y) (List.zipWith (· + ·) m m') := by
  simp [add, ofParts]

theorem trivial_add_trivial (n : ℕ) (x y : BitVec w) :
    (trivial n x).add (trivial n y) = trivial n (x + y) := by
  simp [trivial, ofParts_add_ofParts]

end Lwe

namespace Glwe

variable {w n k : ℕ} {c d : Glwe w}

theorem sampleExtract_add (hc : c.OfDegree n) (hd : d.OfDegree n) (hk : k < n) :
    (c.add d).sampleExtract k = (c.sampleExtract k).add (d.sampleExtract k) := by
  have hsum : (c.add d).OfDegree n := ofDegree_add hc hd
  obtain ⟨hcb, hca⟩ := hc
  obtain ⟨hdb, hda⟩ := hd
  rw [sampleExtract, sampleExtract, sampleExtract, Lwe.ofParts_add_ofParts, degree, degree, degree,
    hsum.1, hcb, hdb, List.zipWith_map, List.zipWith_self]
  congr 1
  · exact Poly.coeff_add (hk.trans_eq hcb.symm) (hk.trans_eq hdb.symm)
  · refine List.map_congr_left fun j hj => ?_
    rw [List.mem_range] at hj
    rw [add]
    split_ifs with hjk
    · exact Poly.coeff_add (by omega) (by omega)
    · rw [Poly.coeff_add (by omega) (by omega), neg_add]

theorem constant_zero (n : ℕ) : (constant n 0 : Glwe w) = zero n := by
  refine ext_coeff (ofDegree_constant n 0) (ofDegree_zero n) (fun i hi => ?_) fun _ _ => rfl
  rw [constant, Poly.coeff_constant hi, zero, Poly.coeff_zero, ite_self]

theorem sampleExtract_constant (hn : 0 < n) (m : BitVec w) :
    (constant n m).sampleExtract 0 = Lwe.trivial n m := by
  rw [sampleExtract, degree, (ofDegree_constant n m).1, constant, Poly.coeff_constant hn, if_pos rfl,
    Lwe.trivial]
  congr 1
  simp

end Glwe

namespace StateVector

variable {a : Automaton} {b : SchemeBridge} {n : ℕ} {v v' : StateVector} {t : Fourier}
  {bit : PreparedGgsw} {φ : Glwe 32 → BitVec 32} {products : ℕ → Glwe 32 → Glwe 32}

/-! ### Vectors -/

/-- The sum of the ciphertexts of all states. -/
def total (v : StateVector) : Glwe 32 := v.states.foldl Glwe.add (Glwe.zero v.degree)

/-- A vector with one ciphertext of degree `n` for every state of the automaton. -/
structure Shape (a : Automaton) (n : ℕ) (v : StateVector) : Prop where
  automaton_eq : v.automaton = a
  length_eq : v.states.length = a.numStates
  degree_pos : 0 < n
  ofDegree : ∀ c ∈ v.states, c.OfDegree n

/-- The vectors that an automaton can be in, for any bits and any bridges. -/
inductive Reachable (a : Automaton) : StateVector → Prop
  | start {n : ℕ} {v : StateVector} : StateVector.start a n = .ok v → Reachable a v
  | transition {v v' : StateVector} {t : Fourier} {bit : PreparedGgsw} :
    Reachable a v → v.transition t bit = .ok v' → Reachable a v'
  | refresh {v v' : StateVector} {b : SchemeBridge} :
    Reachable a v → v.refresh b = .ok v' → Reachable a v'

theorem Shape.ofDegree_at (h : v.Shape a n) {q : ℕ} (hq : q < a.numStates) : (v.at? q).OfDegree n := by
  have hq : q < v.states.length := hq.trans_eq h.length_eq.symm
  rw [at?, List.getD_eq_getElem _ _ hq]
  exact h.ofDegree _ (List.getElem_mem hq)

theorem Shape.degree_eq (ha : a.WellFormed) (h : v.Shape a n) : v.degree = n := by
  have hpos : 0 < a.numStates := (Nat.zero_le _).trans_lt ha.initial_lt
  exact (degree_at_zero (h.length_eq ▸ hpos)).symm.trans (h.ofDegree_at hpos).1

theorem Shape.states_eq (h : v.Shape a n) : v.states = (List.range a.numStates).map v.at? :=
  List.ext_getElem (by simp [h.length_eq]) (by simp +contextual [at?])

theorem Shape.ofDegree_total (ha : a.WellFormed) (h : v.Shape a n) : v.total.OfDegree n := by
  rw [total, h.degree_eq ha]
  exact Glwe.ofDegree_foldl_add h.ofDegree (Glwe.ofDegree_zero n)

/-- What follows sums can be summed over the states. -/
theorem Shape.apply_total (ha : a.WellFormed) (h : v.Shape a n) (hφ : Glwe.IsAdditive n φ) :
    φ v.total = ∑ q ∈ range a.numStates, φ (v.at? q) := by
  rw [total, h.degree_eq ha, hφ.foldl_add h.ofDegree (Glwe.ofDegree_zero n), hφ.zero, zero_add,
    h.states_eq, List.map_map]
  rfl

/-- The total is the coefficientwise sum over the states. -/
theorem Shape.total_eq_iff (ha : a.WellFormed) (h : v.Shape a n) {c : Glwe 32} (hc : c.OfDegree n) :
    v.total = c ↔
      (∀ i < n, ∑ q ∈ range a.numStates, (v.at? q).b.coeff i = c.b.coeff i) ∧
      ∀ i < n, ∑ q ∈ range a.numStates, (v.at? q).a.coeff i = c.a.coeff i := by
  have hb := fun i hi => h.apply_total ha (Glwe.isAdditive_coeff_b (n := n) (i := i) hi)
  have ha' := fun i hi => h.apply_total ha (Glwe.isAdditive_coeff_a (n := n) (i := i) hi)
  constructor
  · rintro rfl
    exact ⟨fun i hi => (hb i hi).symm, fun i hi => (ha' i hi).symm⟩
  · rintro ⟨hb', ha''⟩
    exact Glwe.ext_coeff (h.ofDegree_total ha) hc (fun i hi => (hb i hi).trans (hb' i hi))
      fun i hi => (ha' i hi).trans (ha'' i hi)

/-! ### One step -/

/-- What the successors of state `q` receive from its ciphertext `s`, when its product with the bit is
`product`. -/
def sharesWith (a : Automaton) (product : Glwe 32) (q : ℕ) (s : Glwe 32) : List (ℕ × Glwe 32) :=
  if a.next q false = a.next q true then [(a.next q false, s)]
  else [(a.next q true, product), (a.next q false, s.sub product)]

/-- What all states hand on, when the product of the ciphertext `s` of state `q` is `products q s`. -/
def handedOn (products : ℕ → Glwe 32 → Glwe 32) (v : StateVector) : List (ℕ × Glwe 32) :=
  v.states.zipIdx.flatMap fun (s, q) => sharesWith v.automaton (products q s) q s

/-- The vector after a bit of degree `n` with these products. -/
def stepWith (n : ℕ) (products : ℕ → Glwe 32 → Glwe 32) (v : StateVector) : StateVector :=
  { v with states := (List.range v.states.length).map (gather n (v.handedOn products)) }

theorem step_eq_stepWith (v : StateVector) (t : Fourier) (bit : PreparedGgsw) :
    v.step t bit = v.stepWith bit.degree fun _ => bit.externalProduct t := rfl

/-- The products that a step takes have the degree. -/
def ProductsOfDegree (a : Automaton) (n : ℕ) (products : ℕ → Glwe 32 → Glwe 32) : Prop :=
  ∀ q < a.numStates, a.next q false ≠ a.next q true → ∀ s : Glwe 32, s.OfDegree n →
    (products q s).OfDegree n

/-- The vectors that steps with any products lead to. -/
inductive Moves (a : Automaton) (n : ℕ) (v : StateVector) : StateVector → Prop
  | refl : Moves a n v v
  | step {v' : StateVector} (products : ℕ → Glwe 32 → Glwe 32) :
    Moves a n v v' → ProductsOfDegree a n products → Moves a n v (v'.stepWith n products)

/-- The shares of a state go to states, have the degree and add up to its ciphertext. -/
theorem sharesWith_spec (ha : a.WellFormed) {q : ℕ} (hq : q < a.numStates) {s product : Glwe 32}
    (hs : s.OfDegree n) (hproduct : a.next q false ≠ a.next q true → product.OfDegree n) :
    (∀ x ∈ sharesWith a product q s, x.1 < a.numStates ∧ x.2.OfDegree n) ∧
    ∀ {φ : Glwe 32 → BitVec 32}, Glwe.IsAdditive n φ →
      ((sharesWith a product q s).map fun x => φ x.2).sum = φ s := by
  rw [sharesWith]
  split_ifs with hsame
  · refine ⟨fun x hx => ?_, fun _ => by simp⟩
    obtain rfl := List.mem_singleton.1 hx
    exact ⟨ha.next_lt q hq false, hs⟩
  · have hproduct := hproduct hsame
    refine ⟨fun x hx => ?_, fun hφ => by simp [hφ.sub hs hproduct]⟩
    rcases List.mem_pair.1 hx with rfl | rfl
    · exact ⟨ha.next_lt q hq true, hproduct⟩
    · exact ⟨ha.next_lt q hq false, Glwe.ofDegree_sub hs hproduct⟩

/-- All states together receive what is handed on. -/
theorem sum_received {N : ℕ} {l : List (ℕ × Glwe 32)} (hl : ∀ x ∈ l, x.1 < N) :
    ∑ q' ∈ range N, (l.map fun x => if x.1 = q' then φ x.2 else 0).sum =
      (l.map fun x => φ x.2).sum := by
  induction l with
  | nil => simp
  | cons x l ih =>
    obtain ⟨hx, hl⟩ := List.forall_mem_cons.1 hl
    simp only [List.map_cons, List.sum_cons]
    rw [sum_add_distrib, ih hl, sum_ite_eq, if_pos (mem_range.2 hx)]

/-- The states hand on what they have. -/
theorem Shape.handedOn_spec (ha : a.WellFormed) (h : v.Shape a n)
    (hp : ProductsOfDegree a n products) :
    (∀ x ∈ v.handedOn products, x.1 < a.numStates ∧ x.2.OfDegree n) ∧
    ∀ {φ : Glwe 32 → BitVec 32}, Glwe.IsAdditive n φ →
      ((v.handedOn products).map fun x => φ x.2).sum = φ v.total := by
  have hshares : ∀ q < a.numStates, _ := fun q hq =>
    sharesWith_spec ha hq (h.ofDegree_at hq) fun hne => hp q hq hne _ (h.ofDegree_at hq)
  rw [handedOn, zipIdx_states h.length_eq, h.automaton_eq]
  refine ⟨fun x hx => ?_, fun hφ => ?_⟩
  · obtain ⟨y, hy, hx⟩ := List.mem_flatMap.1 hx
    obtain ⟨q, hq, rfl⟩ := List.mem_map.1 hy
    exact (hshares q (List.mem_range.1 hq)).1 x hx
  · rw [h.apply_total ha hφ, List.map_flatMap, List.flatMap_def, List.sum_flatten, List.map_map,
      List.map_map]
    exact sum_congr rfl fun q hq => (hshares q (mem_range.1 hq)).2 hφ

/-- A step keeps the total, whatever the products are. -/
theorem Shape.total_stepWith (ha : a.WellFormed) (h : v.Shape a n)
    (hp : ProductsOfDegree a n products) :
    (v.stepWith n products).Shape a n ∧ (v.stepWith n products).total = v.total := by
  obtain ⟨hmem, hsum⟩ := h.handedOn_spec ha hp
  have hat : ∀ q' < a.numStates,
      (v.stepWith n products).at? q' = gather n (v.handedOn products) q' := by
    intro q' hq'
    simp [at?, stepWith, h.length_eq, hq']
  have hshape : (v.stepWith n products).Shape a n := by
    refine ⟨h.automaton_eq, by simp [stepWith, h.length_eq], h.degree_pos, fun c hc => ?_⟩
    obtain ⟨q', -, rfl⟩ := List.mem_map.1 hc
    exact ((Glwe.isAdditive_coeff_b h.degree_pos).gather (fun x hx => (hmem x hx).2) q').1
  have htotal : ∀ {φ : Glwe 32 → BitVec 32}, Glwe.IsAdditive n φ →
      φ (v.stepWith n products).total = φ v.total := by
    intro φ hφ
    rw [hshape.apply_total ha hφ, ← hsum hφ, ← sum_received fun x hx => (hmem x hx).1]
    refine sum_congr rfl fun q' hq' => ?_
    rw [hat q' (mem_range.1 hq'), (hφ.gather (fun x hx => (hmem x hx).2) q').2]
  exact ⟨hshape, Glwe.ext_coeff (hshape.ofDegree_total ha) (h.ofDegree_total ha)
    (fun i hi => htotal (Glwe.isAdditive_coeff_b hi)) fun i hi => htotal (Glwe.isAdditive_coeff_a hi)⟩

/-- So does a sequence of steps. -/
theorem Moves.total_eq (ha : a.WellFormed) (h : v.Shape a n) (hv : Moves a n v v') :
    v'.Shape a n ∧ v'.total = v.total := by
  induction hv with
  | refl => exact ⟨h, rfl⟩
  | step products _ hp ih =>
    obtain ⟨hshape, htotal⟩ := ih.1.total_stepWith ha hp
    exact ⟨hshape, htotal.trans ih.2⟩

/-! ### Transitions -/

theorem fits_eq_ok_iff {q : ℕ} {s : Glwe 32} (hs : s.OfDegree n) :
    fits a t bit q s = .ok () ↔
      (a.next q false ≠ a.next q true → t.n = n ∧ bit.gadget.base2k < 64) ∧ bit.rows ≠ [] ∧
        bit.degree = n := by
  have hdegree : s.degree = n := hs.1
  have hcheck : (bit.degreeChecked >>= fun m => require (s.b.size = m ∧ s.a.size = m) .shape) =
      .ok () ↔ bit.rows ≠ [] ∧ bit.degree = n := by
    simp only [PreparedGgsw.degreeChecked, Outcome.bind_eq_ok_iff, require_eq_ok_iff,
      Outcome.pure_eq_ok_iff, hs.1, hs.2, and_self]
    constructor
    · rintro ⟨_, ⟨-, hrows, hm⟩, hn⟩
      exact ⟨hrows, hm.trans hn.symm⟩
    · rintro ⟨hrows, hn⟩
      exact ⟨n, ⟨(), hrows, hn⟩, rfl⟩
  rw [fits]
  split_ifs with hsame
  · rw [hcheck]
    exact (and_iff_right fun hne => absurd hsame hne).symm
  · rw [Outcome.check_bind_eq_ok_iff, hcheck, PreparedGgsw.fits_eq_ok_iff, hdegree, hs.2]
    constructor
    · rintro ⟨⟨ht, -, -, hbase, -⟩, hshape⟩
      exact ⟨fun _ => ⟨ht, hbase⟩, hshape⟩
    · rintro ⟨hfits, hrows, hn⟩
      obtain ⟨ht, hbase⟩ := hfits hsame
      exact ⟨⟨ht, hrows, hn, hbase, le_rfl⟩, hrows, hn⟩

/-- A transition succeeds for every bit of the degree whose digits fit a machine word, and it is a step
with the products of this bit.  The tables and the digits only matter when some state has two
successors. -/
theorem Shape.transition_eq_ok_iff (ha : a.WellFormed) (h : v.Shape a n) :
    v.transition t bit = .ok v' ↔
      ((∃ q < a.numStates, a.next q false ≠ a.next q true) → t.n = n ∧ bit.gadget.base2k < 64) ∧
      bit.rows ≠ [] ∧ bit.degree = n ∧ v' = v.stepWith n fun _ => bit.externalProduct t := by
  have hchecks : (v.states.zipIdx.forM fun x => fits v.automaton t bit x.2 x.1) = .ok () ↔
      ∀ q < a.numStates, fits a t bit q (v.at? q) = .ok () := by
    rw [Outcome.forM_eq_ok_iff, zipIdx_states h.length_eq, h.automaton_eq]
    simp
  have hrewrite : v.transition t bit =
      (v.states.zipIdx.forM fun x => fits v.automaton t bit x.2 x.1) >>= fun _ =>
        pure (v.step t bit) := rfl
  rw [hrewrite, Outcome.check_bind_eq_ok_iff, hchecks, Outcome.pure_eq_ok_iff, step_eq_stepWith]
  constructor
  · rintro ⟨hfits, rfl⟩
    have hfits := fun q hq => (fits_eq_ok_iff (h.ofDegree_at hq)).1 (hfits q hq)
    obtain ⟨-, hrows, hdegree⟩ := hfits a.initial ha.initial_lt
    exact ⟨fun ⟨q, hq, hne⟩ => (hfits q hq).1 hne, hrows, hdegree, hdegree ▸ rfl⟩
  · rintro ⟨htables, hrows, hdegree, rfl⟩
    exact ⟨fun q hq => (fits_eq_ok_iff (h.ofDegree_at hq)).2
      ⟨fun hne => htables ⟨q, hq, hne⟩, hrows, hdegree⟩, hdegree ▸ rfl⟩

/-- One transition after the other. -/
def transitions (v : StateVector) (bits : List (Fourier × PreparedGgsw)) : Outcome StateVector :=
  bits.foldlM (fun v x => v.transition x.1 x.2) v

theorem Shape.moves_transition (ha : a.WellFormed) (h : v.Shape a n)
    (hv : v.transition t bit = .ok v') : Moves a n v v' := by
  obtain ⟨htables, -, -, rfl⟩ := (h.transition_eq_ok_iff ha).1 hv
  refine .step _ .refl fun q hq hne s _ => ?_
  exact (htables ⟨q, hq, hne⟩).1 ▸ PreparedGgsw.ofDegree_externalProduct t bit s

theorem Moves.trans {v'' : StateVector} (h : Moves a n v v') (h' : Moves a n v' v'') :
    Moves a n v v'' := by
  induction h' with
  | refl => exact h
  | step products _ hp ih => exact .step products ih hp

theorem Shape.moves_transitions (ha : a.WellFormed) {bits : List (Fourier × PreparedGgsw)}
    (h : v.Shape a n) (hv : v.transitions bits = .ok v') : Moves a n v v' := by
  induction bits generalizing v with
  | nil =>
    obtain rfl := Outcome.pure_eq_ok_iff.1 hv
    exact .refl
  | cons x bits ih =>
    obtain ⟨v₁, hv₁, hv⟩ := Outcome.bind_eq_ok_iff.1 hv
    have hmoves := h.moves_transition ha hv₁
    exact hmoves.trans (ih (hmoves.total_eq ha h).1 hv)

/-! ### New vectors, refreshes and verdicts -/

/-- The vector of the initial state. -/
def fresh (a : Automaton) (n : ℕ) : StateVector where
  automaton := a
  states := (List.range a.numStates).map fun q =>
    Glwe.constant n (if q = a.initial then quarter else 0)

theorem start_eq_ok_iff : start a n = .ok v ↔ n.isPowerOfTwo ∧ fresh a n = v := by
  rw [start, Outcome.check_bind_eq_ok_iff, Poly.degreeOk, require_eq_ok_iff]
  exact and_congr_right' Outcome.pure_eq_ok_iff

theorem at_fresh {q : ℕ} (hq : q < a.numStates) :
    (fresh a n).at? q = Glwe.constant n (if q = a.initial then quarter else 0) := by
  simp [at?, fresh, hq]

theorem shape_fresh (a : Automaton) (hn : 0 < n) : (fresh a n).Shape a n := by
  refine ⟨rfl, by simp [fresh], hn, fun c hc => ?_⟩
  obtain ⟨q, -, rfl⟩ := List.mem_map.1 hc
  exact Glwe.ofDegree_constant _ _

/-- A new vector has a quarter in its total. -/
theorem total_fresh (ha : a.WellFormed) (hn : 0 < n) :
    (fresh a n).total = Glwe.constant n quarter := by
  refine ((shape_fresh a hn).total_eq_iff ha (Glwe.ofDegree_constant _ _)).2
    ⟨fun i hi => ?_, fun i hi => ?_⟩
  · have hentry : ∀ q ∈ range a.numStates, ((fresh a n).at? q).b.coeff i =
        if q = a.initial then if i = 0 then quarter else 0 else 0 := by
      intro q hq
      rw [at_fresh (mem_range.1 hq), Glwe.constant, Poly.coeff_constant hi]
      split_ifs <;> rfl
    rw [sum_congr rfl hentry, sum_ite_eq', if_pos (mem_range.2 ha.initial_lt), Glwe.constant,
      Poly.coeff_constant hi]
  · refine (sum_eq_zero fun q hq => ?_).trans (Poly.coeff_zero n i).symm
    rw [at_fresh (mem_range.1 hq), Glwe.constant, Poly.coeff_zero]

theorem ofDegree_refreshState {c r : Glwe 32} (h : refreshState b c = .ok r) :
    0 < b.tfhe.midDegree ∧ r.OfDegree b.tfhe.midDegree := by
  obtain ⟨lwe, -, h⟩ := Outcome.bind_eq_ok_iff.1 h
  obtain ⟨fresh, hfresh, h⟩ := Outcome.bind_eq_ok_iff.1 h
  obtain ⟨hpos, h⟩ := Outcome.check_bind_eq_ok_iff.1 h
  obtain rfl := Outcome.pure_eq_ok_iff.1 h
  have hdegree := SchemeBridge.ofDegree_signRotate hfresh
  exact ⟨hdegree.1 ▸ require_eq_ok_iff.1 hpos, Glwe.ofDegree_addConstant hdegree _⟩

theorem Shape.refresh (ha : a.WellFormed) (h : v.Shape a n) (hv : v.refresh b = .ok v') :
    v'.Shape a b.tfhe.midDegree := by
  obtain ⟨states, hstates, hv⟩ := Outcome.bind_eq_ok_iff.1 hv
  obtain rfl := Outcome.pure_eq_ok_iff.1 hv
  have hstates := Outcome.mapM_eq_ok_iff.1 hstates
  have hlength := hstates.length_eq.symm.trans h.length_eq
  have hmem : ∀ r ∈ states, 0 < b.tfhe.midDegree ∧ r.OfDegree b.tfhe.midDegree := by
    intro r hr
    obtain ⟨c, -, hc⟩ := forall₂_exists_of_mem hstates.flip hr
    exact ofDegree_refreshState hc
  obtain ⟨r, hr⟩ := List.exists_mem_of_length_pos (hlength ▸ (Nat.zero_le _).trans_lt ha.initial_lt)
  exact ⟨h.automaton_eq, hlength, (hmem r hr).1, fun c hc => (hmem c hc).2⟩

theorem Reachable.shape (ha : a.WellFormed) (h : Reachable a v) : ∃ n, v.Shape a n := by
  induction h with
  | start h =>
    obtain ⟨hn, rfl⟩ := start_eq_ok_iff.1 h
    exact ⟨_, shape_fresh a (Nat.pos_of_isPowerOfTwo hn)⟩
  | transition _ hv ih =>
    obtain ⟨n, h⟩ := ih
    exact ⟨n, ((h.moves_transition ha hv).total_eq ha h).1⟩
  | refresh _ hv ih =>
    obtain ⟨n, h⟩ := ih
    exact ⟨_, h.refresh ha hv⟩

/-- Extracted ciphertexts add up to the one extracted from the sum. -/
theorem foldl_sampleExtract {l : List (Glwe 32)} (hn : 0 < n) (hl : ∀ c ∈ l, c.OfDegree n)
    {c : Glwe 32} (hc : c.OfDegree n) (start : Lwe 32) :
    l.foldl (fun sum c => sum.add (c.sampleExtract 0)) (start.add (c.sampleExtract 0)) =
      start.add ((l.foldl Glwe.add c).sampleExtract 0) := by
  induction l generalizing c with
  | nil => rfl
  | cons d l ih =>
    obtain ⟨hd, hl⟩ := List.forall_mem_cons.1 hl
    rw [List.foldl_cons, List.foldl_cons, Lwe.add_assoc, ← Glwe.sampleExtract_add hc hd hn]
    exact ih hl (Glwe.ofDegree_add hc hd)

/-- When all states accept, the verdict is extracted from the total. -/
theorem Shape.verdict_of_all_final (ha : a.WellFormed) (h : v.Shape a n)
    (hfinal : ∀ q < a.numStates, a.isFinal q = true) :
    v.verdict = (Lwe.trivial n (-eighth)).add (v.total.sampleExtract 0) := by
  have hfinals : a.finals = List.range a.numStates := by
    rw [Automaton.finals, ha.accepting_size]
    exact List.filter_eq_self.2 fun q hq => hfinal q (List.mem_range.1 hq)
  have hzero : (Lwe.trivial n (-eighth)).add ((Glwe.zero n : Glwe 32).sampleExtract 0) =
      Lwe.trivial n (-eighth) := by
    rw [← Glwe.constant_zero, Glwe.sampleExtract_constant h.degree_pos, Lwe.trivial_add_trivial,
      add_zero]
  rw [total, h.degree_eq ha, ← foldl_sampleExtract h.degree_pos h.ofDegree (Glwe.ofDegree_zero n),
    hzero, verdict, h.degree_eq ha, h.automaton_eq, hfinals,
    h.states_eq, List.foldl_map]

/-! ### Conservation -/

/-- In every vector that an automaton can be in, each state has a ciphertext of one degree.  From every
vector of this form, a bit that fits makes a step, and bits one after the other lead to a vector that
steps with some products lead to; whatever these products are, both sums over the states, of the bodies
and of the masks, stay the same in every coefficient.  From a new vector the states therefore add up to
the trivial ciphertext of one quarter, and an automaton of accepting states only has the trivial
ciphertext of one eighth for its verdict. -/
theorem total_conserved (ha : a.WellFormed) :
    (∀ v, Reachable a v → ∃ n, v.Shape a n) ∧
    (∀ n v, v.Shape a n →
      (∀ t bit, t.n = n → bit.degree = n → bit.rows ≠ [] → bit.gadget.base2k < 64 →
        v.transition t bit = .ok (v.step t bit)) ∧
      (∀ bits v', v.transitions bits = .ok v' → Moves a n v v') ∧
      ∀ v', Moves a n v v' → v'.Shape a n ∧
        (∀ i < n, ∑ q ∈ range a.numStates, (v'.at? q).b.coeff i =
          ∑ q ∈ range a.numStates, (v.at? q).b.coeff i) ∧
        ∀ i < n, ∑ q ∈ range a.numStates, (v'.at? q).a.coeff i =
          ∑ q ∈ range a.numStates, (v.at? q).a.coeff i) ∧
    ∀ n v v', start a n = .ok v → Moves a n v v' →
      v'.total = Glwe.constant n quarter ∧
      ((∀ q < a.numStates, a.isFinal q = true) → v'.verdict = Lwe.trivial n eighth) := by
  refine ⟨fun v hv => hv.shape ha, fun n v h => ⟨?_, fun bits v' => h.moves_transitions ha, ?_⟩, ?_⟩
  · intro t bit ht hdegree hrows hbase
    refine (h.transition_eq_ok_iff ha).2 ⟨fun _ => ⟨ht, hbase⟩, hrows, hdegree, ?_⟩
    rw [step_eq_stepWith, hdegree]
  · intro v' hv
    obtain ⟨hshape, htotal⟩ := hv.total_eq ha h
    refine ⟨hshape, fun i hi => ?_, fun i hi => ?_⟩
    · have hφ : Glwe.IsAdditive n _ := Glwe.isAdditive_coeff_b hi
      rw [← hshape.apply_total ha hφ, ← h.apply_total ha hφ, htotal]
    · have hφ : Glwe.IsAdditive n _ := Glwe.isAdditive_coeff_a hi
      rw [← hshape.apply_total ha hφ, ← h.apply_total ha hφ, htotal]
  · intro n v v' hstart hv
    obtain ⟨hpower, rfl⟩ := start_eq_ok_iff.1 hstart
    have hn := Nat.pos_of_isPowerOfTwo hpower
    obtain ⟨hshape, htotal⟩ := hv.total_eq ha (shape_fresh a hn)
    rw [total_fresh ha hn] at htotal
    refine ⟨htotal, fun hfinal => ?_⟩
    rw [hshape.verdict_of_all_final ha hfinal, htotal, Glwe.sampleExtract_constant hn,
      Lwe.trivial_add_trivial]
    rfl

/-- Two accepting states: a bit of zero, and products that belong to no bit. -/
theorem total_conserved_twoStates :
    let a : Automaton := ⟨0, #[true, true], #[(0, 1), (1, 0)]⟩
    let v := fresh a 4
    let products : ℕ → Glwe 32 → Glwe 32 := fun q _ =>
      ⟨⟨#[.ofNat 32 q, 0xdeadbeef, 1, 2]⟩, ⟨#[3, 0x80000000, .ofNat 32 q, 0xffffffff]⟩⟩
    a.WellFormed ∧ start a 4 = .ok v ∧
      v.transition tablesOfFour zeroBit = .ok (v.step tablesOfFour zeroBit) ∧
      (v.step tablesOfFour zeroBit).verdict = Lwe.trivial 4 eighth ∧
      ProductsOfDegree a 4 products ∧
      (v.stepWith 4 products).total = Glwe.constant 4 quarter ∧
      (v.stepWith 4 products).verdict = Lwe.trivial 4 eighth := by
  intro a v products
  have ha : a.WellFormed := ⟨by decide, rfl, by decide⟩
  have hstart : start a 4 = .ok v := start_eq_ok_iff.2 ⟨⟨2, rfl⟩, rfl⟩
  have hproducts : ProductsOfDegree a 4 products := fun q _ _ s _ => ⟨rfl, rfl⟩
  have hfinal : ∀ q < a.numStates, a.isFinal q = true := by decide
  obtain ⟨-, hshaped, hnew⟩ := total_conserved ha
  obtain ⟨htransition, hmoves, -⟩ := hshaped 4 v (shape_fresh a (by decide))
  have hbit := htransition tablesOfFour zeroBit rfl rfl (by simp [zeroBit]) (by decide)
  have hread : v.transitions [(tablesOfFour, zeroBit)] = .ok (v.step tablesOfFour zeroBit) :=
    Outcome.bind_eq_ok_iff.2 ⟨_, hbit, rfl⟩
  have hgarbage := hnew 4 v _ hstart (.step products .refl hproducts)
  exact ⟨ha, hstart, hbit, (hnew 4 v _ hstart (hmoves _ _ hread)).2 hfinal, hproducts, hgarbage.1,
    hgarbage.2 hfinal⟩

end StateVector

end CipherMonitor
