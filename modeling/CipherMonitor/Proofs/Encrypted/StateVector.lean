import CipherMonitor.Encrypted.StateVector
import CipherMonitor.Proofs.Bridge.Contract

/-!
# Reading a word forwards

The vector is one-hot up to noise.  A bit moves the noise of every state to one successor and adds
that of the product to both, so what grows is the noise of all states together; a refresh cuts it down
again.

* `Glwe.IsAdditive`, `Glwe.IsAdditive.gather` — what follows sums, and what a state receives.
* `StateVector.oneHot` — the words of a vector without noise.
* `StateVector.Carries` — a vector in a state, with a bound for the noise of all states together.
* `StateVector.Carries.transition`, `StateVector.Carries.refresh` — one bit, and one refresh.
* `StateVector.Carries.verdict` — the verdict of a refreshed vector.
-/

namespace CipherMonitor

open Finset Torus

/-- A word of the ring ciphertexts of degree `n` that follows sums and differences. -/
structure Glwe.IsAdditive (n : ℕ) (φ : Glwe 32 → BitVec 32) : Prop where
  zero : φ (Glwe.zero n) = 0
  add : ∀ {c d : Glwe 32}, c.OfDegree n → d.OfDegree n → φ (c.add d) = φ c + φ d
  sub : ∀ {c d : Glwe 32}, c.OfDegree n → d.OfDegree n → φ (c.sub d) = φ c - φ d

theorem Glwe.isAdditive_constantPhase {s : GlweSecret} (hpos : 0 < s.degree) :
    IsAdditive s.degree (constantPhase s) where
  zero := constantPhase_zero hpos
  add := constantPhase_add hpos
  sub := constantPhase_sub hpos

/-- What a state receives, read off word by word. -/
theorem Glwe.IsAdditive.gather {n : ℕ} {φ : Glwe 32 → BitVec 32}
    (hφ : Glwe.IsAdditive n φ) {l : List (ℕ × Glwe 32)} (hl : ∀ x ∈ l, x.2.OfDegree n) (q' : ℕ) :
    (StateVector.gather n l q').OfDegree n ∧
      φ (StateVector.gather n l q') = (l.map fun x => if x.1 = q' then φ x.2 else 0).sum := by
  have hloop : ∀ start : Glwe 32, start.OfDegree n →
      ((l.filter (·.1 = q')).foldl (fun sum x => sum.add x.2) start).OfDegree n ∧
      φ ((l.filter (·.1 = q')).foldl (fun sum x => sum.add x.2) start) =
        φ start + (l.map fun x => if x.1 = q' then φ x.2 else 0).sum := by
    induction l with
    | nil => exact fun start hstart => ⟨hstart, by simp⟩
    | cons x l ih =>
      intro start hstart
      have hx := hl x (List.mem_cons_self ..)
      have ih := ih fun y hy => hl y (List.mem_cons_of_mem _ hy)
      rw [List.map_cons, List.sum_cons]
      by_cases hq : x.1 = q'
      · rw [List.filter_cons_of_pos (by simpa using hq), List.foldl_cons, if_pos hq, ← add_assoc,
          ← hφ.add hstart hx]
        exact ih _ (Glwe.ofDegree_add hstart hx)
      · rw [List.filter_cons_of_neg (by simpa using hq), if_neg hq, zero_add]
        exact ih _ hstart
  have := hloop (Glwe.zero n) (Glwe.ofDegree_zero _)
  rwa [hφ.zero, zero_add] at this

namespace StateVector

/-- One quarter for the current state, and zero for the others. -/
def oneHot (current q : ℕ) : BitVec 32 := if q = current then quarter else 0

/-- The vector of an automaton in the current state; the distances of its states from their words add
up to at most `err`. -/
structure Carries (s : GlweSecret) (a : Automaton) (current err : ℕ) (v : StateVector) : Prop where
  automaton_eq : v.automaton = a
  length_eq : v.states.length = a.numStates
  ofDegree : ∀ q < a.numStates, (v.at? q).OfDegree s.degree
  sum_distance_le : ∑ q ∈ range a.numStates,
    distance ((v.at? q).constantPhase s) (oneHot current q) ≤ err

variable {b : SchemeBridge} {s : GlweSecret} {a : Automaton} {current err eps delta rho : ℕ}
  {v : StateVector} {t : Fourier} {g : PreparedGgsw} {bit : Bool}

/-- A vector takes its degree from the first state. -/
theorem degree_at_zero (h : 0 < v.states.length) : (v.at? 0).degree = v.degree := by
  obtain ⟨c, states, hstates⟩ := List.exists_cons_of_length_pos h
  rw [at?, degree, hstates]
  rfl

/-- A single state is at most as far away as all of them together. -/
theorem Carries.distance_le (h : v.Carries s a current err) {q : ℕ} (hq : q < a.numStates) :
    distance ((v.at? q).constantPhase s) (oneHot current q) ≤ err :=
  (single_le_sum (f := fun q => distance ((v.at? q).constantPhase s) (oneHot current q))
    (fun _ _ => Nat.zero_le _) (mem_range.2 hq)).trans h.sum_distance_le

/-- Before the first bit, the vector is in the initial state without noise. -/
theorem start_ok (hdegree : Poly.degreeOk s.degree = .ok ()) (hpos : 0 < s.degree) :
    ∃ v, start a s.degree = .ok v ∧ v.Carries s a a.initial 0 := by
  have hat : ∀ q < a.numStates, (⟨a, (List.range a.numStates).map fun q =>
      Glwe.constant s.degree (oneHot a.initial q)⟩ : StateVector).at? q =
        Glwe.constant s.degree (oneHot a.initial q) := by
    intro q hq
    simp [at?, hq]
  refine ⟨⟨a, (List.range a.numStates).map fun q => Glwe.constant s.degree (oneHot a.initial q)⟩,
    ?_, rfl, by simp, ?_, ?_⟩
  · rw [start, hdegree]
    rfl
  · intro q hq
    rw [hat q hq]
    exact Glwe.ofDegree_constant _ _
  · refine (sum_eq_zero fun q hq => ?_).le
    rw [hat q (mem_range.1 hq), Glwe.constantPhase_constant hpos, distance_self]

/-! ### One bit -/

/-- What state `q'` receives from a list of shares, as the constant coefficient of a phase. -/
def received (s : GlweSecret) (shares : List (ℕ × Glwe 32)) (q' : ℕ) : BitVec 32 :=
  (shares.map fun x => if x.1 = q' then x.2.constantPhase s else 0).sum

theorem gather_ok (hpos : 0 < s.degree) {l : List (ℕ × Glwe 32)}
    (hl : ∀ x ∈ l, x.2.OfDegree s.degree) (q' : ℕ) :
    (gather s.degree l q').OfDegree s.degree ∧
      (gather s.degree l q').constantPhase s = received s l q' :=
  (Glwe.isAdditive_constantPhase hpos).gather hl q'

theorem received_flatMap {ι : Type} (l : List ι) (f : ι → List (ℕ × Glwe 32)) (q' : ℕ) :
    received s (l.flatMap f) q' = (l.map fun x => received s (f x) q').sum := by
  induction l with
  | nil => rfl
  | cons x l ih =>
    rw [List.flatMap_cons, List.map_cons, List.sum_cons, ← ih]
    simp [received]

/-- The states with their numbers. -/
theorem zipIdx_states (hlength : v.states.length = a.numStates) :
    v.states.zipIdx = (List.range a.numStates).map fun q => (v.at? q, q) :=
  List.ext_getElem (by simp [hlength]) (by simp +contextual [at?])

/-- What a state without noise gives to state `q'`. -/
def moved (a : Automaton) (bit : Bool) (current q q' : ℕ) : BitVec 32 :=
  if a.next q bit = q' then oneHot current q else 0

/-- Only the current state gives something away, to its successor. -/
theorem sum_moved (hcurrent : current < a.numStates) (q' : ℕ) :
    ∑ q ∈ range a.numStates, moved a bit current q q' = oneHot (a.next current bit) q' := by
  rw [sum_eq_single_of_mem current (mem_range.2 hcurrent)]
  · simp only [moved, oneHot, if_true, eq_comm]
  · intro q _ hq
    simp [moved, oneHot, hq]

theorem sum_ite_distance_le (n c d : ℕ) : ∑ q' ∈ range n, (if c = q' then d else 0) ≤ d := by
  rw [sum_ite_eq]
  split_ifs <;> simp

/-- A product with a bit and the rest of the factor, against what they are without noise: the distance
of the factor, and twice the noise of the product. -/
theorem distance_split_le {x y z : BitVec 32} (hnoise : distance y (if bit then z else 0) ≤ eps) :
    distance y (if bit then x else 0) + distance (z - y) (if bit then 0 else x) ≤
      distance z x + 2 * eps := by
  cases bit with
  | true =>
    have h1 := distance_triangle y z x
    have h2 : distance (z - y) 0 = distance y z := by
      rw [← sub_self z, distance_sub_left]
    simp only [if_true] at hnoise ⊢
    omega
  | false =>
    have h1 := distance_triangle (z - y) z x
    have h2 : distance (z - y) z = distance y 0 := by
      rw [← distance_sub_left y 0 z, sub_zero]
    simp only [Bool.false_eq_true, if_false] at hnoise ⊢
    omega

/-- Two shares, one for each bit, against the word that goes along with the bit. -/
theorem distance_two_shares_le (x y z : BitVec 32) (a : Automaton) (bit : Bool) (q q' : ℕ) :
    distance ((if a.next q true = q' then y else 0) + if a.next q false = q' then z - y else 0)
        (if a.next q bit = q' then x else 0) ≤
      (if a.next q true = q' then distance y (if bit then x else 0) else 0) +
        if a.next q false = q' then distance (z - y) (if bit then 0 else x) else 0 := by
  -- The word of the state goes to one of the two successors, and nothing to the other.
  have hsplit : (if a.next q bit = q' then x else 0) =
      (if a.next q true = q' then if bit then x else 0 else 0) +
        if a.next q false = q' then if bit then 0 else x else 0 := by
    cases bit <;> simp
  rw [hsplit, ← distance_ite, ← distance_ite]
  exact distance_add _ _ _ _

/-- The shares of one state are as far from what it should give away as the state is from its word,
and twice the noise of a product further. -/
theorem sum_distance_shares_le (hpos : 0 < s.degree) (hg : g.Encrypts t s eps bit) {c : Glwe 32}
    (hc : c.OfDegree s.degree) (q n : ℕ) :
    ∑ q' ∈ range n, distance (received s (shares a t g q c) q') (moved a bit current q q') ≤
      distance (c.constantPhase s) (oneHot current q) + 2 * eps := by
  generalize hx : oneHot current q = x
  have hmoved : ∀ q', moved a bit current q q' = if a.next q bit = q' then x else 0 := by
    intro q'
    rw [moved, hx]
  simp only [hmoved, shares]
  split_ifs with hsame
  · -- Both bits lead to one successor, which receives the state itself.
    have hbit : a.next q bit = a.next q false := by cases bit <;> simp [hsame]
    simp only [received, List.map_cons, List.map_nil, List.sum_cons, List.sum_nil, add_zero, hbit,
      distance_ite]
    exact (sum_ite_distance_le _ _ _).trans (Nat.le_add_right _ _)
  · have hproduct : (g.externalProduct t c).OfDegree s.degree :=
      hg.degree.1 ▸ PreparedGgsw.ofDegree_externalProduct t g c
    have hnoise := (hg.externalProduct hc).2
    simp only [received, List.map_cons, List.map_nil, List.sum_cons, List.sum_nil, add_zero,
      Glwe.constantPhase_sub hpos hc hproduct]
    generalize (g.externalProduct t c).constantPhase s = y at hnoise
    generalize c.constantPhase s = z at hnoise
    calc _ ≤ ∑ q' ∈ range n, ((if a.next q true = q' then distance y (if bit then x else 0) else 0) +
            if a.next q false = q' then distance (z - y) (if bit then 0 else x) else 0) :=
          sum_le_sum fun q' _ => distance_two_shares_le x y z a bit q q'
      _ ≤ distance y (if bit then x else 0) + distance (z - y) (if bit then 0 else x) := by
          rw [sum_add_distrib]
          exact Nat.add_le_add (sum_ite_distance_le _ _ _) (sum_ite_distance_le _ _ _)
      _ ≤ distance z x + 2 * eps := distance_split_le hnoise

theorem ofDegree_shares (hg : g.Encrypts t s eps bit) {c : Glwe 32} (hc : c.OfDegree s.degree)
    (q : ℕ) : ∀ x ∈ shares a t g q c, x.2.OfDegree s.degree := by
  have hproduct : (g.externalProduct t c).OfDegree s.degree :=
    hg.degree.1 ▸ PreparedGgsw.ofDegree_externalProduct t g c
  intro x hx
  simp only [shares] at hx
  split_ifs at hx
  · obtain rfl := List.mem_singleton.1 hx
    exact hc
  · rcases List.mem_pair.1 hx with rfl | rfl
    · exact hproduct
    · exact Glwe.ofDegree_sub hc hproduct

theorem fits_ok (hg : g.Encrypts t s eps bit) {c : Glwe 32} (hc : c.OfDegree s.degree) (q : ℕ) :
    fits a t g q c = .ok () := by
  have hcheck : g.degreeChecked = .ok s.degree := by
    rw [PreparedGgsw.degreeChecked, require_of hg.degree.2.1, ← hg.degree.2.2]
    rfl
  rw [fits, (hg.externalProduct hc).1, hcheck]
  split_ifs
  · exact require_of hc
  · exact require_of hc

theorem Carries.transition_eq_ok (h : v.Carries s a current err) (hg : g.Encrypts t s eps bit) :
    v.transition t g = .ok (v.step t g) := by
  have hfits : (v.states.zipIdx.forM fun x => fits v.automaton t g x.2 x.1) = .ok () := by
    rw [Outcome.forM_eq_ok_iff, zipIdx_states h.length_eq]
    intro x hx
    obtain ⟨q, hq, rfl⟩ := List.mem_map.1 hx
    exact fits_ok hg (h.ofDegree q (List.mem_range.1 hq)) q
  change (v.states.zipIdx.forM fun x => fits v.automaton t g x.2 x.1) >>= _ = _
  rw [hfits]
  rfl

/-- After a bit, a state holds what it has received from all states. -/
theorem Carries.at_step (hpos : 0 < s.degree) (h : v.Carries s a current err)
    (hg : g.Encrypts t s eps bit) {q' : ℕ} (hq' : q' < a.numStates) :
    ((v.step t g).at? q').OfDegree s.degree ∧ ((v.step t g).at? q').constantPhase s =
      ∑ q ∈ range a.numStates, received s (shares a t g q (v.at? q)) q' := by
  set l := (v.states.zipIdx.flatMap fun x => shares v.automaton t g x.2 x.1) with hl
  have hshares : ∀ x ∈ l, x.2.OfDegree s.degree := by
    intro x hx
    rw [hl, zipIdx_states h.length_eq, List.mem_flatMap] at hx
    obtain ⟨y, hy, hx⟩ := hx
    obtain ⟨q, hq, rfl⟩ := List.mem_map.1 hy
    exact ofDegree_shares hg (h.ofDegree q (List.mem_range.1 hq)) q x hx
  have hreceived : received s l q' = ∑ q ∈ range a.numStates,
      received s (shares a t g q (v.at? q)) q' := by
    rw [hl, received_flatMap, zipIdx_states h.length_eq, List.map_map, h.automaton_eq]
    rfl
  have hat : (v.step t g).at? q' = gather s.degree l q' := by
    simp [at?, step, h.length_eq, hq', hg.degree.2.2, hl]
  rw [hat, ← hreceived]
  exact gather_ok hpos hshares q'

/-- One bit moves the vector to the next state, and every state contributes twice the noise of a
product. -/
theorem Carries.transition (hpos : 0 < s.degree) (hcurrent : current < a.numStates)
    (h : v.Carries s a current err) (hg : g.Encrypts t s eps bit) :
    ∃ v', v.transition t g = .ok v' ∧
      v'.Carries s a (a.next current bit) (err + a.numStates * (2 * eps)) := by
  refine ⟨v.step t g, h.transition_eq_ok hg, h.automaton_eq, by simp [step, h.length_eq],
    fun q' hq' => (h.at_step hpos hg hq').1, ?_⟩
  -- The distances are summed over the receiving states first, then over the giving ones.
  calc ∑ q' ∈ range a.numStates, distance (((v.step t g).at? q').constantPhase s)
          (oneHot (a.next current bit) q')
      ≤ ∑ q' ∈ range a.numStates, ∑ q ∈ range a.numStates,
          distance (received s (shares a t g q (v.at? q)) q') (moved a bit current q q') := by
        refine sum_le_sum fun q' hq' => ?_
        rw [(h.at_step hpos hg (mem_range.1 hq')).2, ← sum_moved hcurrent]
        exact distance_sum _ _ _
    _ = ∑ q ∈ range a.numStates, ∑ q' ∈ range a.numStates,
          distance (received s (shares a t g q (v.at? q)) q') (moved a bit current q q') :=
        sum_comm
    _ ≤ ∑ q ∈ range a.numStates,
          (distance ((v.at? q).constantPhase s) (oneHot current q) + 2 * eps) :=
        sum_le_sum fun q hq =>
          sum_distance_shares_le hpos hg (h.ofDegree q (mem_range.1 hq)) _ _
    _ ≤ err + a.numStates * (2 * eps) := by
        rw [sum_add_distrib, sum_const, card_range, Nat.nsmul_eq_mul]
        exact Nat.add_le_add_right h.sum_distance_le _

/-- A word is a sequence of bits. -/
theorem Carries.foldlM_transition (hpos : 0 < s.degree) (ha : a.WellFormed) {gs : List PreparedGgsw}
    {word : List Bool} (hgs : List.Forall₂ (PreparedGgsw.Encrypts t s eps) gs word)
    (hcurrent : current < a.numStates) (h : v.Carries s a current err) :
    ∃ v', gs.foldlM (fun v g => v.transition t g) v = .ok v' ∧
      v'.Carries s a (a.run current word) (err + word.length * (a.numStates * (2 * eps))) := by
  induction hgs generalizing v current err with
  | nil => exact ⟨v, rfl, by simpa using h⟩
  | @cons g bit gs word hg _ ih =>
    obtain ⟨v₁, hv₁, h₁⟩ := h.transition hpos hcurrent hg
    obtain ⟨v', hv', h'⟩ := ih (ha.next_lt current hcurrent bit) h₁
    refine ⟨v', ?_, ?_⟩
    · rw [List.foldlM_cons, hv₁]
      exact hv'
    · rw [List.length_cons, Nat.add_mul, Nat.one_mul, Nat.add_comm (word.length * _),
        ← Nat.add_assoc]
      exact h'

/-! ### Refresh and verdict -/

/-- A vector whose states are all close to their words. -/
structure OneHot (s : GlweSecret) (a : Automaton) (current rho : ℕ) (v : StateVector) : Prop where
  automaton_eq : v.automaton = a
  length_eq : v.states.length = a.numStates
  ofDegree : ∀ q < a.numStates, (v.at? q).OfDegree s.degree
  distance_le : ∀ q < a.numStates,
    distance ((v.at? q).constantPhase s) (oneHot current q) ≤ rho

theorem OneHot.carries (h : v.OneHot s a current rho) :
    v.Carries s a current (a.numStates * rho) := by
  refine ⟨h.automaton_eq, h.length_eq, h.ofDegree, ?_⟩
  calc _ ≤ ∑ _q ∈ range a.numStates, rho :=
        sum_le_sum fun q hq => h.distance_le q (mem_range.1 hq)
    _ = a.numStates * rho := by rw [sum_const, card_range, Nat.nsmul_eq_mul]

theorem Carries.oneHot_of_le (h : v.Carries s a current err) (herr : err ≤ rho) :
    v.OneHot s a current rho :=
  ⟨h.automaton_eq, h.length_eq, h.ofDegree, fun _ hq => (h.distance_le hq).trans herr⟩

/-- The word of a state and that of a verdict are one eighth apart. -/
theorem oneHot_add_eighth (current q : ℕ) :
    oneHot current q + -eighth = signWord (decide (q = current)) := by
  by_cases h : q = current <;> simp [oneHot, h] <;> decide

theorem refreshState_ok (hs : s.degree = b.tfhe.midDegree) (hb : b.Refreshes s delta rho)
    {c : Glwe 32} (hc : c.OfDegree s.degree) {q : ℕ}
    (hdist : distance (c.constantPhase s) (oneHot current q) ≤ delta) :
    ∃ r, refreshState b c = .ok r ∧ r.OfDegree s.degree ∧
      distance (r.constantPhase s) (oneHot current q) ≤ rho := by
  have hpos : 0 < s.degree := hs ▸ hb.degreeOk.2
  obtain ⟨hextract, hdimension, hphase⟩ := Glwe.sampleExtract_zero hpos hc
  -- One eighth below, the two words of a state are the two words of a verdict.
  have hmoved : distance (((c.sampleExtract 0).addConstant (-eighth)).phase s.toLwe)
      (signWord (decide (q = current))) ≤ delta := by
    rwa [Lwe.phase_addConstant hdimension, hphase, ← oneHot_add_eighth, distance_add_right]
  obtain ⟨r, hr, hdegree, hrho⟩ :=
    hb.signRotate hs (Lwe.ofDimension_addConstant hdimension _) hmoved
  refine ⟨r.addConstant eighth, ?_, Glwe.ofDegree_addConstant hdegree _, ?_⟩
  · rw [refreshState, hextract, Outcome.ok_bind, hr, Outcome.ok_bind, Glwe.Checked.addConstant,
      require_of (by rw [hdegree.1]; exact hpos)]
    rfl
  · rw [← oneHot_add_eighth, ← distance_add_right _ _ eighth, neg_add_cancel_right] at hrho
    rwa [Glwe.constantPhase_addConstant hpos hdegree]

/-- A refresh, while the noise of all states together is small enough. -/
theorem Carries.refresh (hs : s.degree = b.tfhe.midDegree) (hb : b.Refreshes s delta rho)
    (h : v.Carries s a current err) (herr : err ≤ delta) :
    ∃ v', v.refresh b = .ok v' ∧ v'.OneHot s a current rho := by
  obtain ⟨states, hstates, hlength, hentry⟩ := Outcome.exists_mapM_range
    fun q hq => refreshState_ok hs hb (h.ofDegree q hq) ((h.distance_le hq).trans herr)
  have hmap : v.states = (List.range a.numStates).map v.at? :=
    List.ext_getElem (by simp [h.length_eq]) (by simp +contextual [at?])
  refine ⟨⟨a, states⟩, ?_, rfl, hlength, fun q hq => (hentry q hq _).1,
    fun q hq => (hentry q hq _).2⟩
  rw [StateVector.refresh, hmap, List.mapM_map]
  change ((List.range a.numStates).mapM fun q => refreshState b (v.at? q)) >>= _ = _
  rw [hstates, ← h.automaton_eq]
  rfl

/-- The words of the accepting states add up to one quarter exactly when the current one accepts. -/
theorem sum_oneHot_finals (hcurrent : current < a.numStates) :
    ∑ q ∈ range a.numStates, (if a.isFinal q then oneHot current q else 0) + -eighth =
      signWord (a.isFinal current) := by
  rw [sum_eq_single_of_mem current (mem_range.2 hcurrent)]
  · cases a.isFinal current <;> simp [oneHot] <;> decide
  · intro q _ hq
    simp [oneHot, hq]

/-- The phase of a sum over the accepting states of a list. -/
theorem phase_foldl_finals (hpos : 0 < s.degree) (h : v.Carries s a current err) {l : List ℕ}
    (hl : ∀ q ∈ l, q < a.numStates) {start : Lwe 32} (hstart : start.OfDimension s.degree) :
    ((l.filter a.isFinal).foldl (fun sum q => sum.add ((v.at? q).sampleExtract 0)) start).phase
        s.toLwe =
      start.phase s.toLwe +
        (l.map fun q => if a.isFinal q then (v.at? q).constantPhase s else 0).sum := by
  induction l generalizing start with
  | nil => simp
  | cons q l ih =>
    obtain ⟨-, hdimension, hphase⟩ :=
      Glwe.sampleExtract_zero hpos (h.ofDegree q (hl q (List.mem_cons_self ..)))
    have ih := fun start => @ih (fun q hq => hl q (List.mem_cons_of_mem _ hq)) start
    rw [List.map_cons, List.sum_cons, ← add_assoc]
    by_cases hq : a.isFinal q = true
    · rw [List.filter_cons_of_pos hq, List.foldl_cons, if_pos hq, ← hphase,
        ← Lwe.phase_add hstart hdimension]
      exact ih _ (Lwe.ofDimension_add hstart hdimension)
    · rw [List.filter_cons_of_neg hq, if_neg hq, add_zero]
      exact ih _ hstart

theorem Carries.degree_eq (hcurrent : current < a.numStates) (h : v.Carries s a current err) :
    v.degree = s.degree :=
  (degree_at_zero (by rw [h.length_eq]; omega)).symm.trans (h.ofDegree 0 (by omega)).1

/-- The verdict is as far from its word as all states together from theirs. -/
theorem Carries.verdict (hpos : 0 < s.degree) (ha : a.WellFormed) (hcurrent : current < a.numStates)
    (h : v.Carries s a current err) :
    distance (v.verdict.phase s.toLwe) (signWord (a.isFinal current)) ≤ err := by
  have hphase : v.verdict.phase s.toLwe =
      ∑ q ∈ range a.numStates, (if a.isFinal q then (v.at? q).constantPhase s else 0) +
        -eighth := by
    rw [StateVector.verdict, h.degree_eq hcurrent, h.automaton_eq, Automaton.finals,
      ha.accepting_size, phase_foldl_finals hpos h (fun q hq => List.mem_range.1 hq)
        (Lwe.ofDimension_trivial s.degree (-eighth)), Lwe.phase_trivial, add_comm]
    rfl
  rw [hphase, ← sum_oneHot_finals hcurrent, distance_add_right]
  refine (distance_sum _ _ _).trans (le_trans (sum_le_sum fun q _ => ?_) h.sum_distance_le)
  rw [distance_ite]
  split_ifs <;> simp

end StateVector

end CipherMonitor
