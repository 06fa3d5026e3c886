import CipherMonitor.Monitor.Prefix
import CipherMonitor.Proofs.Encrypted.StateVector
import CipherMonitor.Proofs.FullBlocks
import CipherMonitor.Proofs.Monitor.Pipeline

/-!
# Verdicts of prefixes

* `StateVector.afterEach` — the vectors after each of the samples, or of the blocks.
* `StateVector.OneHot.readSamples`, `StateVector.OneHot.readBlocks` — the vectors stay one-hot.
* `OnlineMonitor.perform_mapM_feed`, `BlockMonitor.goesThrough_of_afterEach` — the monitors go through
  these vectors.
* `StateVector.verdicts_of_prefixes` — every verdict tells whether the samples so far are accepted.
-/

namespace CipherMonitor

open Torus

namespace StateVector

/-! ### Reading -/

/-- The vectors after each of the items. -/
def afterEach {ι : Type} (read : StateVector → ι → Outcome StateVector) :
    StateVector → List ι → Outcome (List StateVector)
  | _, [] => pure []
  | v, x :: rest => do
    let next ← read v x
    let more ← afterEach read next rest
    pure (next :: more)

/-- Reads the bits of one sample, with a refresh after every bit. -/
def readSample (b : SchemeBridge) (v : StateVector) (bits : List PreparedGgsw) :
    Outcome StateVector :=
  bits.foldlM (OnlineMonitor.readBit b) v

/-- Reads the bits of the samples of a block, with a refresh after the last one. -/
def readBlock (b : SchemeBridge) (v : StateVector) (block : List (List PreparedGgsw)) :
    Outcome StateVector := do
  let next ← block.flatten.foldlM (fun v bit => v.transition b.tables bit) v
  next.refresh b

/-- What reading an item adds to the word keeps the relation between word and vector. -/
theorem afterEach_ok {ι : Type} {read : StateVector → ι → Outcome StateVector}
    {P : List Bool → StateVector → Prop} {Q : ι → List Bool → Prop}
    (hread : ∀ word v x bits, P word v → Q x bits → ∃ v', read v x = .ok v' ∧ P (word ++ bits) v')
    {items : List ι} {words : List (List Bool)} (hitems : List.Forall₂ Q items words)
    {word : List Bool} {v : StateVector} (hv : P word v) :
    ∃ vectors, afterEach read v items = .ok vectors ∧ vectors.length = items.length ∧
      ∀ i v', vectors[i]? = some v' → P (word ++ (words.take (i + 1)).flatten) v' := by
  induction hitems generalizing word v with
  | nil => exact ⟨[], rfl, rfl, by simp⟩
  | @cons x bits items words hx _ ih =>
    obtain ⟨next, hnext, hP⟩ := hread word v x bits hv hx
    obtain ⟨vectors, hvectors, hcount, hall⟩ := ih hP
    refine ⟨next :: vectors, ?_, by simp [hcount], ?_⟩
    · rw [afterEach, hnext, Outcome.ok_bind, hvectors]
      rfl
    · intro i v' hi
      cases i with
      | zero =>
        obtain rfl := Option.some.inj hi
        simpa using hP
      | succ i =>
        have := hall i v' hi
        rwa [List.append_assoc, ← List.flatten_cons, ← List.take_succ_cons] at this

variable {b : SchemeBridge} {s : GlweSecret} {a : Automaton} {eps delta rho current : ℕ}
  {v : StateVector}

theorem OneHot.readSample (hs : s.degree = b.tfhe.midDegree) (ha : a.WellFormed)
    (hb : b.Refreshes s delta rho) (hbound : a.numStates * (rho + 2 * eps) ≤ delta)
    (hcurrent : current < a.numStates) (h : v.OneHot s a current rho) {bits : List PreparedGgsw}
    {word : List Bool} (hbits : List.Forall₂ (PreparedGgsw.Encrypts b.tables s eps) bits word) :
    ∃ v', readSample b v bits = .ok v' ∧ v'.OneHot s a (a.run current word) rho := by
  have hpos : 0 < s.degree := hs ▸ hb.degreeOk.2
  induction hbits generalizing v current with
  | nil => exact ⟨v, rfl, h⟩
  | @cons g bit bits word hg _ ih =>
    obtain ⟨moved, hmoved, hcarries⟩ := h.carries.transition hpos hcurrent hg
    rw [← Nat.mul_add] at hcarries
    obtain ⟨next, hnext, honehot⟩ := hcarries.refresh hs hb hbound
    obtain ⟨v', hv', h'⟩ := ih (ha.next_lt current hcurrent bit) honehot
    refine ⟨v', ?_, h'⟩
    rw [StateVector.readSample, List.foldlM_cons, OnlineMonitor.readBit, hmoved, Outcome.ok_bind,
      hnext]
    exact hv'

theorem OneHot.readBlock (hs : s.degree = b.tfhe.midDegree) (ha : a.WellFormed)
    (hb : b.Refreshes s delta rho) {count : ℕ}
    (hbound : a.numStates * (rho + 2 * count * eps) ≤ delta)
    (hcurrent : current < a.numStates) (h : v.OneHot s a current rho)
    {block : List (List PreparedGgsw)} {word : List Bool}
    (hblock : List.Forall₂ (PreparedGgsw.Encrypts b.tables s eps) block.flatten word)
    (hlength : word.length ≤ count) :
    ∃ v', readBlock b v block = .ok v' ∧ v'.OneHot s a (a.run current word) rho := by
  have hpos : 0 < s.degree := hs ▸ hb.degreeOk.2
  obtain ⟨next, hnext, hcarries⟩ := h.carries.foldlM_transition hpos ha hblock hcurrent
  obtain ⟨v', hv', h'⟩ := hcarries.refresh hs hb <| calc
    a.numStates * rho + word.length * (a.numStates * (2 * eps))
        ≤ a.numStates * rho + count * (a.numStates * (2 * eps)) :=
      Nat.add_le_add_left (Nat.mul_le_mul_right _ hlength) _
    _ = a.numStates * (rho + 2 * count * eps) := by ring
    _ ≤ delta := hbound
  refine ⟨v', ?_, h'⟩
  rw [StateVector.readBlock, hnext]
  exact hv'

/-- A sequence of samples, with the word that has been read before. -/
theorem OneHot.readSamples (hs : s.degree = b.tfhe.midDegree) (ha : a.WellFormed)
    (hb : b.Refreshes s delta rho) (hbound : a.numStates * (rho + 2 * eps) ≤ delta)
    {samples : List (List PreparedGgsw)} {words : List (List Bool)}
    (hsamples : List.Forall₂ (List.Forall₂ (PreparedGgsw.Encrypts b.tables s eps)) samples words)
    {word : List Bool} (h : v.OneHot s a (a.run a.initial word) rho) :
    ∃ vectors, afterEach (StateVector.readSample b) v samples = .ok vectors ∧
      vectors.length = samples.length ∧ ∀ i (v' : StateVector), vectors[i]? = some v' →
        v'.OneHot s a (a.run a.initial (word ++ (words.take (i + 1)).flatten)) rho := by
  refine afterEach_ok (P := fun word v => v.OneHot s a (a.run a.initial word) rho) ?_ hsamples h
  intro word v bits values hv hbits
  rw [Automaton.run_append]
  exact hv.readSample hs ha hb hbound (ha.run_lt ha.initial_lt word) hbits

/-- A sequence of samples in blocks; the rest after the last full block is not read. -/
theorem OneHot.readBlocks (hs : s.degree = b.tfhe.midDegree) (ha : a.WellFormed)
    (hb : b.Refreshes s delta rho) {blockSize predicates : ℕ}
    (hbound : a.numStates * (rho + 2 * (blockSize * predicates) * eps) ≤ delta)
    {samples : List (List PreparedGgsw)} {words : List (List Bool)}
    (hsamples : List.Forall₂ (List.Forall₂ (PreparedGgsw.Encrypts b.tables s eps)) samples words)
    (hlength : ∀ w ∈ words, w.length ≤ predicates)
    {word : List Bool} (h : v.OneHot s a (a.run a.initial word) rho) :
    ∃ vectors, afterEach (StateVector.readBlock b) v (fullBlocks blockSize samples) = .ok vectors ∧
      vectors.length = samples.length / blockSize ∧
      ∀ j (v' : StateVector), vectors[j]? = some v' →
        v'.OneHot s a (a.run a.initial (word ++ (words.take ((j + 1) * blockSize)).flatten)) rho := by
  have hblocks : List.Forall₂ (fun block word =>
      List.Forall₂ (PreparedGgsw.Encrypts b.tables s eps) block.flatten word ∧
        word.length ≤ blockSize * predicates)
      (fullBlocks blockSize samples) ((fullBlocks blockSize words).map List.flatten) := by
    have hlengths : ∀ block ∈ fullBlocks blockSize words,
        block.flatten.length ≤ blockSize * predicates :=
      fun block hmem => length_flatten_of_mem_fullBlocks hlength hmem
    rw [List.forall₂_map_right_iff]
    exact ((List.forall₂_and_left _ _).2 ⟨hlengths, (forall₂_fullBlocks hsamples).flip⟩).flip.imp
      fun block word h => ⟨List.rel_flatten h.2, h.1⟩
  obtain ⟨vectors, hvectors, hcount, hall⟩ := afterEach_ok
    (P := fun word v => v.OneHot s a (a.run a.initial word) rho)
    (fun word v block values hv hvalues => by
      rw [Automaton.run_append]
      exact hv.readBlock hs ha hb hbound (ha.run_lt ha.initial_lt word) hvalues.1 hvalues.2)
    hblocks h
  rw [length_fullBlocks] at hcount
  refine ⟨vectors, hvectors, hcount, ?_⟩
  intro j v' hj
  have hlt : j < samples.length / blockSize := hcount ▸ (List.getElem?_eq_some_iff.1 hj).1
  have honehot := hall j v' hj
  -- Words of blocks in a row are the words of the samples in a row.
  rwa [← List.map_take, ← List.flatten_flatten,
    flatten_take_fullBlocks (hsamples.length_eq ▸ hlt)] at honehot

/-- The verdict of a one-hot vector, and its bit. -/
theorem OneHot.verdict (hpos : 0 < s.degree) (ha : a.WellFormed) (hcurrent : current < a.numStates)
    (hrho : a.numStates * rho < 2 ^ 29) (h : v.OneHot s a current rho) :
    distance (v.verdict.phase s.toLwe) (signWord (a.isFinal current)) ≤ a.numStates * rho ∧
      Lwe.bit (v.verdict.phase s.toLwe) = a.isFinal current := by
  have hdist := h.carries.verdict hpos ha hcurrent
  exact ⟨hdist, Lwe.bit_of_distance (hdist.trans_lt hrho)⟩

end StateVector

open StateVector

/-! ### Monitors -/

namespace OnlineMonitor

variable {m : OnlineMonitor} {p' : Pipeline}

/-- One sample whose bits can be computed. -/
theorem perform_feed {sample : List Ckks.Ciphertext} {bits : List PreparedGgsw} {v : StateVector}
    (hbits : (Pipeline.bits sample).perform m.pipeline = (.ok bits, p'))
    (hv : readSample m.pipeline.bridge m.engine bits = .ok v) :
    (feed sample).perform m =
      (.ok v.verdict, { pipeline := p', engine := v, verdict := v.verdict }) := by
  rw [feed, Action.perform_bind_of_ok (Action.perform_within_of_ok _ _ m hbits),
    Action.perform_bind_of_ok (Action.perform_get _)]
  rw [← (Pipeline.bits_keeps hbits).bridge, readSample] at hv
  rw [Action.perform_bind_of_ok (by rw [Action.perform_ofOutcome, hv])]
  rfl

/-- A monitor that is fed samples one at a time goes through the vectors after each of them. -/
theorem perform_mapM_feed {trace : List (List Ckks.Ciphertext)} {samples : List (List PreparedGgsw)}
    {vectors : List StateVector}
    (hbits : (trace.mapM Pipeline.bits).perform m.pipeline = (.ok samples, p'))
    (hvectors : afterEach (readSample m.pipeline.bridge) m.engine samples = .ok vectors) :
    ∃ m', (trace.mapM feed).perform m = (.ok (vectors.map StateVector.verdict), m') ∧
      m'.engine = vectors.getLastD m.engine := by
  induction trace generalizing m samples vectors with
  | nil =>
    rw [List.mapM_nil, Action.perform_pure, Prod.mk.injEq, Except.ok.injEq] at hbits
    obtain ⟨rfl, rfl⟩ := hbits
    obtain rfl := Outcome.pure_eq_ok_iff.1 hvectors
    exact ⟨m, rfl, rfl⟩
  | cons sample trace ih =>
    obtain ⟨bits, mid, rest, hfirst, hrest, rfl⟩ := Action.perform_mapM_cons_eq_ok_iff.1 hbits
    obtain ⟨v, hv, hvectors⟩ := Outcome.bind_eq_ok_iff.1 hvectors
    obtain ⟨more, hmore, hvectors⟩ := Outcome.bind_eq_ok_iff.1 hvectors
    obtain rfl := Outcome.pure_eq_ok_iff.1 hvectors
    rw [← (Pipeline.bits_keeps hfirst).bridge] at hmore
    obtain ⟨m', hm', hengine⟩ :=
      ih (m := { pipeline := mid, engine := v, verdict := v.verdict }) hrest hmore
    refine ⟨m', Action.perform_mapM_cons_eq_ok_iff.2
      ⟨v.verdict, _, more.map StateVector.verdict, perform_feed hfirst hv, hm', rfl⟩, ?_⟩
    rw [hengine, List.getLastD_cons]

end OnlineMonitor

namespace BlockMonitor

variable {m : BlockMonitor} {p' : Pipeline} {sample values : List Ckks.Ciphertext}

/-- A sample whose propositions can be evaluated is stored, and may close the block. -/
theorem perform_feed (hvalues : (Pipeline.predicates sample).perform m.pipeline = (.ok values, p')) :
    (feed sample).perform m =
      (do
        if m.blockSize ≤ m.pending.length + 1 then closeBlock
        pure (← get).verdict : Action BlockMonitor (Lwe 32)).perform
          { m with pipeline := p', boundary := false, pending := m.pending ++ [values] } := by
  have hlength : (m.pending ++ [values]).length = m.pending.length + 1 := List.length_append
  rw [feed, Action.perform_bind_of_ok (Action.perform_modify _ _), Action.perform_bind_of_ok
      (Action.perform_within_of_ok pipeline _ { m with boundary := false } hvalues),
    Action.perform_bind_of_ok (Action.perform_modify _ _),
    Action.perform_bind_of_ok (Action.perform_get _), ← hlength]

theorem perform_closeBlock {v : StateVector}
    (hv : readBlock m.pipeline m.engine m.pending = .ok v) :
    closeBlock.perform m = (.ok (), { m with
      pending := [], engine := v, verdict := v.verdict, boundary := true,
      blocks := m.blocks + 1 }) := by
  rw [closeBlock, Action.perform_bind_of_ok (Action.perform_get _),
    Action.perform_bind_of_ok (Action.perform_set _ _),
    Action.perform_bind_of_ok (by rw [Action.perform_ofOutcome, hv])]
  rfl

/-- A sample in the middle of a block waits for the others. -/
theorem perform_feed_of_lt
    (hvalues : (Pipeline.predicates sample).perform m.pipeline = (.ok values, p'))
    (hlt : m.pending.length + 1 < m.blockSize) :
    (feed sample).perform m = (.ok m.verdict,
      { m with pipeline := p', boundary := false, pending := m.pending ++ [values] }) := by
  rw [perform_feed hvalues, if_neg (Nat.not_le.2 hlt)]
  rfl

/-- The last sample of a block closes it. -/
theorem perform_feed_of_eq {bits : List (List PreparedGgsw)} {v : StateVector}
    (hvalues : (Pipeline.predicates sample).perform m.pipeline = (.ok values, p'))
    (hbits : m.pipeline.bitsOfAll (m.pending ++ [values]) = .ok bits)
    (hv : StateVector.readBlock m.pipeline.bridge m.engine bits = .ok v)
    (heq : m.pending.length + 1 = m.blockSize) :
    (feed sample).perform m = (.ok v.verdict,
      { m with
        pipeline := p', engine := v, verdict := v.verdict, boundary := true, pending := [],
        blocks := m.blocks + 1 }) := by
  have hkeeps := Pipeline.predicates_keeps hvalues
  have hread : readBlock p' m.engine (m.pending ++ [values]) = .ok v := by
    rw [readBlock, Pipeline.bitsOfAll_congr hkeeps, hbits, Outcome.ok_bind, hkeeps.bridge]
    exact hv
  rw [perform_feed hvalues, if_pos heq.ge, Action.perform_bind_of_ok (perform_closeBlock hread)]
  rfl

/-- Reading the trace, the monitor goes through the vectors at the ends of the blocks; what it answers
to a sample is the verdict of the last full block. -/
def GoesThrough (m : BlockMonitor) (trace : List (List Ckks.Ciphertext))
    (vectors : List StateVector) : Prop :=
  ∃ verdicts m', (trace.mapM feed).perform m = (.ok verdicts, m') ∧
    m'.engine = vectors.getLastD m.engine ∧ verdicts.length = trace.length ∧
    ∀ i verdict, verdicts[i]? = some verdict →
      verdict = ((vectors.map StateVector.verdict).take
        ((m.pending.length + (i + 1)) / m.blockSize)).getLastD m.verdict

variable {trace : List (List Ckks.Ciphertext)} {vectors : List StateVector}

/-- While the block is open, the answers stay with the verdict of the monitor. -/
theorem GoesThrough.wait
    (hvalues : (Pipeline.predicates sample).perform m.pipeline = (.ok values, p'))
    (hlt : m.pending.length + 1 < m.blockSize)
    (h : GoesThrough { m with
      pipeline := p', boundary := false, pending := m.pending ++ [values] } trace vectors) :
    GoesThrough m (sample :: trace) vectors := by
  obtain ⟨verdicts, m', hm', hengine, hcount, hall⟩ := h
  refine ⟨m.verdict :: verdicts, m', Action.perform_mapM_cons_eq_ok_iff.2
    ⟨m.verdict, _, verdicts, perform_feed_of_lt hvalues hlt, hm', rfl⟩, hengine, by simp [hcount], ?_⟩
  intro i verdict hi
  cases i with
  | zero =>
    obtain rfl := Option.some.inj hi
    rw [Nat.div_eq_of_lt hlt]
    rfl
  | succ i =>
    have := hall i verdict hi
    rwa [List.length_append, List.length_singleton, Nat.add_assoc, Nat.add_comm 1] at this

/-- From the end of a block on, samples are counted anew. -/
theorem GoesThrough.close {bits : List (List PreparedGgsw)} {v : StateVector}
    (hvalues : (Pipeline.predicates sample).perform m.pipeline = (.ok values, p'))
    (hbits : m.pipeline.bitsOfAll (m.pending ++ [values]) = .ok bits)
    (hv : StateVector.readBlock m.pipeline.bridge m.engine bits = .ok v)
    (heq : m.pending.length + 1 = m.blockSize)
    (h : GoesThrough { m with
      pipeline := p', engine := v, verdict := v.verdict, boundary := true, pending := [],
      blocks := m.blocks + 1 } trace vectors) :
    GoesThrough m (sample :: trace) (v :: vectors) := by
  obtain ⟨verdicts, m', hm', hengine, hcount, hall⟩ := h
  have hpos : 0 < m.blockSize := by omega
  refine ⟨v.verdict :: verdicts, m', Action.perform_mapM_cons_eq_ok_iff.2
    ⟨v.verdict, _, verdicts, perform_feed_of_eq hvalues hbits hv heq, hm', rfl⟩,
    by rw [hengine, List.getLastD_cons], by simp [hcount], ?_⟩
  intro i verdict hi
  cases i with
  | zero =>
    obtain rfl := Option.some.inj hi
    rw [Nat.zero_add, heq, Nat.div_self hpos]
    rfl
  | succ i =>
    have := hall i verdict hi
    rw [List.length_nil, Nat.zero_add] at this
    rw [Nat.add_comm (i + 1), ← Nat.add_assoc, heq, Nat.add_div_left _ hpos, List.map_cons,
      List.take_succ_cons, List.getLastD_cons]
    exact this

/-- A monitor whose pipeline computes the bits of the open block and of the trace goes through the
vectors of the blocks that they fill. -/
theorem goesThrough_of_afterEach {evaluated : List (List Ckks.Ciphertext)}
    {samples : List (List PreparedGgsw)} (hpending : m.pending.length < m.blockSize)
    (hvalues : (trace.mapM Pipeline.predicates).perform m.pipeline = (.ok evaluated, p'))
    (hbits : m.pipeline.bitsOfAll (m.pending ++ evaluated) = .ok samples)
    (hvectors : afterEach (StateVector.readBlock m.pipeline.bridge) m.engine
      (fullBlocks m.blockSize samples) = .ok vectors) :
    GoesThrough m trace vectors := by
  induction trace generalizing m evaluated samples vectors with
  | nil =>
    rw [List.mapM_nil, Action.perform_pure, Prod.mk.injEq, Except.ok.injEq] at hvalues
    obtain ⟨rfl, rfl⟩ := hvalues
    have hcount : samples.length < m.blockSize := by
      rw [← (Outcome.mapM_eq_ok_iff.1 hbits).length_eq, List.append_nil]
      exact hpending
    rw [fullBlocks_of_lt hcount] at hvectors
    obtain rfl := Outcome.pure_eq_ok_iff.1 hvectors
    exact ⟨[], m, rfl, rfl, rfl, by simp⟩
  | cons sample trace ih =>
    obtain ⟨values, mid, evaluated, hfirst, hrest, rfl⟩ :=
      Action.perform_mapM_cons_eq_ok_iff.1 hvalues
    have hkeeps := Pipeline.predicates_keeps hfirst
    rw [List.append_cons] at hbits
    rcases Nat.lt_or_ge (m.pending.length + 1) m.blockSize with hlt | hge
    · rw [← Pipeline.bitsOfAll_congr hkeeps] at hbits
      rw [← hkeeps.bridge] at hvectors
      exact .wait hfirst hlt (ih (by simpa using hlt) hrest hbits hvectors)
    · have heq : m.pending.length + 1 = m.blockSize := by omega
      -- The first block of the bits is the one that this sample closes.
      obtain ⟨block, rest, hblock, hremaining, rfl⟩ := Outcome.mapM_append_eq_ok_iff.1 hbits
      have hsize : block.length = m.blockSize := by
        rw [← (Outcome.mapM_eq_ok_iff.1 hblock).length_eq, List.length_append, List.length_singleton,
          heq]
      rw [fullBlocks_append (by omega) hsize] at hvectors
      obtain ⟨v, hv, hvectors⟩ := Outcome.bind_eq_ok_iff.1 hvectors
      obtain ⟨more, hmore, hvectors⟩ := Outcome.bind_eq_ok_iff.1 hvectors
      obtain rfl := Outcome.pure_eq_ok_iff.1 hvectors
      rw [← Pipeline.bitsOfAll, ← Pipeline.bitsOfAll_congr hkeeps] at hremaining
      rw [← hkeeps.bridge] at hmore
      exact .close hfirst hblock hv heq (ih (Nat.zero_lt_of_lt hpending) hrest hremaining hmore)

theorem start_ok {p : Pipeline} {a : Automaton} {blockSize : ℕ} {v : StateVector}
    (hblock : 0 < blockSize) (hv : StateVector.start a p.degree = .ok v) :
    start p a blockSize =
      .ok { pipeline := p, engine := v, blockSize, verdict := p.initialVerdict } := by
  rw [start, require_of hblock, Outcome.ok_bind, hv]
  rfl

end BlockMonitor

theorem OnlineMonitor.start_ok {p : Pipeline} {a : Automaton} {v : StateVector}
    (hv : StateVector.start a p.degree = .ok v) :
    start p a = .ok { pipeline := p, engine := v, verdict := p.initialVerdict } := by
  rw [start, hv]
  rfl

/-! ### Runs -/

namespace StateVector

/-- A vector that has read a word: it is one-hot in the state that the word leads to, and its verdict
tells whether the word is accepted. -/
structure HasRead (s : GlweSecret) (a : Automaton) (rho : ℕ) (word : List Bool) (v : StateVector) :
    Prop where
  isOneHot : v.OneHot s a (a.run a.initial word) rho
  distance_verdict_le : distance (v.verdict.phase s.toLwe) (signWord (a.accepts word)) ≤
    a.numStates * rho
  bit_verdict : Lwe.bit (v.verdict.phase s.toLwe) = a.accepts word

variable {b : SchemeBridge} {s : GlweSecret} {a : Automaton} {eps delta rho : ℕ}

/-- One-hot vectors tell whether the word is accepted while the noise of all states stays small. -/
theorem OneHot.hasRead (hpos : 0 < s.degree) (ha : a.WellFormed) (hrho : a.numStates * rho < 2 ^ 29)
    {word : List Bool} {v : StateVector} (h : v.OneHot s a (a.run a.initial word) rho) :
    v.HasRead s a rho word :=
  have hverdict := h.verdict hpos ha (ha.run_lt ha.initial_lt word) hrho
  ⟨h, hverdict.1, hverdict.2⟩

/-- Reading samples in their order, with a refresh after every bit or after every block, the vector
stays one-hot up to the noise of a refresh.  After every sample, or every block, its verdict is within
the noise of all states of the word for acceptance of the samples so far, and its bit is the
acceptance.  A monitor whose pipeline computes these bits goes through these vectors. -/
theorem verdicts_of_prefixes {predicates : ℕ} (hs : s.degree = b.tfhe.midDegree) (ha : a.WellFormed)
    (hb : b.Refreshes s delta rho) (hrho : a.numStates * rho < 2 ^ 29)
    {samples : List (List PreparedGgsw)} {words : List (List Bool)}
    (hsamples : List.Forall₂ (List.Forall₂ (PreparedGgsw.Encrypts b.tables s eps)) samples words)
    (hlength : ∀ w ∈ words, w.length ≤ predicates) :
    ∃ v, StateVector.start a b.tfhe.midDegree = .ok v ∧
      (a.numStates * (rho + 2 * eps) ≤ delta →
        ∃ vectors, afterEach (readSample b) v samples = .ok vectors ∧
          vectors.length = samples.length ∧
          (∀ i (v : StateVector), vectors[i]? = some v →
            v.HasRead s a rho (words.take (i + 1)).flatten) ∧
          ∀ (p p' : Pipeline) (trace : List (List Ckks.Ciphertext)), p.bridge = b →
            (trace.mapM Pipeline.bits).perform p = (.ok samples, p') →
            ∃ m m', OnlineMonitor.start p a = .ok m ∧
              (trace.mapM OnlineMonitor.feed).perform m =
                (.ok (vectors.map StateVector.verdict), m') ∧
              m'.engine = vectors.getLastD v) ∧
      ∀ blockSize, 0 < blockSize →
        a.numStates * (rho + 2 * (blockSize * predicates) * eps) ≤ delta →
        ∃ vectors, afterEach (readBlock b) v (fullBlocks blockSize samples) = .ok vectors ∧
          vectors.length = samples.length / blockSize ∧
          (∀ j (v : StateVector), vectors[j]? = some v →
            v.HasRead s a rho (words.take ((j + 1) * blockSize)).flatten) ∧
          ∀ (p p' : Pipeline) (trace evaluated : List (List Ckks.Ciphertext)), p.bridge = b →
            (trace.mapM Pipeline.predicates).perform p = (.ok evaluated, p') →
            p.bitsOfAll evaluated = .ok samples →
            ∃ m verdicts m', BlockMonitor.start p a blockSize = .ok m ∧
              (trace.mapM BlockMonitor.feed).perform m = (.ok verdicts, m') ∧
              m'.engine = vectors.getLastD v ∧ verdicts.length = trace.length ∧
              ∀ i verdict, verdicts[i]? = some verdict →
                verdict = ((vectors.map StateVector.verdict).take
                  ((i + 1) / blockSize)).getLastD p.initialVerdict := by
  obtain ⟨hdegree, hpos⟩ := hb.degreeOk
  rw [← hs] at hdegree hpos
  obtain ⟨v, hv, hcarries⟩ := StateVector.start_ok (a := a) hdegree hpos
  rw [hs] at hv
  have hstart : v.OneHot s a (a.run a.initial []) rho := hcarries.oneHot_of_le (Nat.zero_le rho)
  refine ⟨v, hv, ?_, ?_⟩
  · intro hbound
    obtain ⟨vectors, hvectors, hcount, hall⟩ := hstart.readSamples hs ha hb hbound hsamples
    refine ⟨vectors, hvectors, hcount, fun i v hi => (hall i v hi).hasRead hpos ha hrho, ?_⟩
    rintro p p' trace rfl hbits
    obtain ⟨m', hm', hengine⟩ := OnlineMonitor.perform_mapM_feed
      (m := { pipeline := p, engine := v, verdict := p.initialVerdict }) hbits hvectors
    exact ⟨_, m', OnlineMonitor.start_ok hv, hm', hengine⟩
  · intro blockSize hblock hbound
    obtain ⟨vectors, hvectors, hcount, hall⟩ :=
      hstart.readBlocks hs ha hb hbound hsamples hlength
    refine ⟨vectors, hvectors, hcount, fun j v hj => (hall j v hj).hasRead hpos ha hrho, ?_⟩
    rintro p p' trace evaluated rfl hvalues hbits
    obtain ⟨verdicts, m', hm', hengine, hcount, hverdicts⟩ := BlockMonitor.goesThrough_of_afterEach
      (m := { pipeline := p, engine := v, blockSize, verdict := p.initialVerdict })
      hblock hvalues hbits hvectors
    refine ⟨_, verdicts, m', BlockMonitor.start_ok hblock hv, hm', hengine, hcount, ?_⟩
    intro i verdict hi
    have := hverdicts i verdict hi
    rwa [List.length_nil, Nat.zero_add] at this

/-- Whether a word has a bit after its first zero; the second state has one successor for both
bits. -/
def bitAfterZero : Automaton where
  initial := 0
  accepting := #[false, false, true]
  transitions := #[(1, 0), (2, 2), (2, 2)]

theorem wellFormed_bitAfterZero : bitAfterZero.WellFormed := ⟨by decide, by decide, by decide⟩

/-- Three samples of one zero each, read one by one and in a block of two. -/
theorem verdicts_of_three_zeros :
    ∃ v online blocks, StateVector.start bitAfterZero 4 = .ok v ∧
      afterEach (readSample zeroBridge) v [[zeroBit], [zeroBit], [zeroBit]] = .ok online ∧
      online.map (fun v => Lwe.bit (v.verdict.phase zeroSecret.toLwe)) = [false, true, true] ∧
      afterEach (readBlock zeroBridge) v [[[zeroBit], [zeroBit]]] = .ok blocks ∧
      blocks.map (fun v => Lwe.bit (v.verdict.phase zeroSecret.toLwe)) = [true] := by
  have hsamples : List.Forall₂ (List.Forall₂ (PreparedGgsw.Encrypts zeroBridge.tables zeroSecret 0))
      [[zeroBit], [zeroBit], [zeroBit]] [[false], [false], [false]] := by
    have h := List.Forall₂.cons zeroBit_encrypts .nil
    exact .cons h (.cons h (.cons h .nil))
  obtain ⟨v, hv, honline, hblock⟩ :=
    verdicts_of_prefixes (b := zeroBridge) (s := zeroSecret) (a := bitAfterZero) rfl
      wellFormed_bitAfterZero zeroBridge_refreshes (by decide) hsamples
      (by decide : ∀ w ∈ [[false], [false], [false]], w.length ≤ 1)
  obtain ⟨online, honline, hcount, hread, -⟩ := honline (by decide)
  obtain ⟨blocks, hblocks, hcount', hread', -⟩ := hblock 2 (by decide) (by decide)
  refine ⟨v, online, blocks, hv, honline, ?_, hblocks, ?_⟩
  · obtain ⟨v₀, v₁, v₂, rfl⟩ := List.length_eq_three.1 hcount
    rw [List.map_cons, List.map_cons, List.map_cons, List.map_nil, (hread 0 v₀ rfl).bit_verdict,
      (hread 1 v₁ rfl).bit_verdict, (hread 2 v₂ rfl).bit_verdict]
    decide
  · obtain ⟨v₀, rfl⟩ := List.length_eq_one_iff.1 hcount'
    rw [List.map_singleton, (hread' 0 v₀ rfl).bit_verdict]
    decide

end StateVector

end CipherMonitor
