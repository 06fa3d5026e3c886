import CipherMonitor.Proofs.History
import CipherMonitor.Proofs.Monitor.Failure

/-!
# Blocks that may fail

A monitor of blocks can fail at a sample in two ways: the sample has no values, or it completes a
block that cannot be read.  The first leaves buffer, states and verdict alone; the second empties
the buffer.

* `openBlock` — the elements after the last full block of a sequence.
* `fullBlocks_concat_of_lt`, `fullBlocks_concat_of_eq` — a sequence that grows by one element.
* `BlockMonitor.perform_feed_eq` — a sample without values, a sample that waits, a block that can be
  read, and one that cannot.
* `BlockMonitor.vectors` — the vectors after the blocks that can be read.
* `BlockMonitor.StateAfter`, `BlockMonitor.stateAfter_of_start` — the state after a history of
  samples.
-/

namespace CipherMonitor

open Ckks

/-! ### Blocks of a growing sequence -/

section

theorem not_dvd_succ_of_mod_lt {n k : ℕ} (h : n % k + 1 < k) : ¬ k ∣ n + 1 := by
  intro hdvd
  have hmod : (n + 1) % k = n % k + 1 % k :=
    Nat.add_mod_of_add_mod_lt (by rwa [Nat.mod_eq_of_lt (by omega : 1 < k)])
  rw [Nat.mod_eq_zero_of_dvd hdvd, Nat.mod_eq_of_lt (by omega : 1 < k)] at hmod
  omega

theorem dvd_succ_of_mod_eq {n k : ℕ} (h : n % k + 1 = k) : k ∣ n + 1 := by
  refine ⟨n / k + 1, ?_⟩
  rw [Nat.mul_add]
  have := Nat.div_add_mod n k
  omega

variable {α : Type} {k : ℕ} {l : List α}

/-- The elements after the last full block. -/
def openBlock (k : ℕ) (l : List α) : List α := l.drop (l.length / k * k)

theorem length_openBlock (k : ℕ) (l : List α) : (openBlock k l).length = l.length % k := by
  rw [openBlock, List.length_drop, Nat.mod_eq_sub_div_mul]

theorem openBlock_concat_of_lt (h : l.length % k + 1 < k) (x : α) :
    openBlock k (l ++ [x]) = openBlock k l ++ [x] := by
  rw [openBlock, List.length_append, List.length_singleton,
    Nat.succ_div_of_not_dvd (not_dvd_succ_of_mod_lt h),
    List.drop_append_of_le_length (Nat.div_mul_le_self _ _)]
  rfl

theorem openBlock_concat_of_eq (h : l.length % k + 1 = k) (x : α) :
    openBlock k (l ++ [x]) = [] := by
  rw [openBlock, List.length_append, List.length_singleton,
    Nat.div_mul_cancel (dvd_succ_of_mod_eq h)]
  exact List.drop_eq_nil_of_le (by rw [List.length_append, List.length_singleton])

/-- A block that is full stays what it is. -/
theorem take_drop_concat {j : ℕ} (hj : j < l.length / k) (x : α) :
    ((l ++ [x]).drop (j * k)).take k = (l.drop (j * k)).take k := by
  have hle : (j + 1) * k ≤ l.length :=
    (Nat.mul_le_mul_right k hj).trans (Nat.div_mul_le_self l.length k)
  rw [Nat.succ_mul] at hle
  rw [List.drop_append_of_le_length (by omega),
    List.take_append_of_le_length (by rw [List.length_drop]; omega)]

theorem fullBlocks_concat_of_lt (h : l.length % k + 1 < k) (x : α) :
    fullBlocks k (l ++ [x]) = fullBlocks k l := by
  rw [fullBlocks, fullBlocks, List.length_append, List.length_singleton,
    Nat.succ_div_of_not_dvd (not_dvd_succ_of_mod_lt h)]
  exact List.map_congr_left fun j hj => take_drop_concat (List.mem_range.1 hj) x

/-- The element that fills the open block makes it the last full one. -/
theorem fullBlocks_concat_of_eq (h : l.length % k + 1 = k) (x : α) :
    fullBlocks k (l ++ [x]) = fullBlocks k l ++ [openBlock k l ++ [x]] := by
  have hlast : ((l ++ [x]).drop (l.length / k * k)).take k = openBlock k l ++ [x] := by
    rw [List.drop_append_of_le_length (Nat.div_mul_le_self _ _), ← openBlock]
    refine List.take_of_length_le ?_
    rw [List.length_append, List.length_singleton, length_openBlock, h]
  rw [fullBlocks, fullBlocks, List.length_append, List.length_singleton,
    Nat.succ_div_of_dvd (dvd_succ_of_mod_eq h), List.range_succ, List.map_append,
    List.map_singleton, hlast]
  congr 1
  exact List.map_congr_left fun j hj => take_drop_concat (List.mem_range.1 hj) x

end

/-! ### The evaluated samples of a history -/

namespace Pipeline

variable {p : Pipeline} {sample values : List Ciphertext} {trace : List (List Ciphertext)}

/-- The values of the samples of a history that have some. -/
def evaluated (p : Pipeline) (trace : List (List Ciphertext)) : List (List Ciphertext) :=
  Action.successes (Action.answers predicates p trace)

/-- A history of evaluations changes the memory only. -/
theorem exists_after_predicates (p : Pipeline) (trace : List (List Ciphertext)) :
    ∃ memory, Action.after predicates p trace = p.withMemory memory := by
  refine Action.after_induction (P := fun p' => ∃ memory, p' = p.withMemory memory) ?_
    ⟨_, p.withMemory_previous.symm⟩ trace
  rintro _ sample ⟨memory, rfl⟩
  exact ⟨_, congrArg Prod.snd (perform_predicates _ sample)⟩

theorem evaluated_concat_of_ok
    (h : (Action.after predicates p trace).evaluator.values sample = .ok values) :
    p.evaluated (trace ++ [sample]) = p.evaluated trace ++ [values] := by
  rw [evaluated, Action.answers_concat, Action.successes_append, perform_predicates, h]
  rfl

theorem evaluated_concat_of_error {fault : Fault}
    (h : (Action.after predicates p trace).evaluator.values sample = .error fault) :
    p.evaluated (trace ++ [sample]) = p.evaluated trace := by
  rw [evaluated, Action.answers_concat, Action.successes_append, perform_predicates, h]
  exact List.append_nil _

end Pipeline

namespace BlockMonitor

variable {m m' : BlockMonitor} {p : Pipeline} {v : StateVector} {sample values : List Ciphertext}

/-! ### One sample -/

theorem readBlock_withMemory (p : Pipeline) (memory : Option Ciphertext) :
    readBlock (p.withMemory memory) = readBlock p := rfl

theorem perform_closeBlock_of_error {fault : Fault}
    (h : readBlock m.pipeline m.engine m.pending = .error fault) :
    closeBlock.perform m = (.error fault, { m with pending := [] }) := by
  rw [closeBlock, Action.perform_bind_of_ok (Action.perform_get _),
    Action.perform_bind_of_ok (Action.perform_set _ _), Action.perform_bind,
    Action.perform_ofOutcome, h]

/-- A sample without values changes the memory at most; a sample with values waits in the buffer, or
completes the block, which leaves the buffer whether it can be read or not. -/
theorem perform_feed_eq (m : BlockMonitor) (sample : List Ciphertext) :
    let next := { m with
      pipeline := m.pipeline.withMemory (m.pipeline.evaluator.memoryAfter sample)
      boundary := false }
    (feed sample).perform m =
      match m.pipeline.evaluator.values sample with
      | .error fault => (.error fault, next)
      | .ok values =>
        if m.pending.length + 1 < m.blockSize then
          (.ok m.verdict, { next with pending := m.pending ++ [values] })
        else
          match readBlock m.pipeline m.engine (m.pending ++ [values]) with
          | .error fault => (.error fault, { next with pending := [] })
          | .ok v => (.ok v.verdict, { next with
              pending := [], engine := v, verdict := v.verdict, boundary := true,
              blocks := m.blocks + 1 }) := by
  intro next
  cases hvalues : m.pipeline.evaluator.values sample with
  | error fault =>
    rw [feed, Action.perform_bind_of_ok (Action.perform_modify _ _), Action.perform_bind,
      Action.perform_within, Pipeline.perform_predicates, hvalues]
  | ok values =>
    have hpredicates : (Pipeline.predicates sample).perform m.pipeline =
        (.ok values, m.pipeline.withMemory (m.pipeline.evaluator.memoryAfter sample)) := by
      rw [Pipeline.perform_predicates, hvalues]
    dsimp only
    split_ifs with hlt
    · exact perform_feed_of_lt hpredicates hlt
    · rw [perform_feed hpredicates, if_pos (Nat.not_lt.1 hlt)]
      rw [← readBlock_withMemory m.pipeline (m.pipeline.evaluator.memoryAfter sample)]
      cases hread : readBlock (m.pipeline.withMemory (m.pipeline.evaluator.memoryAfter sample))
        m.engine (m.pending ++ [values]) with
      | error fault => rw [Action.perform_bind, perform_closeBlock_of_error hread]
      | ok v =>
        rw [Action.perform_bind_of_ok (perform_closeBlock hread)]
        rfl

/-- What a failing sample leaves behind: states, verdict and count of blocks, and the buffer unless
the sample has values, which then complete a block. -/
structure LeftByFailure (m m' : BlockMonitor) (sample : List Ciphertext) : Prop where
  engine : m'.engine = m.engine
  verdict : m'.verdict = m.verdict
  blocks : m'.blocks = m.blocks
  boundary : m'.boundary = false
  pending_of_error : ∀ fault, m.pipeline.evaluator.values sample = .error fault →
    m'.pending = m.pending
  pending_of_ok : ∀ values, m.pipeline.evaluator.values sample = .ok values →
    m.blockSize ≤ m.pending.length + 1 ∧ m'.pending = []

theorem leftByFailure_of_feed {fault : Fault} (h : (feed sample).perform m = (.error fault, m')) :
    LeftByFailure m m' sample := by
  rw [perform_feed_eq] at h
  cases hvalues : m.pipeline.evaluator.values sample with
  | error fault' =>
    rw [hvalues] at h
    obtain ⟨-, rfl⟩ := Prod.mk.inj h
    exact ⟨rfl, rfl, rfl, rfl, fun _ _ => rfl, fun _ hok => by simp [hvalues] at hok⟩
  | ok values =>
    rw [hvalues] at h
    dsimp only at h
    split_ifs at h with hlt
    · cases (Prod.mk.inj h).1
    · split at h
      · obtain ⟨-, rfl⟩ := Prod.mk.inj h
        exact ⟨rfl, rfl, rfl, rfl, fun _ herror => by simp [hvalues] at herror,
          fun _ _ => ⟨Nat.not_lt.1 hlt, rfl⟩⟩
      · cases (Prod.mk.inj h).1

/-- The answer to a sample is the verdict afterwards. -/
theorem verdict_of_feed {verdict : Lwe 32} (h : (feed sample).perform m = (.ok verdict, m')) :
    m'.verdict = verdict := by
  rw [perform_feed_eq] at h
  split at h
  · cases (Prod.mk.inj h).1
  · split_ifs at h with hlt
    · obtain ⟨hverdict, rfl⟩ := Prod.mk.inj h
      exact Except.ok.inj hverdict
    · split at h
      · cases (Prod.mk.inj h).1
      · obtain ⟨hverdict, rfl⟩ := Prod.mk.inj h
        exact Except.ok.inj hverdict

/-- A sample after which more blocks have been read is answered. -/
theorem getLast?_answers_of_blocks (trace : List (List Ciphertext)) (sample : List Ciphertext)
    (h : (Action.after feed m (trace ++ [sample])).blocks ≠ (Action.after feed m trace).blocks) :
    ∃ verdict, (Action.answers feed m (trace ++ [sample])).getLast? = some (.ok verdict) := by
  rw [Action.after_concat] at h
  rw [Action.answers_concat, List.getLast?_concat]
  cases hfeed : (feed sample).perform (Action.after feed m trace) with
  | mk answer m' =>
    cases answer with
    | error fault =>
      rw [hfeed] at h
      exact absurd (leftByFailure_of_feed hfeed).blocks h
    | ok verdict => exact ⟨verdict, rfl⟩

/-! ### A history of samples -/

/-- The vectors after the blocks that can be read, each from the one before. -/
def vectors (p : Pipeline) : StateVector → List (List (List Ciphertext)) → List StateVector
  | _, [] => []
  | v, block :: rest =>
    match readBlock p v block with
    | .ok next => next :: vectors p next rest
    | .error _ => vectors p v rest

theorem vectors_append (p : Pipeline) (v : StateVector)
    (before after : List (List (List Ciphertext))) :
    vectors p v (before ++ after) =
      vectors p v before ++ vectors p ((vectors p v before).getLastD v) after := by
  induction before generalizing v with
  | nil => rfl
  | cons block before ih =>
    rw [List.cons_append, vectors, vectors]
    cases readBlock p v block with
    | error fault => exact ih v
    | ok next =>
      dsimp only
      rw [ih next, List.getLastD_cons, List.cons_append]

theorem vectors_singleton_of_ok {block : List (List Ciphertext)} {next : StateVector}
    (h : readBlock p v block = .ok next) : vectors p v [block] = [next] := by
  rw [vectors, h]
  rfl

theorem vectors_singleton_of_error {block : List (List Ciphertext)} {fault : Fault}
    (h : readBlock p v block = .error fault) : vectors p v [block] = [] := by
  rw [vectors, h]
  rfl

/-- The state after a history of samples and the answers to them, from the vector `v` on.  The
samples that have values fill the blocks, whether these can be read or not. -/
structure StateAfter (p : Pipeline) (v : StateVector) (blockSize : ℕ)
    (trace : List (List Ciphertext)) (answers : List (Outcome (Lwe 32))) (m : BlockMonitor) :
    Prop where
  blockSize_eq : m.blockSize = blockSize
  pipeline : m.pipeline = Action.after Pipeline.predicates p trace
  /-- The buffer holds the values since the last block, whether it was read or not. -/
  pending : m.pending = openBlock blockSize (p.evaluated trace)
  pending_lt : m.pending.length < blockSize
  engine : m.engine = (vectors p v (fullBlocks blockSize (p.evaluated trace))).getLastD v
  verdict : m.verdict = ((vectors p v (fullBlocks blockSize (p.evaluated trace))).map
    StateVector.verdict).getLastD p.initialVerdict
  blocks : m.blocks = (vectors p v (fullBlocks blockSize (p.evaluated trace))).length
  /-- The verdict is new when the last sample was answered and completed a block. -/
  boundary : m.boundary = true ↔
    (∃ verdict, answers.getLast? = some (.ok verdict)) ∧ blockSize ∣ (p.evaluated trace).length

namespace StateAfter

variable {blockSize : ℕ} {trace : List (List Ciphertext)} {answers : List (Outcome (Lwe 32))}

theorem nil (h : 0 < blockSize) : StateAfter p v blockSize [] []
    { pipeline := p, engine := v, blockSize, verdict := p.initialVerdict } := by
  have hblocks : fullBlocks blockSize (p.evaluated []) = [] := fullBlocks_of_lt h
  refine ⟨rfl, rfl, List.drop_nil.symm, h, ?_, ?_, ?_, by simp⟩ <;> rw [hblocks] <;> rfl

/-- A sample without values. -/
theorem refuse {fault : Fault} (h : StateAfter p v blockSize trace answers m)
    (hvalues : m.pipeline.evaluator.values sample = .error fault) :
    StateAfter p v blockSize (trace ++ [sample]) (answers ++ [.error fault]) { m with
      pipeline := m.pipeline.withMemory (m.pipeline.evaluator.memoryAfter sample)
      boundary := false } := by
  have hevaluated := Pipeline.evaluated_concat_of_error (h.pipeline ▸ hvalues)
  refine ⟨h.blockSize_eq, ?_, ?_, h.pending_lt, ?_, ?_, ?_, by simp⟩
  · rw [Action.after_concat, Pipeline.perform_predicates, h.pipeline]
  · exact h.pending.trans (by rw [hevaluated])
  · exact h.engine.trans (by rw [hevaluated])
  · exact h.verdict.trans (by rw [hevaluated])
  · exact h.blocks.trans (by rw [hevaluated])

theorem length_pending (h : StateAfter p v blockSize trace answers m) :
    m.pending.length = (p.evaluated trace).length % blockSize := by
  rw [h.pending, length_openBlock]

/-- The memory plays no part in the reading of blocks. -/
theorem readBlock_eq (h : StateAfter p v blockSize trace answers m) :
    readBlock m.pipeline = readBlock p := by
  obtain ⟨memory, hmemory⟩ := Pipeline.exists_after_predicates p trace
  rw [h.pipeline, hmemory, readBlock_withMemory]

/-- A sample in the middle of a block. -/
theorem wait (h : StateAfter p v blockSize trace answers m)
    (hvalues : m.pipeline.evaluator.values sample = .ok values)
    (hlt : m.pending.length + 1 < m.blockSize) :
    StateAfter p v blockSize (trace ++ [sample]) (answers ++ [.ok m.verdict]) { m with
      pipeline := m.pipeline.withMemory (m.pipeline.evaluator.memoryAfter sample)
      boundary := false, pending := m.pending ++ [values] } := by
  have hevaluated := Pipeline.evaluated_concat_of_ok (h.pipeline ▸ hvalues)
  rw [h.blockSize_eq, h.length_pending] at hlt
  have hblocks := fullBlocks_concat_of_lt hlt values
  refine ⟨h.blockSize_eq, ?_, ?_, ?_, ?_, ?_, ?_, ?_⟩
  · rw [Action.after_concat, Pipeline.perform_predicates, h.pipeline]
  · rw [hevaluated, openBlock_concat_of_lt hlt, h.pending]
  · rwa [List.length_append, List.length_singleton, h.length_pending]
  · rw [hevaluated, hblocks]
    exact h.engine
  · rw [hevaluated, hblocks]
    exact h.verdict
  · rw [hevaluated, hblocks]
    exact h.blocks
  · rw [hevaluated, List.length_append, List.length_singleton]
    simp [not_dvd_succ_of_mod_lt hlt]

theorem mod_succ_eq (h : StateAfter p v blockSize trace answers m)
    (hge : ¬ m.pending.length + 1 < m.blockSize) :
    (p.evaluated trace).length % blockSize + 1 = blockSize := by
  have hlt := h.pending_lt
  rw [h.blockSize_eq] at hge
  rw [← h.length_pending]
  omega

/-- The sample that completes a block gives it to the blocks of the history. -/
theorem vectors_complete (h : StateAfter p v blockSize trace answers m)
    (hvalues : m.pipeline.evaluator.values sample = .ok values)
    (hge : ¬ m.pending.length + 1 < m.blockSize) :
    vectors p v (fullBlocks blockSize (p.evaluated (trace ++ [sample]))) =
      vectors p v (fullBlocks blockSize (p.evaluated trace)) ++
        vectors p m.engine [m.pending ++ [values]] := by
  rw [Pipeline.evaluated_concat_of_ok (h.pipeline ▸ hvalues),
    fullBlocks_concat_of_eq (h.mod_succ_eq hge), vectors_append, ← h.engine, ← h.pending]

theorem openBlock_complete (h : StateAfter p v blockSize trace answers m)
    (hvalues : m.pipeline.evaluator.values sample = .ok values)
    (hge : ¬ m.pending.length + 1 < m.blockSize) :
    openBlock blockSize (p.evaluated (trace ++ [sample])) = [] := by
  rw [Pipeline.evaluated_concat_of_ok (h.pipeline ▸ hvalues),
    openBlock_concat_of_eq (h.mod_succ_eq hge)]

/-- A sample that completes a block that can be read. -/
theorem close {next : StateVector} (h : StateAfter p v blockSize trace answers m)
    (hvalues : m.pipeline.evaluator.values sample = .ok values)
    (hge : ¬ m.pending.length + 1 < m.blockSize)
    (hread : readBlock m.pipeline m.engine (m.pending ++ [values]) = .ok next) :
    StateAfter p v blockSize (trace ++ [sample]) (answers ++ [.ok next.verdict]) { m with
      pipeline := m.pipeline.withMemory (m.pipeline.evaluator.memoryAfter sample)
      pending := [], engine := next, verdict := next.verdict, boundary := true,
      blocks := m.blocks + 1 } := by
  have hvectors := h.vectors_complete hvalues hge
  rw [h.readBlock_eq] at hread
  rw [vectors_singleton_of_ok hread] at hvectors
  refine ⟨h.blockSize_eq, ?_, (h.openBlock_complete hvalues hge).symm,
    Nat.zero_lt_of_lt h.pending_lt, ?_, ?_, ?_, ?_⟩
  · rw [Action.after_concat, Pipeline.perform_predicates, h.pipeline]
  · rw [hvectors, List.getLastD_concat]
  · rw [hvectors, List.map_append, List.map_singleton, List.getLastD_concat]
  · rw [hvectors, List.length_append, List.length_singleton]
    exact congrArg (· + 1) h.blocks
  · rw [Pipeline.evaluated_concat_of_ok (h.pipeline ▸ hvalues), List.length_append,
      List.length_singleton]
    simp [dvd_succ_of_mod_eq (h.mod_succ_eq hge)]

/-- A sample that completes a block that cannot be read. -/
theorem discard {fault : Fault} (h : StateAfter p v blockSize trace answers m)
    (hvalues : m.pipeline.evaluator.values sample = .ok values)
    (hge : ¬ m.pending.length + 1 < m.blockSize)
    (hread : readBlock m.pipeline m.engine (m.pending ++ [values]) = .error fault) :
    StateAfter p v blockSize (trace ++ [sample]) (answers ++ [.error fault]) { m with
      pipeline := m.pipeline.withMemory (m.pipeline.evaluator.memoryAfter sample)
      boundary := false, pending := [] } := by
  have hvectors := h.vectors_complete hvalues hge
  rw [h.readBlock_eq] at hread
  rw [vectors_singleton_of_error hread, List.append_nil] at hvectors
  refine ⟨h.blockSize_eq, ?_, (h.openBlock_complete hvalues hge).symm,
    Nat.zero_lt_of_lt h.pending_lt, ?_, ?_, ?_, by simp⟩
  · rw [Action.after_concat, Pipeline.perform_predicates, h.pipeline]
  · rw [hvectors]
    exact h.engine
  · rw [hvectors]
    exact h.verdict
  · rw [hvectors]
    exact h.blocks

/-- One more sample. -/
theorem step (h : StateAfter p v blockSize trace answers m) (sample : List Ciphertext) :
    StateAfter p v blockSize (trace ++ [sample]) (answers ++ [((feed sample).perform m).1])
      ((feed sample).perform m).2 := by
  rw [perform_feed_eq]
  cases hvalues : m.pipeline.evaluator.values sample with
  | error fault => exact h.refuse hvalues
  | ok values =>
    dsimp only
    split_ifs with hlt
    · exact h.wait hvalues hlt
    · cases hread : readBlock m.pipeline m.engine (m.pending ++ [values]) with
      | error fault => exact h.discard hvalues hlt hread
      | ok next => exact h.close hvalues hlt hread

end StateAfter

/-- Feeding a new monitor, samples without values and blocks that cannot be read in between.  After
every history the state is the one described by `StateAfter`; the next sample is answered with the
verdict afterwards, or fails and leaves states and verdict alone. -/
theorem stateAfter_of_start {a : Automaton} {blockSize : ℕ} (h : start p a blockSize = .ok m)
    (trace : List (List Ciphertext)) :
    let current := Action.after feed m trace
    StateAfter p m.engine blockSize trace (Action.answers feed m trace) current ∧
      ∀ sample,
        (∀ verdict m', (feed sample).perform current = (.ok verdict, m') → m'.verdict = verdict) ∧
        ∀ fault m', (feed sample).perform current = (.error fault, m') →
          LeftByFailure current m' sample := by
  obtain ⟨⟨⟩, hblock, h⟩ := Outcome.bind_eq_ok_iff.1 h
  obtain ⟨v, -, h⟩ := Outcome.bind_eq_ok_iff.1 h
  obtain rfl := Outcome.pure_eq_ok_iff.1 h
  refine ⟨?_, fun sample => ⟨fun _ _ => verdict_of_feed, fun _ _ => leftByFailure_of_feed⟩⟩
  induction trace using List.reverseRecOn with
  | nil => exact .nil (require_eq_ok_iff.1 hblock)
  | append_singleton trace sample ih =>
    rw [Action.after_concat, Action.answers_concat]
    exact ih.step sample

/-! ### A block of calm samples -/

/-- The calm trace, with an empty sample after the first one. -/
def interrupted : List (List Ciphertext) := calm.take 1 ++ [] :: calm.drop 1

theorem evaluated_interrupted :
    pairJumps.evaluated (interrupted.take 2) = calmValues.take 1 ∧
      pairJumps.evaluated (interrupted.take 3) = calmValues.take 2 ∧
      pairJumps.evaluated interrupted = calmValues := by
  decide +kernel

/-- The calm trace is read in one block of six zeros. -/
theorem exists_readBlock_calm : ∃ v next, StateVector.start zerosModFour 4 = .ok v ∧
    StateVector.readBlock pairJumps.bridge v
      [[zeroBit, zeroBit], [zeroBit, zeroBit], [zeroBit, zeroBit]] = .ok next ∧
    next.HasRead zeroSecret zerosModFour 0 (List.replicate 6 false) := by
  obtain ⟨v, hv, hcarries⟩ :=
    StateVector.start_ok (s := zeroSecret) (a := zerosModFour) rfl (by decide)
  have hbits : List.Forall₂ (PreparedGgsw.Encrypts pairJumps.bridge.tables zeroSecret 0)
      [[zeroBit, zeroBit], [zeroBit, zeroBit], [zeroBit, zeroBit]].flatten
      [[false, false], [false, false], [false, false]].flatten := List.rel_flatten encrypts_calmBits
  obtain ⟨next, hnext, honehot⟩ := (hcarries.oneHot_of_le (Nat.zero_le 0)).readBlock rfl
    wellFormed_zerosModFour pairJumps_refreshes (by decide) (by decide) hbits (by decide : _ ≤ 6)
  exact ⟨v, next, hv, hnext, honehot.hasRead (by decide) wellFormed_zerosModFour (by decide)⟩

/-- In blocks of three, a first sample waits, an empty one is refused, and two more complete a block
that changes the verdict; as a block of its own, a sample that cannot be amplified leaves the
buffer. -/
theorem stateAfter_of_start_interrupted :
    Lwe.bit (pairJumps.initialVerdict.phase zeroSecret.toLwe) = true ∧
    (∃ m waiting closed, start pairJumps zerosModFour 3 = .ok m ∧
      Action.after feed m (interrupted.take 2) = waiting ∧
      waiting.pending = calmValues.take 1 ∧ waiting.boundary = false ∧
      waiting.verdict = pairJumps.initialVerdict ∧
      Action.after feed m interrupted = closed ∧
      closed.pending = [] ∧ closed.blocks = 1 ∧ closed.boundary = true ∧
      Lwe.bit (closed.verdict.phase zeroSecret.toLwe) = false) ∧
    ∃ m discarded, start pairChanges evenZeros 1 = .ok m ∧
      Action.after feed m [[zeroAt 0.001]] = discarded ∧
      discarded.pending = [] ∧ discarded.blocks = 0 := by
  refine ⟨by decide, ?_, ?_⟩
  · obtain ⟨v, next, hv, hnext, hread⟩ := exists_readBlock_calm
    obtain ⟨m, hstart, rfl⟩ : ∃ m, start pairJumps zerosModFour 3 = .ok m ∧ m.engine = v :=
      ⟨_, start_ok (by decide) hv, rfl⟩
    obtain ⟨hwaiting, -⟩ := stateAfter_of_start hstart (interrupted.take 2)
    obtain ⟨hbefore, -⟩ := stateAfter_of_start hstart (interrupted.take 3)
    obtain ⟨hafter, -⟩ := stateAfter_of_start hstart interrupted
    obtain ⟨hone, htwo, hthree⟩ := evaluated_interrupted
    have hvectors : vectors pairJumps m.engine (fullBlocks 3 (pairJumps.evaluated interrupted)) =
        [next] := by
      have hblock : readBlock pairJumps m.engine calmValues = .ok next := by
        rw [readBlock, bitsOfAll_calmValues]
        exact hnext
      rw [hthree]
      exact vectors_singleton_of_ok hblock
    have hblocks : (Action.after feed m interrupted).blocks = 1 := by
      rw [hafter.blocks, hvectors, List.length_singleton]
    have hlast := getLast?_answers_of_blocks (interrupted.take 3) [unmasked (25 * 2 ^ 40)]
      (by rw [hbefore.blocks, htwo]; exact hblocks.trans_ne Nat.one_ne_zero)
    refine ⟨_, _, _, hstart, rfl, ?_, ?_, ?_, rfl, ?_, hblocks, ?_, ?_⟩
    · rw [hwaiting.pending, hone]
      rfl
    · rw [Bool.eq_false_iff, ne_eq, hwaiting.boundary, hone]
      exact fun hready => absurd hready.2 (by decide)
    · rw [hwaiting.verdict, hone]
      rfl
    · rw [hafter.pending, hthree]
      rfl
    · rw [hafter.boundary, hthree]
      exact ⟨hlast, by decide⟩
    · rw [hafter.verdict, hvectors]
      exact hread.bit_verdict.trans (by decide)
  · obtain ⟨v, hv, -⟩ := StateVector.start_ok (s := zeroSecret) (a := evenZeros) rfl (by decide)
    obtain ⟨e, hconvert, -⟩ := convert_zeroAt (.inl rfl)
    have hread : readBlock pairChanges v [[zeroAt 0.001, zeroAt 0.001]] = .error (.ckks e) := by
      rw [readBlock, bitsOfAll_zeroAt hconvert]
      rfl
    have hstart : start pairChanges evenZeros 1 = .ok _ := start_ok (by decide) hv
    obtain ⟨h, -⟩ := stateAfter_of_start hstart [[zeroAt 0.001]]
    refine ⟨_, _, hstart, rfl, h.pending, h.blocks.trans ?_⟩
    change (vectors pairChanges v [[[zeroAt 0.001, zeroAt 0.001]]]).length = 0
    rw [vectors_singleton_of_error hread]
    rfl

end BlockMonitor

end CipherMonitor
