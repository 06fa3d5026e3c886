import CipherMonitor.Proofs.History
import CipherMonitor.Proofs.Monitor.Offline
import CipherMonitor.Proofs.Monitor.Prefix
import CipherMonitor.Proofs.Predicate.Memory

/-!
# Samples that cannot be read

A monitor of single samples computes the bits of a sample with a part of its state, the pipeline,
then reads them, and stores the outcome at the very end.  A sample that cannot be read therefore
leaves the states, the last verdict and the count of samples as they were.  Only the memory of the
predicate may move: it follows the formula, and what fails after the formula does not bring it back.

* `PredicateEvaluator.Retains` — a formula that remembers its samples succeeds on this one.
* `KeepsOnFailure` — what a sample that cannot be read leaves behind.
* `readThenStore`, `perform_readThenStore` — monitors that compute bits, read them and store the
  outcome at the end.
* `keepsOnFailure_feed` — the monitors of single samples.
-/

namespace CipherMonitor

open Ckks

namespace PredicateEvaluator

variable {e : PredicateEvaluator} {sample : List Ciphertext}

/-- A formula that remembers its samples succeeds on this one. -/
def Retains (e : PredicateEvaluator) (sample : List Ciphertext) : Prop :=
  e.predicate.remembers = true ∧ ∃ results, e.results sample = .ok results

theorem Retains.memoryAfter (h : e.Retains sample) : e.memoryAfter sample = sample.head? := by
  obtain ⟨hremembers, results, hresults⟩ := h
  rw [memoryAfter_of_ok hresults, Predicate.remember_of_remembers hremembers]

theorem memoryAfter_of_not_retains (h : ¬ e.Retains sample) :
    e.memoryAfter sample = e.previous := by
  cases hremembers : e.predicate.remembers with
  | false => exact memoryAfter_of_not_remembers hremembers
  | true =>
    cases hresults : e.results sample with
    | error fault => exact memoryAfter_of_error hresults
    | ok results => exact absurd ⟨hremembers, results, hresults⟩ h

end PredicateEvaluator

/-- What a sample that cannot be read leaves behind in a monitor with a pipeline. -/
structure KeepsOnFailure {σ β : Type} (feed : List Ciphertext → Action σ β)
    (pipeline : σ → Pipeline) (update : σ → Pipeline → σ) : Prop where
  /-- If the formula has succeeded and remembers its samples, the sample is the memory. -/
  retains : ∀ m m' sample fault, (feed sample).perform m = (.error fault, m') →
    (pipeline m).evaluator.Retains sample →
      m' = update m ((pipeline m).withMemory sample.head?)
  /-- Otherwise the state is what it was. -/
  keeps : ∀ m m' sample fault, (feed sample).perform m = (.error fault, m') →
    ¬ (pipeline m).evaluator.Retains sample → m' = m
  /-- A formula without memory goes through a trace as if the samples that cannot be read were not
  there. -/
  skips : ∀ m trace, (pipeline m).evaluator.predicate.remembers = false →
    Action.after feed m (Action.accepted feed m trace) = Action.after feed m trace ∧
      Action.answers feed m (Action.accepted feed m trace) =
        (Action.successes (Action.answers feed m trace)).map .ok

/-- The bits of a sample, then a computation with them and the state, whose result is stored at the
end. -/
def readThenStore {σ β γ : Type} (pipeline : σ → Pipeline) (update : σ → Pipeline → σ)
    (compute : σ → List PreparedGgsw → Outcome γ) (store : σ → γ → σ) (answer : γ → β)
    (sample : List Ciphertext) : Action σ β := do
  let bits ← Action.within pipeline update (Pipeline.bits sample)
  let m ← get
  let v ← Action.ofOutcome (compute m bits)
  set (store m v)
  pure (answer v)

section

variable {σ β γ : Type} {pipeline : σ → Pipeline} {update : σ → Pipeline → σ}
  {compute : σ → List PreparedGgsw → Outcome γ} {store : σ → γ → σ} {answer : γ → β}

/-- Before the result is stored, only the memory has changed. -/
theorem perform_readThenStore (m : σ) (sample : List Ciphertext) :
    let mid := update m ((pipeline m).withMemory ((pipeline m).evaluator.memoryAfter sample))
    (readThenStore pipeline update compute store answer sample).perform m =
      match (pipeline m).bitsOfSample sample >>= compute mid with
      | .ok v => (.ok (answer v), store mid v)
      | .error fault => (.error fault, mid) := by
  intro mid
  rw [readThenStore, Action.perform_bind, Action.perform_within, Pipeline.perform_bits]
  cases (pipeline m).bitsOfSample sample with
  | error fault => rfl
  | ok bits =>
    dsimp only
    rw [Outcome.ok_bind, Action.perform_bind_of_ok (Action.perform_get _), Action.perform_bind,
      Action.perform_ofOutcome]
    cases compute mid bits <;> rfl

theorem state_of_readThenStore_error {m m' : σ} {sample : List Ciphertext} {fault : Fault}
    (h : (readThenStore pipeline update compute store answer sample).perform m =
      (.error fault, m')) :
    m' = update m ((pipeline m).withMemory ((pipeline m).evaluator.memoryAfter sample)) := by
  rw [perform_readThenStore] at h
  split at h
  · cases (Prod.mk.inj h).1
  · exact (Prod.mk.inj h).2.symm

/-- A monitor that stores at the end keeps its state when it fails, up to the memory. -/
theorem keepsOnFailure_readThenStore (hpipeline : ∀ m p, pipeline (update m p) = p)
    (hupdate : ∀ m, update m (pipeline m) = m)
    (hstore : ∀ m v, pipeline (store m v) = pipeline m) :
    KeepsOnFailure (readThenStore pipeline update compute store answer) pipeline update := by
  have hkeeps : ∀ m m' sample fault,
      (readThenStore pipeline update compute store answer sample).perform m = (.error fault, m') →
        ¬ (pipeline m).evaluator.Retains sample → m' = m := by
    intro m m' sample fault h hretains
    rw [state_of_readThenStore_error h, PredicateEvaluator.memoryAfter_of_not_retains hretains,
      Pipeline.withMemory_previous, hupdate]
  refine ⟨fun m m' sample fault h hretains => ?_, hkeeps, fun m trace hm => ?_⟩
  · rw [state_of_readThenStore_error h, hretains.memoryAfter]
  · -- No sample changes the predicate, so all failures along the trace keep the state.
    refine Action.after_accepted
      (P := fun m => (pipeline m).evaluator.predicate.remembers = false) ?_ ?_ hm trace
    · intro m sample hm
      rw [perform_readThenStore]
      split
      · rw [hstore, hpipeline]
        exact hm
      · rw [hpipeline]
        exact hm
    · intro m sample fault m' hm h
      exact hkeeps m m' sample fault h fun hretains =>
        Bool.false_ne_true (hm.symm.trans hretains.1)

end

theorem OnlineMonitor.feed_eq (sample : List Ciphertext) :
    feed sample = readThenStore (·.pipeline) (fun m pipeline => { m with pipeline })
      (fun m bits => bits.foldlM (readBit m.pipeline.bridge) m.engine)
      (fun m engine => { m with engine, verdict := engine.verdict })
      StateVector.verdict sample := rfl

theorem ReverseMonitor.feed_eq (sample : List Ciphertext) :
    feed sample = readThenStore (·.pipeline) (fun m pipeline => { m with pipeline })
      (fun m bits => m.engine.readAndRefresh m.pipeline.bridge m.bootInterval (m.fed + 1) bits)
      (fun m engine => { m with engine, fed := m.fed + 1 }) WeightVector.verdict sample := rfl

theorem OnlineMonitor.perform_feed_of_error {m : OnlineMonitor} {sample : List Ciphertext}
    {fault : Fault} (h : m.pipeline.bitsOfSample sample = .error fault) :
    (feed sample).perform m = (.error fault,
      { m with pipeline := m.pipeline.withMemory (m.pipeline.evaluator.memoryAfter sample) }) := by
  rw [feed_eq, perform_readThenStore, h]
  rfl

/-- A sample that cannot be read leaves states, verdict and count of a monitor alone.  The memory
moves only with a formula that remembers its samples, and only when the failure comes after it. -/
theorem keepsOnFailure_feed :
    KeepsOnFailure OnlineMonitor.feed (·.pipeline) (fun m pipeline => { m with pipeline }) ∧
      KeepsOnFailure ReverseMonitor.feed (·.pipeline) (fun m pipeline => { m with pipeline }) := by
  rw [funext OnlineMonitor.feed_eq, funext ReverseMonitor.feed_eq]
  exact ⟨keepsOnFailure_readThenStore (fun _ _ => rfl) (fun _ => rfl) fun _ _ => rfl,
    keepsOnFailure_readThenStore (fun _ _ => rfl) (fun _ => rfl) fun _ _ => rfl⟩

/-! ### A scale too small to amplify -/

/-- The changes of a signal up to `100`, between `0` and `50`. -/
def pairChanges : Pipeline :=
  Pipeline.make ⟨.deltaBand 0.0 50.0 100.0, ⟨pairParameters, ⟨[], 1, 1⟩⟩, none⟩
    { pairBridge with keys := some pairKeys }

/-- A ciphertext of zero of some scale. -/
def zeroAt (scale : Float) : Ciphertext := .zero 2 2 0 60 scale

variable {scale scale' : Float}

/-- The first sample stands for its own change. -/
theorem values_zeroAt (scale : Float) :
    pairChanges.evaluator.values [zeroAt scale] = .ok [zeroAt scale, zeroAt scale] := rfl

theorem sub_zeroAt (h : (scale != scale') = true) :
    (zeroAt scale).sub (zeroAt scale') = .error (.ckks (.scaleMismatch scale scale')) := by
  have haligned : aligned 0 scale 0 scale' = .error (.ckks (.scaleMismatch scale scale')) := by
    rw [aligned, if_neg (by decide), if_pos h]
  rw [Ciphertext.sub]
  change (aligned 0 scale 0 scale' >>= _) = _
  rw [haligned]
  rfl

/-- After a sample of another scale there is no change to compute. -/
theorem values_zeroAt_after (h : (scale != scale') = true) :
    (pairChanges.evaluator.withMemory (some (zeroAt scale'))).values [zeroAt scale] =
      .error (.ckks (.scaleMismatch scale scale')) := by
  change (((zeroAt scale).sub (zeroAt scale') >>= _) >>= _) = _
  rw [sub_zeroAt h]
  rfl

/-- A number that does not fit the modulus is refused. -/
theorem encode_of_quantize_error {v : Float} {fault : Fault}
    (h : quantize v 1.0 60 (powTwo 59) = .error fault) :
    encode pairParameters v 0 1.0 = .error fault := by
  have hlog : ¬ Binary64.log2 1.0 >= (60 - 1 : ℕ).toFloat := by decide +kernel
  refine (if_neg (t := .error (.ckks (.scaleOutOfBounds (Binary64.log2 1.0) 60))) hlog).trans ?_
  rw [List.mapM_cons]
  change ((quantize v 1.0 60 (powTwo 59) >>= _) >>= _) = _
  rw [h]
  rfl

/-- At the scales `0.001` and `0.002` the amplification factor does not fit the modulus. -/
theorem convert_zeroAt (h : scale = 0.001 ∨ scale = 0.002) :
    ∃ e, pairChanges.bridge.convert pairChanges.mode (zeroAt scale) 100.0 = .error (.ckks e) ∧
      ∀ a b, e ≠ .scaleMismatch a b := by
  have hquantize : quantize (amplificationFactor 60 scale 100.0) 1.0 60 (powTwo 59) =
      .error (.ckks (.encodingOverflow (amplificationFactor 60 scale 100.0) 1.0 60)) := by
    rcases h with rfl | rfl <;> decide +kernel
  have hamplify : amplify pairParameters (zeroAt scale) 100.0 =
      .error (.ckks (.encodingOverflow (amplificationFactor 60 scale 100.0) 1.0 60)) := by
    change (encode pairParameters (amplificationFactor 60 scale 100.0) 0 1.0 >>= _) = _
    rw [encode_of_quantize_error hquantize]
    rfl
  refine ⟨.encodingOverflow (amplificationFactor 60 scale 100.0) 1.0 60, ?_, nofun⟩
  change ((amplify pairParameters (zeroAt scale) 100.0 >>= _) >>= _) = _
  rw [hamplify]
  rfl

/-- What fails for the first proposition fails for the sample. -/
theorem bitsOfSample_zeroAt {fault : Fault}
    (h : pairChanges.bridge.convert pairChanges.mode (zeroAt scale) 100.0 = .error fault) :
    pairChanges.bitsOfSample [zeroAt scale] = .error fault := by
  have hbooleans : pairChanges.booleans [zeroAt scale, zeroAt scale] = .error fault := by
    change ([(zeroAt scale, 100.0), (zeroAt scale, 100.0)].mapM fun x =>
      pairChanges.bridge.convert pairChanges.mode x.1 x.2) = _
    refine Outcome.mapM_cons_of_error ?_ _
    exact h
  rw [Pipeline.bitsOfSample, values_zeroAt, Outcome.ok_bind, hbooleans]
  rfl

/-- The same for samples that are converted together. -/
theorem bitsOfAll_zeroAt {fault : Fault}
    (h : pairChanges.bridge.convert pairChanges.mode (zeroAt scale) 100.0 = .error fault) :
    pairChanges.bitsOfAll [[zeroAt scale, zeroAt scale]] = .error fault := by
  have hbit : pairChanges.bitOf (zeroAt scale) 100.0 = .error fault := by
    rw [Pipeline.bitOf, h]
    rfl
  refine Outcome.mapM_cons_of_error ?_ _
  change ([(zeroAt scale, 100.0), (zeroAt scale, 100.0)].mapM fun x =>
    pairChanges.bitOf x.1 x.2) = _
  refine Outcome.mapM_cons_of_error ?_ _
  exact hbit

/-- The monitor of these changes before the first sample. -/
theorem start_pairChanges : ∃ v, OnlineMonitor.start pairChanges evenZeros =
    .ok { pipeline := pairChanges, engine := v, verdict := pairChanges.initialVerdict } := by
  obtain ⟨v, hv, -⟩ := StateVector.start_ok (s := zeroSecret) (a := evenZeros) rfl (by decide)
  exact ⟨v, OnlineMonitor.start_ok hv⟩

/-- The first sample cannot be amplified, and is remembered all the same. -/
theorem keepsOnFailure_feed_pairChanges :
    ∃ m m' e, OnlineMonitor.start pairChanges evenZeros = .ok m ∧
      (OnlineMonitor.feed [zeroAt 0.001]).perform m = (.error (.ckks e), m') ∧
      m' = { m with pipeline := pairChanges.withMemory (some (zeroAt 0.001)) } := by
  obtain ⟨v, hstart⟩ := start_pairChanges
  obtain ⟨e, hconvert, -⟩ := convert_zeroAt (.inl rfl)
  have hfeed := OnlineMonitor.perform_feed_of_error
    (m := ⟨pairChanges, v, pairChanges.initialVerdict⟩) (bitsOfSample_zeroAt hconvert)
  exact ⟨_, _, e, hstart, hfeed,
    keepsOnFailure_feed.1.retains _ _ _ _ hfeed ⟨rfl, [zeroAt 0.001, zeroAt 0.001], rfl⟩⟩

/-- Had the first sample not been tried, the second one would not be compared with it. -/
theorem answers_after_failure : pairBridge.install pairKeys = .ok pairChanges.bridge ∧
    ∃ m m' e e', OnlineMonitor.start pairChanges evenZeros = .ok m ∧
      (OnlineMonitor.feed [zeroAt 0.001]).perform m = (.error (.ckks e), m') ∧ m' ≠ m ∧
      Action.answers OnlineMonitor.feed m' [[zeroAt 0.002]] =
        [.error (.ckks (.scaleMismatch 0.002 0.001))] ∧
      Action.answers OnlineMonitor.feed m [[zeroAt 0.002]] = [.error (.ckks e')] ∧
      e' ≠ .scaleMismatch 0.002 0.001 := by
  obtain ⟨v, hstart⟩ := start_pairChanges
  obtain ⟨e, hconvert, -⟩ := convert_zeroAt (.inl rfl)
  obtain ⟨e', hconvert', he'⟩ := convert_zeroAt (.inr rfl)
  have hfeed := OnlineMonitor.perform_feed_of_error
    (m := ⟨pairChanges, v, pairChanges.initialVerdict⟩) (bitsOfSample_zeroAt hconvert)
  have hfeed' := OnlineMonitor.perform_feed_of_error
    (m := ⟨pairChanges, v, pairChanges.initialVerdict⟩) (bitsOfSample_zeroAt hconvert')
  have hscale : ((0.002 : Float) != 0.001) = true := by decide +kernel
  have hlater : (pairChanges.withMemory (some (zeroAt 0.001))).bitsOfSample [zeroAt 0.002] =
      .error (.ckks (.scaleMismatch 0.002 0.001)) := by
    rw [Pipeline.bitsOfSample, Pipeline.evaluator_withMemory, values_zeroAt_after hscale]
    rfl
  refine ⟨install_pairKeys, _, _, e, e', hstart, hfeed, fun h => ?_, ?_, ?_, he' _ _⟩
  · have hmemory := congrArg (·.pipeline.evaluator.previous) h
    exact Option.some_ne_none _ hmemory
  · rw [Action.answers, OnlineMonitor.perform_feed_of_error hlater]
    rfl
  · rw [Action.answers, hfeed']
    rfl

end CipherMonitor
