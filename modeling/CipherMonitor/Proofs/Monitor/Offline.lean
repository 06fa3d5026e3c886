import CipherMonitor.Proofs.Ckks.Format
import CipherMonitor.Proofs.Glwe.PrivateKeySwitch
import CipherMonitor.Proofs.Monitor.Suffix

/-!
# Traces known in advance

A monitor of whole traces evaluates all samples, converts them in one pass and then reads the bits; a
monitor of single samples does all of this sample by sample.  Both give the same verdicts.

* `OfflineMonitor.perform_run_eq_ok_iff` — when a trace has verdicts.
* `ReverseMonitor.perform_feed_eq_ok_iff`, `ReverseMonitor.perform_mapM_feed_eq_ok_iff` — when a
  sample, and when all samples of a trace can be read.
* `OfflineMonitor.run_eq_feeds` — the verdicts of a trace are those of its samples.
-/

namespace CipherMonitor

open Torus WeightVector

variable {trace : List (List Ckks.Ciphertext)} {verdicts : List (Lwe 32)}

namespace OfflineMonitor

variable {o o' : OfflineMonitor}

theorem predicates_eq_mapM (trace : List (List Ckks.Ciphertext)) :
    predicates trace = trace.mapM Pipeline.predicates := by
  induction trace with
  | nil => rfl
  | cons sample trace ih => rw [predicates, ih, List.mapM_cons]

/-- A trace has verdicts when all samples can be evaluated, then converted, and then read. -/
theorem perform_run_eq_ok_iff :
    (run trace).perform o = (.ok verdicts, o') ↔
      ∃ evaluated p' bits v, (trace.mapM Pipeline.predicates).perform o.pipeline = (.ok evaluated, p') ∧
        p'.bitsInOnePass evaluated = .ok bits ∧ WeightVector.start o.automaton p'.degree = .ok v ∧
        verdictsFrom p'.bridge o.bootInterval 1 v bits = .ok verdicts ∧
        o' = { o with pipeline := p' } := by
  simp only [run, predicates_eq_mapM, Action.perform_bind_eq_ok_iff, Action.perform_within_eq_ok_iff,
    Action.perform_get, Action.perform_ofOutcome_eq_ok_iff, Prod.mk.injEq, Except.ok.injEq,
    Outcome.bind_eq_ok_iff]
  constructor
  · rintro ⟨evaluated, _, ⟨p', hevaluated, rfl⟩, _, _, ⟨rfl, rfl⟩, ⟨bits, hbits, v, hv, h⟩, rfl⟩
    exact ⟨evaluated, p', bits, v, hevaluated, hbits, hv, h, rfl⟩
  · rintro ⟨evaluated, p', bits, v, hevaluated, hbits, hv, h, rfl⟩
    exact ⟨evaluated, _, ⟨p', hevaluated, rfl⟩, _, _, ⟨rfl, rfl⟩, ⟨bits, hbits, v, hv, h⟩, rfl⟩

end OfflineMonitor

namespace ReverseMonitor

variable {m m' : ReverseMonitor}

/-- A sample is read when it has bits and the weights can read them. -/
theorem perform_feed_eq_ok_iff {sample : List Ckks.Ciphertext} {verdict : Lwe 32} :
    (feed sample).perform m = (.ok verdict, m') ↔
      ∃ bits p' v, (Pipeline.bits sample).perform m.pipeline = (.ok bits, p') ∧
        m.engine.readAndRefresh m.pipeline.bridge m.bootInterval (m.fed + 1) bits = .ok v ∧
        v.verdict = verdict ∧ { m with pipeline := p', engine := v, fed := m.fed + 1 } = m' := by
  constructor
  · intro h
    obtain ⟨bits, _, hpart, h⟩ := Action.perform_bind_eq_ok_iff.1 h
    obtain ⟨p', hbits, rfl⟩ := Action.perform_within_eq_ok_iff.1 hpart
    obtain ⟨_, _, ⟨⟩, h⟩ := Action.perform_bind_eq_ok_iff.1 h
    obtain ⟨v, _, hread, h⟩ := Action.perform_bind_eq_ok_iff.1 h
    obtain ⟨hv, rfl⟩ := Action.perform_ofOutcome_eq_ok_iff.1 hread
    obtain ⟨hverdict, hstate⟩ := Prod.mk.inj h
    rw [(Pipeline.bits_keeps hbits).bridge] at hv
    exact ⟨bits, p', v, hbits, hv, Except.ok.inj hverdict, hstate⟩
  · rintro ⟨bits, p', v, hbits, hv, rfl, rfl⟩
    exact perform_feed hbits hv

/-- A trace is read sample by sample when all samples have bits and the weights can read them. -/
theorem perform_mapM_feed_eq_ok_iff {p' : Pipeline} :
    (∃ m', (trace.mapM feed).perform m = (.ok verdicts, m') ∧ m'.pipeline = p') ↔
      ∃ bits, (trace.mapM Pipeline.bits).perform m.pipeline = (.ok bits, p') ∧
        OfflineMonitor.verdictsFrom m.pipeline.bridge m.bootInterval (m.fed + 1) m.engine bits =
          .ok verdicts := by
  induction trace generalizing m verdicts with
  | nil =>
    simp only [List.mapM_nil, Action.perform_pure, Prod.mk.injEq, Except.ok.injEq]
    constructor
    · rintro ⟨m', ⟨rfl, rfl⟩, rfl⟩
      exact ⟨[], ⟨rfl, rfl⟩, rfl⟩
    · rintro ⟨_, ⟨rfl, rfl⟩, hverdicts⟩
      exact ⟨m, ⟨Outcome.pure_eq_ok_iff.1 hverdicts, rfl⟩, rfl⟩
  | cons sample trace ih =>
    simp only [Action.perform_mapM_cons_eq_ok_iff]
    constructor
    · rintro ⟨m', ⟨verdict, mid, verdicts, hfirst, hrest, rfl⟩, hpipeline⟩
      obtain ⟨bits, p, v, hbits, hv, rfl, rfl⟩ := perform_feed_eq_ok_iff.1 hfirst
      obtain ⟨rest, hrest, hverdicts⟩ := ih.1 ⟨m', hrest, hpipeline⟩
      refine ⟨bits :: rest, ⟨bits, p, rest, hbits, hrest, rfl⟩, ?_⟩
      rw [(Pipeline.bits_keeps hbits).bridge] at hverdicts
      rw [OfflineMonitor.verdictsFrom, hv, Outcome.ok_bind, hverdicts]
      rfl
    · rintro ⟨_, ⟨bits, p, rest, hbits, hrest, rfl⟩, hverdicts⟩
      obtain ⟨v, hv, hverdicts⟩ := Outcome.bind_eq_ok_iff.1 hverdicts
      obtain ⟨more, hmore, hverdicts⟩ := Outcome.bind_eq_ok_iff.1 hverdicts
      obtain rfl := Outcome.pure_eq_ok_iff.1 hverdicts
      rw [← (Pipeline.bits_keeps hbits).bridge] at hmore
      obtain ⟨m', hm', hpipeline⟩ :=
        (ih (m := { m with pipeline := p, engine := v, fed := m.fed + 1 })).2 ⟨rest, hrest, hmore⟩
      exact ⟨m', ⟨v.verdict, _, more, perform_feed_eq_ok_iff.2 ⟨bits, p, v, hbits, hv, rfl, rfl⟩, hm',
        rfl⟩, hpipeline⟩

end ReverseMonitor

/-- A monitor of whole traces and one of single samples that start from the same pipeline give the same
verdicts for a trace: the first one succeeds exactly when the other one succeeds on all samples, with
the same ciphertexts, and their pipelines are the same afterwards. -/
theorem OfflineMonitor.run_eq_feeds {o : OfflineMonitor} {m : ReverseMonitor}
    (ho : o.pipeline.WellFormed)
    (hm : ReverseMonitor.start o.pipeline o.automaton o.bootInterval = .ok m)
    (trace : List (List Ckks.Ciphertext)) (verdicts : List (Lwe 32)) (p' : Pipeline) :
    (∃ o', (run trace).perform o = (.ok verdicts, o') ∧ o'.pipeline = p') ↔
      ∃ m', (trace.mapM ReverseMonitor.feed).perform m = (.ok verdicts, m') ∧ m'.pipeline = p' := by
  obtain ⟨⟨⟩, -, hm⟩ := Outcome.bind_eq_ok_iff.1 hm
  obtain ⟨v, hv, hm⟩ := Outcome.bind_eq_ok_iff.1 hm
  obtain rfl := Outcome.pure_eq_ok_iff.1 hm
  rw [ReverseMonitor.perform_mapM_feed_eq_ok_iff]
  constructor
  · rintro ⟨o', hrun, rfl⟩
    obtain ⟨evaluated, p', bits, v', hevaluated, hbits, hv', hverdicts, rfl⟩ :=
      perform_run_eq_ok_iff.1 hrun
    have hsame := (Pipeline.length_mapM_predicates hevaluated).1
    rw [Pipeline.degree, hsame.bridge, ← Pipeline.degree, hv] at hv'
    obtain rfl := Except.ok.inj hv'
    rw [hsame.bridge] at hverdicts
    exact ⟨bits, (Pipeline.perform_mapM_bits_eq_ok_iff_inOnePass ho).2 ⟨evaluated, hevaluated, hbits⟩,
      hverdicts⟩
  · rintro ⟨bits, hbits, hverdicts⟩
    obtain ⟨evaluated, hevaluated, hbits⟩ :=
      (Pipeline.perform_mapM_bits_eq_ok_iff_inOnePass ho).1 hbits
    have hsame := (Pipeline.length_mapM_predicates hevaluated).1
    rw [← hsame.bridge] at hverdicts
    rw [Pipeline.degree, ← hsame.bridge, ← Pipeline.degree] at hv
    exact ⟨{ o with pipeline := p' }, perform_run_eq_ok_iff.2
      ⟨evaluated, p', bits, v, hevaluated, hbits, hv, hverdicts, rfl⟩, rfl⟩

/-! ### A signal without jumps and falls -/

/-- Parameters of ring degree two with one level. -/
def pairParameters : Ckks.Parameters where
  ringDegree := 2
  modulusBits := [60, 60]
  scale := 1099511627776.0
  sigma := 0.0

/-- Keys between zero secrets that start from ring degree two, with private switches that only
round. -/
def pairKeys : KeyBundle := { zeroKeys with
  coarseToMid := ⟨[[], []], ⟨1, 1⟩, 4⟩
  circuit := ⟨.exactKey .identity ⟨8, 4⟩ zeroSecret.toLwe zeroSecret,
    .exactKey .timesSecret ⟨8, 4⟩ zeroSecret.toLwe zeroSecret, ⟨1, 1⟩⟩ }

/-- The bridge of these parameters, without keys. -/
def pairBridge : SchemeBridge where
  ckks := pairParameters
  tfhe := { zeroBridge.tfhe with circuitBootstrapping := ⟨1, 1⟩ }
  config := { mode := .direct }
  tables := tablesOfFour

/-- Whether a signal up to `100` jumps by more than `50`, and whether it falls. -/
def pairJumps : Pipeline :=
  Pipeline.make ⟨.deltaBand 50.0 0.0 100.0, ⟨pairParameters, ⟨[], 1, 1⟩⟩, none⟩
    { pairBridge with keys := some pairKeys }

theorem install_pairKeys : pairBridge.install pairKeys = .ok pairJumps.bridge := rfl

/-- A ciphertext without mask and without noise. -/
def unmasked (x : ℤ) : Ckks.Ciphertext :=
  ⟨[(⟨#[x, 0]⟩ : Poly ℤ).reduce 60, .zero 2], 0, 60, 1099511627776.0⟩

theorem wellFormed_unmasked (x : ℤ) : (unmasked x).WellFormed := by
  have hfields : Ckks.Ciphertext.ValidFields 2 2 0 60 1099511627776.0 :=
    { isPowerOfTwo := ⟨1, rfl⟩
      degree_le := by decide
      size_pos := by decide
      size_le := by decide
      logQ_pos := by decide
      logQ_le := by decide
      level_lt := by decide
      isFinite := by decide +kernel
      scale_pos := by decide +kernel }
  have hdegree : (unmasked x).degree = 2 := Poly.size_reduce _ _
  refine ⟨by rw [hdegree]; exact hfields, ?_⟩
  rw [hdegree]
  exact List.forall_mem_cons.2 ⟨Poly.isReduced_reduce rfl,
    List.forall_mem_singleton.2 Poly.isReduced_zero⟩

/-- The numbers `-30`, `0` and `25`. -/
def calm : List (List Ckks.Ciphertext) :=
  [[unmasked (-30 * 2 ^ 40)], [unmasked 0], [unmasked (25 * 2 ^ 40)]]

/-- The propositions of these samples: all of them are negative.  The last term is the margin. -/
def calmValues : List (List Ckks.Ciphertext) :=
  [[unmasked (-30 * 2 ^ 40), unmasked (-30 * 2 ^ 40)],
    [unmasked (-20 * 2 ^ 40 - 100 * 2 ^ 24), unmasked (-30 * 2 ^ 40 - 100 * 2 ^ 24)],
    [unmasked (-25 * 2 ^ 40 - 100 * 2 ^ 24), unmasked (-25 * 2 ^ 40 - 100 * 2 ^ 24)]]

theorem predicates_calm : ∃ p', (calm.mapM Pipeline.predicates).perform pairJumps =
    (.ok calmValues, p') := by
  have hvalues : ((calm.mapM Pipeline.predicates).perform pairJumps).1 = .ok calmValues := by
    decide +kernel
  rcases h : (calm.mapM Pipeline.predicates).perform pairJumps with ⟨result, p'⟩
  rw [h] at hvalues
  exact ⟨p', by rw [← hvalues]⟩

theorem convert_calmValues : ∀ values ∈ calmValues, ∀ c ∈ values,
    pairJumps.bridge.convert .direct c 100.0 = .ok (Lwe.trivial 4 (-eighth)) := by
  decide +kernel

theorem ofWords_zero :
    tablesOfFour.ofWords (Poly.zero 4 : TorusPoly 32).coeffs = tablesOfFour.zero := by
  have hdata : (tablesOfFour.ofWords (Poly.zero 4 : TorusPoly 32).coeffs).re.data =
      tablesOfFour.zero.re.data ∧
        (tablesOfFour.ofWords (Poly.zero 4 : TorusPoly 32).coeffs).im.data =
          tablesOfFour.zero.im.data := by
    decide +kernel
  exact congrArg₂ (fun re im => Spectrum.mk ⟨re⟩ ⟨im⟩) hdata.1 hdata.2

/-- The gadget ciphertext of a proposition that does not hold. -/
theorem circuitBootstrap_neg_eighth :
    pairJumps.bridge.circuitBootstrap (Lwe.trivial 4 (-eighth)) = .ok zeroBit := by
  have hfine : pairKeys.midToFine.switchChecked (Lwe.trivial 4 (-eighth)) =
      .ok (Lwe.trivial 0 (-eighth)) := zeroKeys_switchChecked rfl
  have hbits : CircuitKey.bits tablesOfFour ⟨1, 1⟩ ⟨[], 4⟩ (Lwe.trivial 0 (-eighth)) =
      .ok [Lwe.trivial 4 0] := by
    decide +kernel
  have hrows : pairKeys.circuit.rowsOf [Lwe.trivial 4 0] = .ok [Glwe.zero 4, Glwe.zero 4] := by
    decide +kernel
  have hprepare : (⟨[Glwe.zero 4, Glwe.zero 4], ⟨1, 1⟩⟩ : Ggsw).prepare tablesOfFour = zeroBit := by
    change PreparedGgsw.mk (List.replicate 2
      (tablesOfFour.ofWords (Poly.zero 4 : TorusPoly 32).coeffs,
        tablesOfFour.ofWords (Poly.zero 4 : TorusPoly 32).coeffs)) ⟨1, 1⟩ 4 = _
    rw [ofWords_zero]
    rfl
  have hbootstrap : pairJumps.bridge.circuitBootstrap (Lwe.trivial 4 (-eighth)) =
      pairKeys.circuit.bootstrap tablesOfFour pairKeys.blindRotation pairKeys.midToFine
        (Lwe.trivial 4 (-eighth)) := rfl
  rw [hbootstrap, CircuitKey.bootstrap, hfine, Outcome.ok_bind]
  change (CircuitKey.bits tablesOfFour ⟨1, 1⟩ ⟨[], 4⟩ _ >>= _) = _
  rw [hbits, Outcome.ok_bind, hrows, Outcome.ok_bind, ← hprepare]
  rfl

theorem pairJumps_refreshes : pairJumps.bridge.Refreshes zeroSecret (2 ^ 28 - 1) 0 :=
  zeroBridge_refreshes

/-- No proposition holds, so all bits are zero. -/
theorem bitsOfAll_calmValues : pairJumps.bitsOfAll calmValues =
    .ok [[zeroBit, zeroBit], [zeroBit, zeroBit], [zeroBit, zeroBit]] := by
  have hbit : ∀ values ∈ calmValues, ∀ c ∈ values, pairJumps.bitOf c 100.0 = .ok zeroBit := by
    intro values hvalues c hc
    have hconvert : pairJumps.bridge.convert pairJumps.mode c 100.0 =
        .ok (Lwe.trivial 4 (-eighth)) := convert_calmValues values hvalues c hc
    rw [Pipeline.bitOf, hconvert, Outcome.ok_bind, circuitBootstrap_neg_eighth]
  have hbits : ∀ c c', [c, c'] ∈ calmValues →
      (([c, c'].zip pairJumps.references).mapM fun x => pairJumps.bitOf x.1 x.2) =
        .ok [zeroBit, zeroBit] := by
    intro c c' h
    exact Outcome.mapM_eq_ok_iff.2 (.cons (hbit _ h c (by simp)) (.cons (hbit _ h c' (by simp)) .nil))
  refine Outcome.mapM_eq_ok_iff.2 (.cons (hbits _ _ ?_) (.cons (hbits _ _ ?_)
    (.cons (hbits _ _ ?_) .nil))) <;> simp [calmValues]

theorem bits_calm : ∃ p', (calm.mapM Pipeline.bits).perform pairJumps =
    (.ok [[zeroBit, zeroBit], [zeroBit, zeroBit], [zeroBit, zeroBit]], p') := by
  have hpipeline : pairJumps.WellFormed := Pipeline.wellFormed_make _ _
  obtain ⟨p', h⟩ := predicates_calm
  have hbits := bitsOfAll_calmValues
  rw [← Pipeline.bitsOfAll_congr (Pipeline.length_mapM_predicates h).1] at hbits
  exact ⟨p', (Pipeline.perform_mapM_bits_eq_ok_iff hpipeline).2 ⟨calmValues, h, hbits⟩⟩

theorem encrypts_calmBits :
    List.Forall₂ (List.Forall₂ (PreparedGgsw.Encrypts pairJumps.bridge.tables zeroSecret 0))
      [[zeroBit, zeroBit], [zeroBit, zeroBit], [zeroBit, zeroBit]]
      [[false, false], [false, false], [false, false]] := by
  have h := List.Forall₂.cons zeroBit_encrypts (.cons zeroBit_encrypts .nil)
  exact .cons h (.cons h (.cons h .nil))

/-- Whether the number of zeros in a word is divisible by four. -/
def zerosModFour : Automaton where
  initial := 0
  accepting := #[true, false, false, false]
  transitions := #[(1, 0), (2, 1), (3, 2), (0, 3)]

theorem wellFormed_zerosModFour : zerosModFour.WellFormed := ⟨by decide, by decide, by decide⟩

/-- A monitor of whole traces that refreshes after every second sample. -/
def jumpsOffline : OfflineMonitor where
  pipeline := pairJumps
  automaton := zerosModFour
  bootInterval := 2

/-- The trace without jumps and falls, as a whole and sample by sample: two zeros are not divisible by
four, but four are, and six are not. -/
theorem OfflineMonitor.run_eq_feeds_calm :
    pairBridge.install pairKeys = .ok jumpsOffline.pipeline.bridge ∧
      jumpsOffline.pipeline.WellFormed ∧
      ∃ m verdicts o' m', ReverseMonitor.start jumpsOffline.pipeline jumpsOffline.automaton
          jumpsOffline.bootInterval = .ok m ∧
        (run calm).perform jumpsOffline = (.ok verdicts, o') ∧
        (calm.mapM ReverseMonitor.feed).perform m = (.ok verdicts, m') ∧
        m'.pipeline = o'.pipeline ∧
        verdicts.map (fun c => Lwe.bit (c.phase zeroSecret.toLwe)) = [false, true, false] := by
  have hpipeline : jumpsOffline.pipeline.WellFormed := Pipeline.wellFormed_make _ _
  obtain ⟨v, hv, hcarries⟩ :=
    WeightVector.start_ok (s := zeroSecret) (a := zerosModFour) rfl (by decide)
  have hstart := ReverseMonitor.start_ok (p := jumpsOffline.pipeline) (by decide : 0 < 2) hv
  obtain ⟨verdicts, hverdicts, hcount, hdist⟩ := verdictsFrom_ok (b := pairJumps.bridge)
    rfl wellFormed_zerosModFour pairJumps_refreshes (by decide : 0 < 2)
    (by decide : 0 + 2 * (2 * 0) ≤ 2 ^ 28 - 1) encrypts_calmBits (by decide)
    (hcarries.mono (Nat.zero_le _))
  obtain ⟨p', hbits⟩ := bits_calm
  obtain ⟨m', hfeeds, hmemory⟩ :=
    (ReverseMonitor.perform_mapM_feed_eq_ok_iff
      (m := { pipeline := pairJumps, engine := v, bootInterval := 2 })).2 ⟨_, hbits, hverdicts⟩
  obtain ⟨o', hrun, hmemory'⟩ :=
    (OfflineMonitor.run_eq_feeds hpipeline hstart calm verdicts p').2 ⟨m', hfeeds, hmemory⟩
  have hbit : ∀ i verdict, verdicts[i]? = some verdict →
      Lwe.bit (verdict.phase zeroSecret.toLwe) = zerosModFour.accepts
        ([[false, false], [false, false], [false, false]].take (i + 1)).reverse.flatten := by
    intro i verdict hi
    have hnoise := hdist i verdict hi
    rw [List.append_nil, noiseAfter, Nat.mul_zero] at hnoise
    exact Lwe.bit_of_distance (lt_of_le_of_lt hnoise (by decide))
  refine ⟨install_pairKeys, hpipeline, _, verdicts, o', m', hstart, hrun, hfeeds,
    hmemory.trans hmemory'.symm, ?_⟩
  obtain ⟨c₀, c₁, c₂, rfl⟩ := List.length_eq_three.1 hcount
  rw [List.map_cons, List.map_cons, List.map_cons, List.map_nil, hbit 0 c₀ rfl, hbit 1 c₁ rfl,
    hbit 2 c₂ rfl]
  decide

end CipherMonitor
