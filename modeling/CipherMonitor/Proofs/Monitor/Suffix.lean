import CipherMonitor.Proofs.Encrypted.WeightVector
import CipherMonitor.Proofs.Monitor.Pipeline

/-!
# Verdicts of suffixes

* `OfflineMonitor.verdictsFrom_ok` — the verdicts of a sequence of samples, from any weights on.
* `ReverseMonitor.perform_mapM_feed` — a monitor that is fed one sample at a time gives them.
* `WeightVector.verdicts_of_suffixes` — every verdict tells whether the suffix is accepted.
-/

namespace CipherMonitor

open Torus WeightVector

/-- Each verdict carries the acceptance of the samples up to it, the last one in front. -/
theorem OfflineMonitor.verdictsFrom_ok {b : SchemeBridge} {s : GlweSecret} {a : Automaton}
    {eps delta rho predicates bootInterval : ℕ} (hs : s.degree = b.tfhe.midDegree)
    (ha : a.WellFormed) (hb : b.Refreshes s delta rho) (hinterval : 0 < bootInterval)
    (hbound : rho + bootInterval * (predicates * eps) ≤ delta)
    {samples : List (List PreparedGgsw)} {words : List (List Bool)}
    (hsamples : List.Forall₂ (List.Forall₂ (PreparedGgsw.Encrypts b.tables s eps)) samples words)
    (hlength : ∀ w ∈ words, w.length ≤ predicates) {v : WeightVector} {word : List Bool}
    {count : ℕ} (hv : v.Carries s a word (noiseAfter rho eps predicates bootInterval count)) :
    ∃ verdicts, verdictsFrom b bootInterval (count + 1) v samples = .ok verdicts ∧
      verdicts.length = samples.length ∧ ∀ i verdict, verdicts[i]? = some verdict →
        distance (verdict.phase s.toLwe)
            (signWord (a.accepts ((words.take (i + 1)).reverse.flatten ++ word))) ≤
          noiseAfter rho eps predicates bootInterval (count + i + 1) := by
  have hpos : 0 < s.degree := hs ▸ hb.degreeOk.2
  induction hsamples generalizing v word count with
  | nil => exact ⟨[], rfl, rfl, by simp⟩
  | @cons bits values samples words hbits _ ih =>
    obtain ⟨v', hv', hcarries⟩ := hv.readAndRefresh hs ha hb hinterval hbound hbits
      (hlength values (List.mem_cons_self ..))
    obtain ⟨verdicts, hverdicts, hcount, hdist⟩ :=
      ih (fun w hw => hlength w (List.mem_cons_of_mem _ hw)) hcarries
    refine ⟨v'.verdict :: verdicts, ?_, by simp [hcount], ?_⟩
    · rw [verdictsFrom, hv', Outcome.ok_bind, hverdicts]
      rfl
    · -- Later verdicts have the words of later samples in front of this one.
      intro i verdict hi
      cases i with
      | zero =>
        obtain rfl := Option.some.inj hi
        simpa using hcarries.verdict hpos ha
      | succ i =>
        have := hdist i verdict hi
        rw [Nat.add_right_comm count 1 i, ← List.append_assoc] at this
        rwa [List.take_succ_cons, List.reverse_cons, List.flatten_append, List.flatten_singleton]

namespace ReverseMonitor

variable {m : ReverseMonitor} {p' : Pipeline}

/-- One sample whose bits can be computed. -/
theorem perform_feed {sample : List Ckks.Ciphertext} {bits : List PreparedGgsw} {v : WeightVector}
    (hbits : (Pipeline.bits sample).perform m.pipeline = (.ok bits, p'))
    (hv : m.engine.readAndRefresh m.pipeline.bridge m.bootInterval (m.fed + 1) bits = .ok v) :
    (feed sample).perform m =
      (.ok v.verdict, { m with pipeline := p', engine := v, fed := m.fed + 1 }) := by
  rw [feed, Action.perform_bind_of_ok (Action.perform_within_of_ok _ _ m hbits),
    Action.perform_bind_of_ok (Action.perform_get _)]
  rw [← (Pipeline.bits_keeps hbits).bridge] at hv
  rw [Action.perform_bind_of_ok (by rw [Action.perform_ofOutcome, hv])]
  rfl

/-- A monitor that is fed samples one at a time gives the verdicts of the whole sequence. -/
theorem perform_mapM_feed {trace : List (List Ckks.Ciphertext)} {samples : List (List PreparedGgsw)}
    {verdicts : List (Lwe 32)}
    (hbits : (trace.mapM Pipeline.bits).perform m.pipeline = (.ok samples, p'))
    (hverdicts : OfflineMonitor.verdictsFrom m.pipeline.bridge m.bootInterval (m.fed + 1) m.engine
      samples = .ok verdicts) :
    ∃ m', (trace.mapM feed).perform m = (.ok verdicts, m') := by
  induction trace generalizing m samples verdicts with
  | nil =>
    rw [List.mapM_nil, Action.perform_pure, Prod.mk.injEq, Except.ok.injEq] at hbits
    obtain ⟨rfl, rfl⟩ := hbits
    obtain rfl := Outcome.pure_eq_ok_iff.1 hverdicts
    exact ⟨m, rfl⟩
  | cons sample trace ih =>
    obtain ⟨bits, mid, rest, hfirst, hrest, rfl⟩ := Action.perform_mapM_cons_eq_ok_iff.1 hbits
    obtain ⟨v, hv, hverdicts⟩ := Outcome.bind_eq_ok_iff.1 hverdicts
    obtain ⟨more, hmore, hverdicts⟩ := Outcome.bind_eq_ok_iff.1 hverdicts
    obtain rfl := Outcome.pure_eq_ok_iff.1 hverdicts
    rw [← (Pipeline.bits_keeps hfirst).bridge] at hmore
    obtain ⟨m', hm'⟩ :=
      ih (m := { m with pipeline := mid, engine := v, fed := m.fed + 1 }) hrest hmore
    exact ⟨m', Action.perform_mapM_cons_eq_ok_iff.2
      ⟨v.verdict, _, more, perform_feed hfirst hv, hm', rfl⟩⟩

theorem start_ok {p : Pipeline} {a : Automaton} {bootInterval : ℕ} {v : WeightVector}
    (hinterval : 0 < bootInterval) (hv : WeightVector.start a p.degree = .ok v) :
    start p a bootInterval = .ok { pipeline := p, engine := v, bootInterval } := by
  rw [start, require_of hinterval, Outcome.ok_bind, hv]
  rfl

end ReverseMonitor

/-- Reading the samples of a trace from the last one on gives a verdict for each suffix: its phase is
within the noise of the last refresh and of the bits read since then of the word for acceptance of the
suffix, and its bit is the acceptance.  A monitor whose pipeline computes these bits gives these
verdicts. -/
theorem WeightVector.verdicts_of_suffixes {b : SchemeBridge} {s : GlweSecret} {a : Automaton}
    {eps delta rho predicates bootInterval : ℕ} (hs : s.degree = b.tfhe.midDegree)
    (ha : a.WellFormed) (hb : b.Refreshes s delta rho) (hinterval : 0 < bootInterval)
    (hbound : rho + bootInterval * predicates * eps ≤ delta) (hdelta : delta < 2 ^ 29)
    {samples : List (List PreparedGgsw)} {words : List (List Bool)}
    (hsamples : List.Forall₂ (List.Forall₂ (PreparedGgsw.Encrypts b.tables s eps)) samples words)
    (hlength : ∀ w ∈ words, w.length ≤ predicates) :
    ∃ v verdicts, WeightVector.start a b.tfhe.midDegree = .ok v ∧
      OfflineMonitor.verdictsFrom b bootInterval 1 v samples = .ok verdicts ∧
      verdicts.length = samples.length ∧
      (∀ i verdict, verdicts[i]? = some verdict →
        distance (verdict.phase s.toLwe)
            (signWord (a.accepts (words.take (i + 1)).reverse.flatten)) ≤
          rho + (i + 1) % bootInterval * (predicates * eps) ∧
        Lwe.bit (verdict.phase s.toLwe) = a.accepts (words.take (i + 1)).reverse.flatten) ∧
      ∀ (p p' : Pipeline) (trace : List (List Ckks.Ciphertext)), p.bridge = b →
        (trace.mapM Pipeline.bits).perform p = (.ok samples, p') →
        ∃ m m', ReverseMonitor.start p a bootInterval = .ok m ∧
          (trace.mapM ReverseMonitor.feed).perform m = (.ok verdicts, m') := by
  obtain ⟨hdegree, hpos⟩ := hb.degreeOk
  rw [← hs] at hdegree hpos ⊢
  rw [Nat.mul_assoc] at hbound
  obtain ⟨v, hv, hcarries⟩ := WeightVector.start_ok (a := a) hdegree hpos
  have hcarries' : v.Carries s a [] (noiseAfter rho eps predicates bootInterval 0) :=
    hcarries.mono (Nat.zero_le _)
  obtain ⟨verdicts, hverdicts, hcount, hdist⟩ :=
    OfflineMonitor.verdictsFrom_ok hs ha hb hinterval hbound hsamples hlength hcarries'
  refine ⟨v, verdicts, hv, hverdicts, hcount, ?_, ?_⟩
  · intro i verdict hi
    have hnoise := hdist i verdict hi
    rw [List.append_nil, Nat.zero_add, noiseAfter] at hnoise
    refine ⟨hnoise, Lwe.bit_of_distance (lt_of_le_of_lt (hnoise.trans ?_) hdelta)⟩
    have hlt := (Nat.mod_lt (i + 1) hinterval).le
    exact (Nat.add_le_add_left (Nat.mul_le_mul_right _ hlt) _).trans hbound
  · rintro p p' trace rfl hbits
    have hstart := ReverseMonitor.start_ok (p := p) hinterval (hs ▸ hv)
    obtain ⟨m', hm'⟩ := ReverseMonitor.perform_mapM_feed
      (m := { pipeline := p, engine := v, bootInterval }) hbits hverdicts
    exact ⟨_, m', hstart, hm'⟩

/-- Whether the number of zeros in a word is even. -/
def evenZeros : Automaton where
  initial := 0
  accepting := #[true, false]
  transitions := #[(1, 0), (0, 1)]

theorem wellFormed_evenZeros : evenZeros.WellFormed := ⟨by decide, by decide, by decide⟩

/-- Three samples with a refresh after the second one: two zeros, then three, then five. -/
theorem WeightVector.verdicts_of_five_zeros :
    ∃ v verdicts, WeightVector.start evenZeros 4 = .ok v ∧
      OfflineMonitor.verdictsFrom zeroBridge 2 1 v
        [[zeroBit, zeroBit], [zeroBit], [zeroBit, zeroBit]] = .ok verdicts ∧
      verdicts.map (fun c => Lwe.bit (c.phase zeroSecret.toLwe)) = [true, false, false] := by
  have hsamples : List.Forall₂ (List.Forall₂ (PreparedGgsw.Encrypts zeroBridge.tables zeroSecret 0))
      [[zeroBit, zeroBit], [zeroBit], [zeroBit, zeroBit]]
      [[false, false], [false], [false, false]] := by
    have h := zeroBit_encrypts
    exact .cons (.cons h (.cons h .nil)) (.cons (.cons h .nil)
      (.cons (.cons h (.cons h .nil)) .nil))
  obtain ⟨v, verdicts, hv, hverdicts, hcount, hbits, -⟩ :=
    WeightVector.verdicts_of_suffixes (b := zeroBridge) (s := zeroSecret) rfl wellFormed_evenZeros
      zeroBridge_refreshes (by decide : 0 < 2) (by decide : 0 + 2 * 2 * 0 ≤ 2 ^ 28 - 1) (by decide)
      hsamples (by decide)
  refine ⟨v, verdicts, hv, hverdicts, ?_⟩
  obtain ⟨c₀, c₁, c₂, rfl⟩ := List.length_eq_three.1 hcount
  rw [List.map_cons, List.map_cons, List.map_cons, List.map_nil, (hbits 0 c₀ rfl).2,
    (hbits 1 c₁ rfl).2, (hbits 2 c₂ rfl).2]
  decide

end CipherMonitor
