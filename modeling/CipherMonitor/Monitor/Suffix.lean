import CipherMonitor.Encrypted.WeightVector
import CipherMonitor.Monitor.Pipeline

/-!
# Monitors of suffixes

These read samples from the last to the first; a verdict says whether the samples from the one read
last to the end have the property of the automaton.

* `ReverseMonitor` — a verdict after every sample, with a refresh at every `bootInterval`-th.
* `OfflineMonitor` — the verdicts of a whole trace.
-/

namespace CipherMonitor

/-- Reads the bits of one sample, the last coordinate first. -/
def WeightVector.readSample (b : SchemeBridge) (v : WeightVector) (bits : List PreparedGgsw) :
    Outcome WeightVector :=
  bits.reverse.foldlM (fun v bit => v.transition b.tables bit) v

/-- Reads sample number `count`, from `1` on, and refreshes the weights when the number is a multiple
of the interval. -/
def WeightVector.readAndRefresh (b : SchemeBridge) (bootInterval count : Nat) (v : WeightVector)
    (bits : List PreparedGgsw) : Outcome WeightVector := do
  let next ← v.readSample b bits
  if count % bootInterval = 0 then next.refresh b else pure next

/-- A pipeline, the weights of the automaton, and the number of samples read. -/
structure ReverseMonitor where
  pipeline : Pipeline
  engine : WeightVector
  bootInterval : Nat
  fed : Nat := 0

namespace ReverseMonitor

/-- The monitor before the first sample. -/
def start (p : Pipeline) (a : Automaton) (bootInterval : Nat) : Outcome ReverseMonitor := do
  require (0 < bootInterval) .bootInterval
  let engine ← WeightVector.start a p.degree
  pure { pipeline := p, engine, bootInterval }

/-- Whether the samples so far have the property. -/
def verdict (m : ReverseMonitor) : Lwe 32 := m.engine.verdict

/-- Reads a sample and gives the verdict after it. -/
def feed (sample : List Ckks.Ciphertext) : Action ReverseMonitor (Lwe 32) := do
  let bits ← Action.within (·.pipeline) (fun m pipeline => { m with pipeline })
    (Pipeline.bits sample)
  let m ← get
  let engine ← Action.ofOutcome
    (m.engine.readAndRefresh m.pipeline.bridge m.bootInterval (m.fed + 1) bits)
  set { m with engine, fed := m.fed + 1 }
  pure engine.verdict

end ReverseMonitor

/-- A pipeline and an automaton. -/
structure OfflineMonitor where
  pipeline : Pipeline
  automaton : Automaton
  bootInterval : Nat

namespace OfflineMonitor

/-- The monitor of traces. -/
def start (p : Pipeline) (a : Automaton) (bootInterval : Nat) : Outcome OfflineMonitor := do
  require (0 < bootInterval) .bootInterval
  pure { pipeline := p, automaton := a, bootInterval }

/-- The verdicts after each of the samples, of which the first one has the number `count`. -/
def verdictsFrom (b : SchemeBridge) (bootInterval : Nat) :
    (count : Nat) → WeightVector → List (List PreparedGgsw) → Outcome (List (Lwe 32))
  | _, _, [] => pure []
  | count, v, bits :: rest => do
    let next ← v.readAndRefresh b bootInterval count bits
    let verdicts ← verdictsFrom b bootInterval (count + 1) next rest
    pure (next.verdict :: verdicts)

/-- The propositions of all samples; evaluation stops at the first failure. -/
def predicates : List (List Ckks.Ciphertext) → Action Pipeline (List (List Ckks.Ciphertext))
  | [] => pure []
  | sample :: samples => do
    let values ← Pipeline.predicates sample
    let more ← predicates samples
    pure (values :: more)

/-- The verdicts of a trace, its last sample first. -/
def run (samples : List (List Ckks.Ciphertext)) : Action OfflineMonitor (List (Lwe 32)) := do
  let values ← Action.within (·.pipeline) (fun m pipeline => { m with pipeline })
    (predicates samples)
  let m ← get
  Action.ofOutcome do
    let bits ← m.pipeline.bitsInOnePass values
    let engine ← WeightVector.start m.automaton m.pipeline.degree
    verdictsFrom m.pipeline.bridge m.bootInterval 1 engine bits

end OfflineMonitor

end CipherMonitor
