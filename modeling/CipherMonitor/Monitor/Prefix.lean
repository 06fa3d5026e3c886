import CipherMonitor.Encrypted.StateVector
import CipherMonitor.Monitor.Pipeline

/-!
# Monitors of prefixes

These read samples in their order; a verdict says whether the samples so far have the property of
the automaton.

* `OnlineMonitor` — a verdict after every sample, with a refresh after every bit.
* `BlockMonitor` — a verdict after every block of samples, with one refresh for each block.
-/

namespace CipherMonitor

/-- A pipeline, the states of the automaton, and the last verdict. -/
structure OnlineMonitor where
  pipeline : Pipeline
  engine : StateVector
  verdict : Lwe 32

namespace OnlineMonitor

/-- The monitor before the first sample. -/
def start (p : Pipeline) (a : Automaton) : Outcome OnlineMonitor := do
  let engine ← StateVector.start a p.degree
  pure { pipeline := p, engine, verdict := p.initialVerdict }

/-- Reads a bit and refreshes the states. -/
def readBit (b : SchemeBridge) (v : StateVector) (bit : PreparedGgsw) : Outcome StateVector := do
  let next ← v.transition b.tables bit
  next.refresh b

/-- Reads a sample and gives the verdict after it. -/
def feed (sample : List Ckks.Ciphertext) : Action OnlineMonitor (Lwe 32) := do
  let bits ← Action.within (·.pipeline) (fun m pipeline => { m with pipeline })
    (Pipeline.bits sample)
  let m ← get
  let engine ← Action.ofOutcome (bits.foldlM (readBit m.pipeline.bridge) m.engine)
  set { m with engine, verdict := engine.verdict }
  pure engine.verdict

end OnlineMonitor

/-- A pipeline, the states of the automaton, the propositions of the samples of the block so far, the
last verdict, whether the last sample gave a new one, and the number of blocks. -/
structure BlockMonitor where
  pipeline : Pipeline
  engine : StateVector
  blockSize : Nat
  pending : List (List Ckks.Ciphertext) := []
  verdict : Lwe 32
  boundary : Bool := false
  blocks : Nat := 0

namespace BlockMonitor

/-- The monitor before the first sample.  Room for the buffer is taken sample by sample and not reserved
for a whole block, so that no block is too large to begin with. -/
def start (p : Pipeline) (a : Automaton) (blockSize : Nat) : Outcome BlockMonitor := do
  require (0 < blockSize) .blockSize
  let engine ← StateVector.start a p.degree
  pure { pipeline := p, engine, blockSize, verdict := p.initialVerdict }

/-- The states after a block, refreshed at its end. -/
def readBlock (p : Pipeline) (v : StateVector) (block : List (List Ckks.Ciphertext)) :
    Outcome StateVector := do
  let bits ← p.bitsOfAll block
  let next ← bits.flatten.foldlM (fun v bit => v.transition p.bridge.tables bit) v
  next.refresh p.bridge

/-- Reads the block.  It leaves the buffer in any case; if it fails, states and verdict stay. -/
def closeBlock : Action BlockMonitor Unit := do
  let m ← get
  set { m with pending := [] }
  let engine ← Action.ofOutcome (readBlock m.pipeline m.engine m.pending)
  set { m with
    pending := [], engine, verdict := engine.verdict, boundary := true, blocks := m.blocks + 1 }

/-- Reads a sample and gives the verdict of the last full block. -/
def feed (sample : List Ckks.Ciphertext) : Action BlockMonitor (Lwe 32) := do
  modify fun m => { m with boundary := false }
  let values ← Action.within (·.pipeline) (fun m pipeline => { m with pipeline })
    (Pipeline.predicates sample)
  modify fun m => { m with pending := m.pending ++ [values] }
  let m ← get
  if m.blockSize ≤ m.pending.length then closeBlock
  pure (← get).verdict

end BlockMonitor

end CipherMonitor
