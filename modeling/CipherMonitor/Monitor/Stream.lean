import CipherMonitor.Monitor.Prefix
import CipherMonitor.Monitor.Suffix
import CipherMonitor.Stream.Record

/-!
# Monitoring of streams

* `EncryptedMonitor` — what the monitors that read one sample at a time have in common.
* `StreamRun.run` — feeds the samples of an input stream to a monitor and writes its new verdicts to
  an output stream.
-/

namespace CipherMonitor

/-- A monitor that reads one sample at a time. -/
class EncryptedMonitor (σ : Type) where
  /-- Reads a sample and gives the current verdict. -/
  feed : List Ckks.Ciphertext → Action σ (Lwe 32)
  /-- The current verdict. -/
  verdict : σ → Lwe 32
  /-- The count of ciphertexts in a sample. -/
  signalSize : σ → Nat
  /-- Whether the last sample gave a new verdict. -/
  isReady : σ → Bool

instance : EncryptedMonitor OnlineMonitor where
  feed := OnlineMonitor.feed
  verdict m := m.verdict
  signalSize m := m.pipeline.signalSize
  isReady _ := true

instance : EncryptedMonitor BlockMonitor where
  feed := BlockMonitor.feed
  verdict m := m.verdict
  signalSize m := m.pipeline.signalSize
  isReady m := m.boundary

instance : EncryptedMonitor ReverseMonitor where
  feed := ReverseMonitor.feed
  verdict m := m.verdict
  signalSize m := m.pipeline.signalSize
  isReady _ := true

/-- A monitor between an input and an output. -/
structure StreamRun (σ : Type) where
  monitor : σ
  input : ByteInput
  output : ByteOutput := {}

namespace StreamRun

variable {σ : Type} [EncryptedMonitor σ]

/-- The next sample of the input. -/
def nextSample : Action (StreamRun σ) (Option (List Ckks.Ciphertext)) := do
  let r ← get
  Action.within (·.input) (fun r input => { r with input })
    (Record.readSample (EncryptedMonitor.signalSize r.monitor))

/-- Reads a sample, and writes the verdict if it is a new one. -/
def feed (sample : List Ckks.Ciphertext) : Action (StreamRun σ) Unit := do
  let verdict ← Action.within (·.monitor) (fun r monitor => { r with monitor })
    (EncryptedMonitor.feed sample)
  let r ← get
  if EncryptedMonitor.isReady r.monitor then
    Action.within (·.output) (fun r output => { r with output }) (Record.writeVerdict verdict)

/-- At most `fuel` samples; the result is the count of those read. -/
def runUpTo : (fuel : Nat) → Action (StreamRun σ) Nat
  | 0 => pure 0
  | fuel + 1 => do
    match ← nextSample with
    | none => pure 0
    | some sample =>
      feed sample
      let count ← runUpTo fuel
      pure (count + 1)

/-- All samples of the input.  A sample takes at least one byte, so that their count is below the
number of bytes to come. -/
def run : Action (StreamRun σ) Nat := do
  let r ← get
  runUpTo (r.input.size + 1)

end StreamRun

end CipherMonitor
