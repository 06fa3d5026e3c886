import CipherMonitor.Ckks.Parameters
import CipherMonitor.Config.Bridge
import CipherMonitor.Tfhe.Parameters

/-!
# Configuration of a monitor

* `RunnerMode` — in which order and rhythm samples are consumed.
* `MonitorConfig`, `MonitorConfig.validate` — the parameters of a session, and what is required of
  them.
-/

namespace CipherMonitor

/-- How a monitor consumes its samples. -/
inductive RunnerMode
  /-- A verdict after every sample. -/
  | online
  /-- A verdict after every block of samples. -/
  | block
  /-- Samples from the last to the first, a verdict after each. -/
  | reverse
  /-- All samples at once. -/
  | offline
  deriving DecidableEq, Repr

/-- The parameters of both schemes and of the bridge, the mode, the number of samples between two
refreshes, the number of samples of a block, and the bounds of the propositions; without bounds,
those of the predicate are used. -/
structure MonitorConfig where
  ckks : Ckks.Parameters := .standard
  tfhe : Tfhe.Parameters := .standard
  bridge : BridgeConfig := {}
  mode : RunnerMode
  bootInterval : Nat := 1
  blockSize : Nat := 1
  references : List Float := []
  deriving DecidableEq

namespace MonitorConfig

/-- The configuration of a session with small parameters, without security. -/
def small (mode : RunnerMode) : MonitorConfig := { ckks := .small, tfhe := .small, mode }

/-- Whether a bound of a proposition can be used: it is finite and above zero. -/
def isReference (x : Float) : Bool := x.isFinite && x > 0.0

/-- The parameters of the approximate scheme and of the bridge are valid, the two numbers of samples
are not zero, and the bounds can be used. -/
def validate (c : MonitorConfig) : Outcome Unit := do
  let refuse (flaw : ConfigFlaw) : Outcome Unit := .error (.monitor (.invalidConfig flaw))
  c.ckks.validate
  c.bridge.validate
  if c.bootInterval = 0 then refuse .bootInterval
  else if c.blockSize = 0 then refuse .blockSize
  else match c.references.find? fun r => !isReference r with
    | some r => refuse (.reference r)
    | none => pure ()

end MonitorConfig

end CipherMonitor
