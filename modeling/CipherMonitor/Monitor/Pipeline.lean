import CipherMonitor.Bridge.Conversion
import CipherMonitor.Config.Monitor
import CipherMonitor.Predicate.Encrypted

/-!
# From samples to encrypted bits

* `Pipeline` — the evaluator of a predicate and the bridge, with the bounds of the propositions.
* `Pipeline.predicates`, `Pipeline.booleans`, `Pipeline.bits` — the propositions of a sample as
  ciphertexts of the approximate scheme, as signs, and as gadget ciphertexts.
* `Pipeline.bitsOfAll`, `Pipeline.bitsInOnePass` — the gadget ciphertexts of many evaluated samples.
-/

namespace CipherMonitor

/-- An evaluator, a bridge, a bound for each proposition, and the accuracy of the conversion. -/
structure Pipeline where
  evaluator : PredicateEvaluator
  bridge : SchemeBridge
  references : List Float
  mode : Accuracy

namespace Pipeline

/-- The pipeline with the bounds of the predicate and the accuracy of the bridge. -/
def make (evaluator : PredicateEvaluator) (bridge : SchemeBridge) : Pipeline :=
  { evaluator, bridge, references := evaluator.predicate.references, mode := bridge.config.mode }

/-- Replaces the bounds, one for each proposition. -/
def withReferences (p : Pipeline) (references : List Float) : Outcome Pipeline :=
  let expected := p.evaluator.predicate.size
  if references.length = expected then .ok { p with references }
  else .error (.monitor (.sizeMismatch expected references.length))

/-- The pipeline with the bounds and the accuracy of a configuration. -/
def ofConfig (config : MonitorConfig) (evaluator : PredicateEvaluator) (bridge : SchemeBridge) :
    Outcome Pipeline :=
  let p := { make evaluator bridge with mode := config.bridge.mode }
  if config.references.isEmpty then .ok p else p.withReferences config.references

/-- The count of ciphertexts in a sample. -/
def signalSize (p : Pipeline) : Nat := p.evaluator.predicate.signalSize

/-- The count of propositions. -/
def size (p : Pipeline) : Nat := p.evaluator.predicate.size

/-- The ring degree of the boolean scheme. -/
def degree (p : Pipeline) : Nat := p.bridge.tfhe.midDegree

/-- The propositions of a sample. -/
def predicates (sample : List Ckks.Ciphertext) : Action Pipeline (List Ckks.Ciphertext) :=
  Action.within (·.evaluator) (fun p evaluator => { p with evaluator })
    (PredicateEvaluator.evaluate sample)

/-- The signs of the propositions of a sample. -/
def booleans (p : Pipeline) (predicates : List Ckks.Ciphertext) : Outcome (List (Lwe 32)) :=
  p.bridge.convertAll p.mode predicates p.references

/-- The bits of a sample. -/
def bits (sample : List Ckks.Ciphertext) : Action Pipeline (List PreparedGgsw) := do
  let values ← predicates sample
  let p ← get
  let signs ← Action.ofOutcome (p.booleans values)
  Action.ofOutcome (signs.mapM p.bridge.circuitBootstrap)

/-- The bit of one proposition. -/
def bitOf (p : Pipeline) (c : Ckks.Ciphertext) (reference : Float) : Outcome PreparedGgsw := do
  let sign ← p.bridge.convert p.mode c reference
  p.bridge.circuitBootstrap sign

/-- The bits of evaluated samples. -/
def bitsOfAll (p : Pipeline) (samples : List (List Ckks.Ciphertext)) :
    Outcome (List (List PreparedGgsw)) :=
  samples.mapM fun sample => (sample.zip p.references).mapM fun (c, r) => p.bitOf c r

/-- Deals a list out to `count` receivers, `size` elements to each. -/
def deal {α : Type} (size : Nat) : (count : Nat) → List α → List (List α)
  | 0, _ => []
  | count + 1, xs => xs.take size :: deal size count (xs.drop size)

/-- The bits of evaluated samples, computed in one pass over all propositions with their bounds and
dealt out to the samples, one bit for each proposition. -/
def bitsInOnePass (p : Pipeline) (samples : List (List Ckks.Ciphertext)) :
    Outcome (List (List PreparedGgsw)) := do
  let pairs := samples.flatMap fun sample => sample.zip p.references
  let bits ← pairs.mapM fun (c, r) => p.bitOf c r
  pure (deal p.size samples.length bits)

/-- The verdict before any other: accepting, without noise. -/
def initialVerdict (p : Pipeline) : Lwe 32 := Lwe.trivial p.degree Torus.eighth

end Pipeline

end CipherMonitor
