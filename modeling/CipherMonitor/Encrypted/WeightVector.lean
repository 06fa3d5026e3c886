import CipherMonitor.Automaton.Basic
import CipherMonitor.Bridge.Conversion

/-!
# An automaton reading encrypted bits backwards

One ring ciphertext for each state: its constant coefficient is `1/8` when the word read so far, put
back in order, is accepted from that state, and `-1/8` otherwise.

* `WeightVector.start` — the weights of the empty word.
* `WeightVector.transition` — the weights with a bit put in front of the word.
* `WeightVector.refresh` — the weights with the noise removed.
* `WeightVector.verdict` — whether the word is accepted.
-/

namespace CipherMonitor

/-- An automaton with a ciphertext for each of its states. -/
structure WeightVector where
  automaton : Automaton
  weights : List (Glwe 32)
  deriving DecidableEq

namespace WeightVector

/-- The weights of the empty word. -/
def start (a : Automaton) (degree : Nat) : Outcome WeightVector := do
  Poly.degreeOk degree
  let weights := (List.range a.numStates).map fun q =>
    Glwe.constant degree (if a.isFinal q then Torus.eighth else -Torus.eighth)
  pure ⟨a, weights⟩

/-- The weight of a state. -/
def weight (v : WeightVector) (q : Nat) : Glwe 32 := v.weights.getD q (Glwe.zero 0)

/-- The weight of state `q` with a bit in front: that of its successor, which the bit chooses. -/
def stepAt (v : WeightVector) (t : Fourier) (bit : PreparedGgsw) (q : Nat) : Outcome (Glwe 32) :=
  let onFalse := v.automaton.next q false
  let onTrue := v.automaton.next q true
  if onFalse = onTrue then .ok (v.weight onFalse)
  else bit.selectChecked t (v.weight onTrue) (v.weight onFalse)

/-- The weights with a bit put in front of the word. -/
def transition (v : WeightVector) (t : Fourier) (bit : PreparedGgsw) : Outcome WeightVector := do
  let weights ← (List.range v.weights.length).mapM (v.stepAt t bit)
  pure { v with weights }

/-- A weight without the noise. -/
def refreshWeight (b : SchemeBridge) (w : Glwe 32) : Outcome (Glwe 32) := do
  let lwe ← Glwe.Checked.sampleExtract w 0
  b.signRotate lwe Torus.eighth

/-- The weights with the noise removed. -/
def refresh (v : WeightVector) (b : SchemeBridge) : Outcome WeightVector := do
  let weights ← v.weights.mapM (refreshWeight b)
  pure { v with weights }

/-- A ciphertext of `1/8` when the word is accepted, and of `-1/8` otherwise. -/
def verdict (v : WeightVector) : Lwe 32 := (v.weight v.automaton.initial).sampleExtract 0

end WeightVector

end CipherMonitor
