import CipherMonitor.Automaton.Basic
import CipherMonitor.Bridge.Conversion

/-!
# An automaton reading encrypted bits forwards

One ring ciphertext for each state: its constant coefficient is `1/4` for the state that the
automaton is in, and zero for all others.

* `StateVector.start` — the vector before the first bit.
* `StateVector.transition` — the vector after a bit.
* `StateVector.refresh` — the vector with the noise removed.
* `StateVector.verdict` — whether the state accepts.
-/

namespace CipherMonitor

/-- An automaton with a ciphertext for each of its states. -/
structure StateVector where
  automaton : Automaton
  states : List (Glwe 32)
  deriving DecidableEq

namespace StateVector

/-- The vector of the initial state. -/
def start (a : Automaton) (degree : Nat) : Outcome StateVector := do
  Poly.degreeOk degree
  let states := (List.range a.numStates).map fun q =>
    Glwe.constant degree (if q = a.initial then Torus.quarter else 0)
  pure ⟨a, states⟩

/-- What the successors of state `q` receive from its ciphertext: one successor for both bits
receives all of it, two of them receive its product with the bit and the rest. -/
def shares (a : Automaton) (t : Fourier) (bit : PreparedGgsw) (q : Nat) (s : Glwe 32) :
    List (Nat × Glwe 32) :=
  let onFalse := a.next q false
  let onTrue := a.next q true
  if onFalse = onTrue then [(onFalse, s)]
  else
    let product := bit.externalProduct t s
    [(onTrue, product), (onFalse, s.sub product)]

/-- The sum of what state `q` receives. -/
def gather (degree : Nat) (shares : List (Nat × Glwe 32)) (q : Nat) : Glwe 32 :=
  (shares.filter (·.1 = q)).foldl (fun sum share => sum.add share.2) (Glwe.zero degree)

/-- The vector after a bit. -/
def step (v : StateVector) (t : Fourier) (bit : PreparedGgsw) : StateVector :=
  let received := v.states.zipIdx.flatMap fun (s, q) => shares v.automaton t bit q s
  { v with states := (List.range v.states.length).map (gather bit.degree received) }

/-- The check of one state: the bit fits its ciphertext, if it decides about the successor, and the
result has the degree of the bit. -/
def fits (a : Automaton) (t : Fourier) (bit : PreparedGgsw) (q : Nat) (s : Glwe 32) :
    Outcome Unit := do
  if a.next q false = a.next q true then pure () else bit.fits t s
  let n ← bit.degreeChecked
  require (s.b.size = n ∧ s.a.size = n) .shape

/-- The vector after a bit that fits. -/
def transition (v : StateVector) (t : Fourier) (bit : PreparedGgsw) : Outcome StateVector := do
  v.states.zipIdx.forM fun (s, q) => fits v.automaton t bit q s
  pure (v.step t bit)

/-- A ciphertext of `1/4` or zero without the noise: both are told apart by the sign around `1/8`. -/
def refreshState (b : SchemeBridge) (s : Glwe 32) : Outcome (Glwe 32) := do
  let lwe ← Glwe.Checked.sampleExtract s 0
  let fresh ← b.signRotate (lwe.addConstant (-Torus.eighth)) Torus.eighth
  Glwe.Checked.addConstant fresh Torus.eighth

/-- The vector with the noise removed from every state. -/
def refresh (v : StateVector) (b : SchemeBridge) : Outcome StateVector := do
  let states ← v.states.mapM (refreshState b)
  pure { v with states }

/-- The ring degree of the ciphertexts. -/
def degree (v : StateVector) : Nat := (v.states.head?.map Glwe.degree).getD 0

/-- The ciphertext of a state. -/
def at? (v : StateVector) (q : Nat) : Glwe 32 := v.states.getD q (Glwe.zero v.degree)

/-- A ciphertext of `1/8` when the state accepts, and of `-1/8` otherwise. -/
def verdict (v : StateVector) : Lwe 32 :=
  v.automaton.finals.foldl (fun sum q => sum.add ((v.at? q).sampleExtract 0))
    (Lwe.trivial v.degree (-Torus.eighth))

end StateVector

end CipherMonitor
