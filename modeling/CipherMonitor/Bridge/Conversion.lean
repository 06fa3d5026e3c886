import CipherMonitor.Bridge.Amplification
import CipherMonitor.Bridge.Descent

/-!
# The bridge between the schemes

* `SchemeBridge`, `SchemeBridge.make`, `SchemeBridge.install` — parameters and tables, and the
  keys once they are installed.
* `SchemeBridge.convert` — from a ciphertext of the approximate scheme to the sign of its value.
* `SchemeBridge.circuitBootstrap`, `SchemeBridge.signRotate` — fresh ciphertexts of a sign.
-/

namespace CipherMonitor

/-- The parameters of both schemes, the transform of the mid ring, and the keys. -/
structure SchemeBridge where
  ckks : Ckks.Parameters
  tfhe : Tfhe.Parameters
  config : BridgeConfig
  tables : Fourier
  keys : Option KeyBundle := none

namespace SchemeBridge

/-- A bridge without keys. -/
def make (ckks : Ckks.Parameters) (tfhe : Tfhe.Parameters) (config : BridgeConfig) :
    Outcome SchemeBridge := do
  let tables ← Fourier.make tfhe.midDegree
  pure { ckks, tfhe, config, tables }

/-- The check that the keys lead from the coarse level to the mid and to the fine level of the
parameters, and back. -/
def fits (b : SchemeBridge) (k : KeyBundle) : Outcome Unit := do
  require (k.coarseToMid.nIn = b.ckks.ringDegree) .bridgeDegree
  require (k.coarseToMid.nOut = b.tfhe.midDegree) .shape
  require (k.midToFine.nIn = b.tfhe.midDegree) .shape
  require (k.midToFine.nOut = b.tfhe.fineDimension) .shape
  require (k.blindRotation.dimension = b.tfhe.fineDimension) .shape
  require (k.blindRotation.degree = b.tfhe.midDegree) .shape
  let g ← b.tfhe.circuitBootstrapping.gadget
  require (k.circuit.gadget = g) .shape

/-- Installs the keys. -/
def install (b : SchemeBridge) (k : KeyBundle) : Outcome SchemeBridge := do
  b.fits k
  pure { b with keys := some k }

/-- The keys, which have to be installed. -/
def installed (b : SchemeBridge) : Outcome KeyBundle :=
  match b.keys with
  | some k => .ok k
  | none => .error (.breach .bridgeUninitialized)

/-- The level of the ciphertexts that a bridge expects. -/
def entryLevel : Nat := 0

/-- Whether a ciphertext is above the level that a bridge expects; it is converted all the same, but
the caller is to be warned. -/
def isAboveEntry (c : Ckks.Ciphertext) : Bool := c.level != entryLevel

/-- The coarse ciphertext of an amplified value. -/
def toCoarse (b : SchemeBridge) (c : Ckks.Ciphertext) (reference : Float) : Outcome (Lwe 64) := do
  let amplified ← amplify b.ckks c reference
  let ring ← reduceToTorus amplified
  Glwe.Checked.sampleExtract ring 0

/-- A mid ciphertext of `1/8` if the value is not negative, and of `-1/8` otherwise; the reference
bounds the value. -/
def convert (b : SchemeBridge) (mode : Accuracy) (c : Ckks.Ciphertext) (reference : Float) :
    Outcome (Lwe 32) := do
  let k ← b.installed
  let coarse ← b.toCoarse c reference
  k.descend b.tables b.config mode coarse

/-- Converts values with a reference each. -/
def convertAll (b : SchemeBridge) (mode : Accuracy) (cs : List Ckks.Ciphertext)
    (references : List Float) : Outcome (List (Lwe 32)) := do
  require (cs.length = references.length) .shape
  (cs.zip references).mapM fun (c, r) => b.convert mode c r

/-- A gadget ciphertext of the bit of a mid ciphertext. -/
def circuitBootstrap (b : SchemeBridge) (c : Lwe 32) : Outcome PreparedGgsw := do
  let k ← b.installed
  k.circuit.bootstrap b.tables k.blindRotation k.midToFine c

/-- A ring ciphertext whose constant coefficient is `mu` when the phase is in `[0, 1/2)`, and `-mu`
otherwise. -/
def signRotate (b : SchemeBridge) (c : Lwe 32) (mu : BitVec 32) : Outcome (Glwe 32) := do
  let k ← b.installed
  let fine ← k.midToFine.switchChecked c
  k.blindRotation.rotate b.tables fine (BlindRotationKey.constantTest b.tfhe.midDegree mu)

end SchemeBridge

end CipherMonitor
