import CipherMonitor.Bootstrap.BlindRotation
import CipherMonitor.Glwe.PrivateKeySwitch
import CipherMonitor.Lwe.KeySwitch

/-!
# Circuit bootstrapping

Turns an LWE ciphertext of a bit into a gadget ciphertext of the same bit: one gate bootstrap per
digit weight gives LWE ciphertexts of `bit * weight`, and two private key switches turn each of
them into the two rows of its digit.

* `CircuitKey`, `CircuitKey.generate` — the two private key switching keys.
* `CircuitKey.bits` — the LWE ciphertexts of `bit * weight`.
* `CircuitKey.bootstrap` — the prepared gadget ciphertext.
-/

namespace CipherMonitor

/-- The private key switching keys for both kinds of rows, and the gadget of the result. -/
structure CircuitKey where
  identity : PrivateKeySwitch
  timesSecret : PrivateKeySwitch
  gadget : Gadget
  deriving DecidableEq

namespace CircuitKey

/-- The keys under a ring secret, for inputs under the same coefficients. -/
def generate (s : GlweSecret) (g switchGadget : Gadget) (sigma : Float) (xa xe : Source) :
    Outcome (CircuitKey × Source × Source) := do
  let (identity, xa, xe) ← PrivateKeySwitch.generate s.toLwe s .identity switchGadget sigma xa xe
  let (timesSecret, xa, xe) ←
    PrivateKeySwitch.generate s.toLwe s .timesSecret switchGadget sigma xa xe
  pure (⟨identity, timesSecret, g⟩, xa, xe)

/-- Half of a digit weight. -/
def halfWeight (g : Gadget) (i : Nat) : BitVec 32 := g.weight 32 i >>> 1

/-- A ciphertext of `bit * weight i`: a gate bootstrap to half of the weight with the sign of the
bit, moved up by the other half. -/
def weightedBit (t : Fourier) (g : Gadget) (rotation : BlindRotationKey) (fine : Lwe 32) (i : Nat) :
    Outcome (Lwe 32) := do
  let c ← rotation.gate t fine (halfWeight g i)
  pure (c.addConstant (halfWeight g i))

/-- The ciphertexts of `bit * weight` for all digits. -/
def bits (t : Fourier) (g : Gadget) (rotation : BlindRotationKey) (fine : Lwe 32) :
    Outcome (List (Lwe 32)) :=
  (List.range g.rows).mapM (weightedBit t g rotation fine)

/-- The rows of the gadget ciphertext of the bit. -/
def rowsOf (k : CircuitKey) (bits : List (Lwe 32)) : Outcome (List (Glwe 32)) := do
  let first ← bits.mapM k.identity.switchChecked
  let second ← bits.mapM k.timesSecret.switchChecked
  pure (first ++ second)

/-- A gadget ciphertext of the bit that the phase of `c` carries: true on `[0, 1/2)`. -/
def bootstrap (t : Fourier) (k : CircuitKey) (rotation : BlindRotationKey)
    (toFine : LweSwitchingKey 32) (c : Lwe 32) : Outcome PreparedGgsw := do
  let fine ← toFine.switchChecked c
  let bits ← bits t k.gadget rotation fine
  let rows ← k.rowsOf bits
  let g ← Ggsw.ofRows rows k.gadget
  g.prepareChecked t

end CircuitKey

end CipherMonitor
