import CipherMonitor.Bootstrap.Circuit
import CipherMonitor.Ckks.Ciphertext
import CipherMonitor.Config.Bridge
import CipherMonitor.Tfhe.Parameters

/-!
# The descent from coarse ciphertexts to signs

The sign of the phase of a coarse ciphertext is extracted into a fresh mid ciphertext of `1/8` or
`-1/8`, from the ciphertext itself or digit by digit.

* `BooleanSecret`, `KeyBundle` — the secrets of the levels, and the keys between them.
* `KeyBundle.direct` — the sign from two key switches and one bootstrap.
* `KeyBundle.decompose` — the sign from the most significant digits, each cleaned by the one below.
* `KeyBundle.descend` — one of the two, by the accuracy.
-/

namespace CipherMonitor

/-- The ring secret of the mid level, and the secret of the fine level. -/
structure BooleanSecret where
  glwe : GlweSecret
  fine : LweSecret
  deriving DecidableEq

namespace BooleanSecret

/-- Binary secrets. -/
def generate (p : Tfhe.Parameters) : Draw BooleanSecret := do
  let glwe ← GlweSecret.generate p.midDegree .binary
  let fine ← LweSecret.generate p.fineDimension .binary
  pure ⟨glwe, fine⟩

/-- The secret of mid ciphertexts, verdicts among them. -/
def mid (s : BooleanSecret) : LweSecret := s.glwe.toLwe

end BooleanSecret

/-- The secret of the approximate scheme as one of coarse ciphertexts. -/
def Ckks.Secret.toLwe (s : Ckks.Secret) : LweSecret := ⟨s.coeffs⟩

/-- The keys of the descent and of bootstrapping. -/
structure KeyBundle where
  coarseToMid : LweSwitchingKey 32
  midToFine : LweSwitchingKey 32
  blindRotation : BlindRotationKey
  circuit : CircuitKey

namespace KeyBundle

/-- The keys between the secrets. -/
def generate (t : Fourier) (p : Tfhe.Parameters) (coarse : LweSecret) (s : BooleanSecret)
    (xa xe : Source) : Outcome (KeyBundle × Source × Source) := do
  let g ← p.coarseToMid.gadget
  let (coarseToMid, xa, xe) ← LweSwitchingKey.generate 32 coarse s.mid g p.midSigma xa xe
  let g ← p.midToFine.gadget
  let (midToFine, xa, xe) ← LweSwitchingKey.generate 32 s.mid s.fine g p.fineSigma xa xe
  let g ← p.blindRotation.gadget
  let (blindRotation, xa, xe) ← BlindRotationKey.generate t s.fine s.glwe g p.midSigma xa xe
  let g ← p.circuitBootstrapping.gadget
  let switchGadget ← p.privateSwitch.gadget
  let (circuit, xa, xe) ← CircuitKey.generate s.glwe g switchGadget p.midSigma xa xe
  pure (⟨coarseToMid, midToFine, blindRotation, circuit⟩, xa, xe)

/-- Two key switches and a sign bootstrap, for phases far from `0` and `1/2`. -/
def direct (k : KeyBundle) (t : Fourier) (coarse : Lwe 64) : Outcome (Lwe 32) := do
  let mid ← k.coarseToMid.switchChecked coarse
  let fine ← k.midToFine.switchChecked mid
  k.blindRotation.gate t fine Torus.eighth

/-- Half of a digit unit: digits are moved down by it around the key switch. -/
def digitOffset (digitBits : Nat) : BitVec 32 := BitVec.ofNat 32 (2 ^ (31 - digitBits))

/-- A quarter of a digit unit, which a digit receives with the sign of the digit below. -/
def digitCarry (digitBits : Nat) : BitVec 32 := BitVec.ofNat 32 (2 ^ (30 - digitBits))

/-- Digit `d` of `digits`, counted from `1` for the least significant: a mid ciphertext whose top bits
hold it, and below them the digits under it. -/
def digitOf (k : KeyBundle) (digitBits digits : Nat) (coarse : Lwe 64) (d : Nat) :
    Outcome (Lwe 32) :=
  k.coarseToMid.switchChecked (coarse.shiftLeft (digitBits * (digits - d)))

/-- A digit with its carry as a fine ciphertext. -/
def digitToFine (k : KeyBundle) (digitBits : Nat) (digit : Lwe 32) (carry : Option (Lwe 32)) :
    Outcome (Lwe 32) := do
  let offset := digitOffset digitBits
  let carried ← match carry with
    | none => pure digit
    | some c => Lwe.Checked.add digit c
  let moved ← Lwe.Checked.addConstant carried (-offset)
  let fine ← k.midToFine.switchChecked moved
  Lwe.Checked.addConstant fine offset

/-- Walks up the digits, the least significant first: the sign of each is the carry of the next, and
the sign of the last one is the result. -/
def climb (k : KeyBundle) (t : Fourier) (digitBits : Nat) :
    (carry : Option (Lwe 32)) → (digits : List (Lwe 32)) → Outcome (Lwe 32)
  | _, [] => .error (.breach .shape)
  | carry, [digit] => do
    let fine ← k.digitToFine digitBits digit carry
    k.blindRotation.gate t fine Torus.eighth
  | carry, digit :: next :: digits => do
    let fine ← k.digitToFine digitBits digit carry
    let sign ← k.blindRotation.gate t fine (digitCarry digitBits)
    k.climb t digitBits (some sign) (next :: digits)

/-- The sign of the top `digitBits * digits` bits of the phase. -/
def decompose (k : KeyBundle) (t : Fourier) (digitBits digits : Nat) (coarse : Lwe 64) :
    Outcome (Lwe 32) := do
  require (1 ≤ digits) .shape
  require (digitBits * digits ≤ 32) .shape
  require (digitBits ≤ 30) .arithmetic
  let shifted ← (List.range digits).mapM fun i => k.digitOf digitBits digits coarse (i + 1)
  k.climb t digitBits none shifted

/-- A mid ciphertext of `1/8` when the phase is in `[0, 1/2)`, and of `-1/8` otherwise. -/
def descend (k : KeyBundle) (t : Fourier) (config : BridgeConfig) (mode : Accuracy)
    (coarse : Lwe 64) : Outcome (Lwe 32) :=
  match config.digits? mode with
  | some digits => k.decompose t config.digitBits digits coarse
  | none => k.direct t coarse

end KeyBundle

end CipherMonitor
