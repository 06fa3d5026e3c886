import CipherMonitor.Fault

/-!
# Configuration of the bridge between the schemes

A ciphertext that leaves the approximate scheme descends through three levels of the boolean one.

* `Level` — the levels, in the order of the descent.
* `Accuracy` — how the sign is extracted on the way down.
* `BridgeConfig`, `BridgeConfig.validate` — the digits of the descent, and when they fit a word.
-/

namespace CipherMonitor

/-- Where a ciphertext of the boolean scheme is in the descent. -/
inductive Level
  /-- Words of 64 bits, under the secret of the approximate scheme. -/
  | coarse
  /-- Words of 32 bits, under the ring secret of the monitor. -/
  | mid
  /-- Words of 32 bits and a small dimension, the input of bootstrapping. -/
  | fine
  deriving DecidableEq, Repr, Ord

namespace Level

/-- The level below. -/
def next? : Level → Option Level
  | .coarse => some .mid
  | .mid => some .fine
  | .fine => none

/-- The width of the words of a level. -/
def wordBits : Level → Nat
  | .coarse => 64
  | .mid | .fine => 32

end Level

/-- How precisely the sign of a coarse ciphertext is extracted. -/
inductive Accuracy
  /-- From many digits. -/
  | high
  /-- From few digits. -/
  | low
  /-- From the word itself, with a single sign bootstrap. -/
  | direct
  deriving DecidableEq, Repr

/-- The accuracy in use, the bits of a digit, and the number of digits for each accuracy that has
them. -/
structure BridgeConfig where
  mode : Accuracy := .high
  digitBits : Nat := 4
  highDigits : Nat := 8
  lowDigits : Nat := 3
  deriving DecidableEq, Repr

namespace BridgeConfig

/-- The number of digits of an accuracy. -/
def digits? (c : BridgeConfig) : Accuracy → Option Nat
  | .high => some c.highDigits
  | .low => some c.lowDigits
  | .direct => none

/-- There are digits, and they fit a mid word.  The count is taken modulo `2 ^ 32` for the second
condition, and the product has to be below `2 ^ 32`. -/
def validateDigits (c : BridgeConfig) (count : Nat) : Outcome Unit := do
  let refuse : Outcome Unit := .error (.monitor (.invalidConfig (.digits count c.digitBits)))
  if count = 0 then refuse
  else
    let bits := count % 2 ^ 32 * c.digitBits
    require (bits < 2 ^ 32) .arithmetic
    if Level.mid.wordBits < bits then refuse else pure ()

/-- A digit has at least one bit and leaves two of a mid word, and both counts of digits fit. -/
def validate (c : BridgeConfig) : Outcome Unit := do
  let refuse : Outcome Unit := .error (.monitor (.invalidConfig (.digitBits c.digitBits)))
  if c.digitBits = 0 then refuse
  else
    require (c.digitBits + 2 < 2 ^ 32) .arithmetic
    if Level.mid.wordBits < c.digitBits + 2 then refuse
    else
      c.validateDigits c.highDigits
      c.validateDigits c.lowDigits

end BridgeConfig

end CipherMonitor
