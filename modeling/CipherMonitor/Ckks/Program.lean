import CipherMonitor.Action
import CipherMonitor.Ckks.Arithmetic
import CipherMonitor.Ckks.Relinearization

/-!
# Programs on ciphertexts

A program works on numbered registers.  It encodes numbers, encrypts plaintexts and computes with
ciphertexts, in any order; the result of an instruction is stored when the instruction succeeds.

* `Ckks.Unary`, `Ckks.Binary`, `Ckks.Mixed` — operations on a ciphertext, on two ciphertexts, and on
  a ciphertext and a plaintext.
* `Ckks.Instruction` — an operation with the registers that it reads and writes.
* `Ckks.Session`, `Ckks.Registers` — the parameters with their secrets and keys, and the registers
  with the sources of randomness.
* `Ckks.Session.step` — performs an instruction.
-/

namespace CipherMonitor.Ckks

/-- Operations on a ciphertext. -/
inductive Unary
  | negate
  | square
  | relinearize (key : Nat)
  | rescale
  | modSwitchNext
  | modSwitch (level : Nat)
  | normalize
  deriving DecidableEq

/-- Operations on two ciphertexts. -/
inductive Binary
  | add
  | sub
  | multiply
  deriving DecidableEq

/-- Operations on a ciphertext and a plaintext. -/
inductive Mixed
  | add
  | sub
  | multiply
  deriving DecidableEq

/-- Instructions; the register that is written comes first. -/
inductive Instruction
  | encode (target : Nat) (value : Float) (level : Nat) (scale : Float)
  | encrypt (target plain secret : Nat)
  | unary (operation : Unary) (target a : Nat)
  | binary (operation : Binary) (target a b : Nat)
  | mixed (operation : Mixed) (target a plain : Nat)
  deriving DecidableEq

/-- Parameters with numbered secrets and relinearization keys. -/
structure Session where
  params : Parameters
  secret : Nat → Secret
  key : Nat → RelinearizationKey

/-- The registers, and the sources that masks and noise are drawn from. -/
structure Registers where
  plain : Nat → Plaintext
  cipher : Nat → Ciphertext
  mask : Source
  noise : Source

namespace Registers

/-- The registers with another plaintext. -/
def setPlain (r : Registers) (target : Nat) (t : Plaintext) : Registers :=
  { r with plain := fun i => if i = target then t else r.plain i }

/-- The registers with another ciphertext. -/
def setCipher (r : Registers) (target : Nat) (c : Ciphertext) : Registers :=
  { r with cipher := fun i => if i = target then c else r.cipher i }

end Registers

/-- Performs an operation on a ciphertext. -/
def Unary.apply (e : Session) (a : Ciphertext) : Unary → Outcome Ciphertext
  | negate => pure a.negate
  | square => a.square
  | relinearize key => a.relinearize (e.key key)
  | rescale => a.rescale e.params
  | modSwitchNext => a.modSwitchNext e.params
  | modSwitch level => a.modSwitch e.params level
  | normalize => a.normalize e.params

/-- Performs an operation on two ciphertexts. -/
def Binary.apply (a b : Ciphertext) : Binary → Outcome Ciphertext
  | add => a.add b
  | sub => a.sub b
  | multiply => a.multiply b

/-- Performs an operation on a ciphertext and a plaintext. -/
def Mixed.apply (a : Ciphertext) (t : Plaintext) : Mixed → Outcome Ciphertext
  | add => a.addPlain t
  | sub => a.subPlain t
  | multiply => a.multiplyPlain t

/-- Performs an instruction. -/
def Session.step (e : Session) : Instruction → Action Registers Unit
  | .encode target value level scale =>
    Action.store (fun _ => Ckks.encode e.params value level scale) fun r t => r.setPlain target t
  | .encrypt target plain secret =>
    Action.store
      (fun r => Ckks.encrypt e.params (e.secret secret) (r.plain plain) r.mask r.noise)
      fun r (c, mask, noise) => { r.setCipher target c with mask, noise }
  | .unary operation target a =>
    Action.store (fun r => operation.apply e (r.cipher a)) fun r c => r.setCipher target c
  | .binary operation target a b =>
    Action.store (fun r => operation.apply (r.cipher a) (r.cipher b))
      fun r c => r.setCipher target c
  | .mixed operation target a plain =>
    Action.store (fun r => operation.apply (r.cipher a) (r.plain plain))
      fun r c => r.setCipher target c

end CipherMonitor.Ckks
