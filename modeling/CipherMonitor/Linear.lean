import CipherMonitor.Action
import CipherMonitor.Glwe.Basic

/-!
# Programs of linear operations

A program works on numbered registers that hold ciphertexts of one scheme; the result of an
instruction is stored when the instruction succeeds.

* `Linear.Instruction` — an operation with the registers that it reads and writes.
* `Linear.Machine`, `Linear.Machine.step` — what the operations do, and an instruction.
* `Lwe.Unary`, `Lwe.Binary`, `Lwe.machine` — operations on LWE ciphertexts.
* `Glwe.Unary`, `Glwe.Binary`, `Glwe.machine` — operations on ring ciphertexts.
-/

namespace CipherMonitor

namespace Linear

/-- Instructions over some unary and binary operations; the register that is written comes first. -/
inductive Instruction (U B : Type)
  | unary (operation : U) (target a : Nat)
  | binary (operation : B) (target a b : Nat)
  deriving DecidableEq

/-- The register `target` is changed to `x`. -/
def assign {α : Type} (r : Nat → α) (target : Nat) (x : α) : Nat → α :=
  fun i => if i = target then x else r i

/-- What the operations do with the contents of registers. -/
structure Machine (U B α : Type) where
  unary : U → α → Outcome α
  binary : B → α → α → Outcome α

/-- Performs an instruction. -/
def Machine.step {U B α : Type} (machine : Machine U B α) :
    Instruction U B → Action (Nat → α) Unit
  | .unary operation target a =>
    Action.store (fun r => machine.unary operation (r a)) fun r x => assign r target x
  | .binary operation target a b =>
    Action.store (fun r => machine.binary operation (r a) (r b)) fun r x => assign r target x

end Linear

namespace Lwe

/-- Operations on an LWE ciphertext over words of `w` bits. -/
inductive Unary (w : Nat)
  | negate
  | addConstant (m : BitVec w)
  | shiftLeft (bits : Nat)
  deriving DecidableEq

/-- Operations on two LWE ciphertexts. -/
inductive Binary
  | add
  | sub
  deriving DecidableEq

/-- The linear operations. -/
def machine (w : Nat) : Linear.Machine (Unary w) Binary (Lwe w) where
  unary
    | .negate, c => pure c.neg
    | .addConstant m, c => Checked.addConstant c m
    | .shiftLeft bits, c => pure (c.shiftLeft bits)
  binary
    | .add, c, d => Checked.add c d
    | .sub, c, d => Checked.sub c d

end Lwe

namespace Glwe

/-- Operations on a ring ciphertext over words of `w` bits. -/
inductive Unary (w : Nat)
  | addConstant (m : BitVec w)
  | mulXPow (k : Int)
  | mulXPowSubOne (k : Int)
  deriving DecidableEq

/-- Operations on two ring ciphertexts. -/
inductive Binary
  | add
  | sub
  | addScaled (factor : Int)
  deriving DecidableEq

/-- The linear operations. -/
def machine (w : Nat) : Linear.Machine (Unary w) Binary (Glwe w) where
  unary
    | .addConstant m, c => Checked.addConstant c m
    | .mulXPow k, c => Checked.mulXPow c k
    | .mulXPowSubOne k, c => Checked.mulXPowSubOne c k
  binary
    | .add, c, d => Checked.add c d
    | .sub, c, d => Checked.sub c d
    | .addScaled factor, c, d => pure (c.addScaled d factor)

end Glwe

end CipherMonitor
