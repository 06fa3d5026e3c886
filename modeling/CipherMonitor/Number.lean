/-!
# Powers and zeros of numbers

The powers and zeros that definitions use are those of the core library, also where another library
offers its own for the same types, so that a definition is the same term wherever it is read.

* `Zero` of naturals, integers and words — their literal `0`.
* Powers with natural exponents — repeated multiplication as the core library defines it.
-/

namespace CipherMonitor

attribute [instance (high), default_instance (high + 1)] instPowNat

/-- The zero of the naturals. -/
instance (priority := high) zeroNat : Zero Nat := ⟨0⟩

/-- The zero of the integers. -/
instance (priority := high) zeroInt : Zero Int := ⟨0⟩

/-- The zero of the words of `w` bits. -/
instance (priority := high) zeroWord {w : Nat} : Zero (BitVec w) := ⟨0⟩

end CipherMonitor
