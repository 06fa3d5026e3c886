import CipherMonitor.Bytes.LittleEndian
import CipherMonitor.Fault

/-!
# Reading binary fields

A decoder takes what it needs from the front of a byte string and leaves the rest.

* `Decoder` — the type of decoders.
* `Decoder.field` — a little-endian number of fixed width.
* `Decoder.many` — a decoder run a number of times.
-/

namespace CipherMonitor

/-- A function that reads a value from the front of a byte string and returns the bytes after it. -/
abbrev Decoder (α : Type) := StateT (List UInt8) (Except ByteError) α

namespace Decoder

/-- A little-endian number of `width` bytes. -/
def field (width : Nat) : Decoder Nat := fun bytes =>
  if bytes.length < width then .error .shortField
  else .ok (Bytes.toNat (bytes.take width), bytes.drop width)

/-- At most `length` bytes, as many as there are. -/
def upTo (length : Nat) : Decoder (List UInt8) := fun bytes =>
  .ok (bytes.take length, bytes.drop length)

/-- Refuses the data. -/
def refuse {α : Type} (flaw : FormatFlaw) : Decoder α := fun _ => .error (.invalidData flaw)

/-- Runs a decoder `n` times. -/
def many {α : Type} (d : Decoder α) : (n : Nat) → Decoder (List α)
  | 0 => pure []
  | n + 1 => do
    let x ← d
    let xs ← many d n
    pure (x :: xs)

/-- A field is read back from its bytes. -/
theorem field_ofNat {width n : Nat} (h : n < 256 ^ width) (rest : List UInt8) :
    (field width).run (Bytes.ofNat width n ++ rest) = .ok (n, rest) := by
  have hlen := Bytes.length_ofNat width n
  simp [field, StateT.run, hlen, Bytes.toNat_ofNat_of_lt h]

end Decoder

end CipherMonitor
