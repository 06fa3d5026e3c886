import CipherMonitor.Bytes.LittleEndian
import CipherMonitor.Ckks.Format
import CipherMonitor.Lwe.Format
import CipherMonitor.Stream.Device

/-!
# Streams of records

A record is a payload behind its length in four bytes.  Input streams carry ciphertexts of the
approximate scheme, output streams carry verdicts.

* `Record.frame`, `Record.write` — the bytes of a record.
* `Record.read` — the next record, if the stream has not ended before it.
* `Record.readCiphertext`, `Record.readSample` — the records of input streams.
* `Record.writeCiphertext`, `Record.writeVerdict` — records of ciphertexts.
-/

namespace CipherMonitor.Record

/-- The width of the length in front of a payload. -/
def headerBytes : Nat := 4

/-- The bytes of a record. -/
def frame (payload : List UInt8) : List UInt8 := Bytes.ofNat headerBytes payload.length ++ payload

/-- Takes `n` bytes off the input, all of them. -/
def takeAll (n : Nat) : Action ByteInput (List UInt8) := do
  let bytes ← ByteInput.take n
  if bytes.length < n then throw (.stream (.truncated n bytes.length)) else pure bytes

/-- The payload of the next record; `none` when the input ends in front of it. -/
def read : Action ByteInput (Option (List UInt8)) := do
  let header ← ByteInput.take headerBytes
  if header = [] then pure none
  else if header.length < headerBytes then
    throw (.stream (.truncated headerBytes header.length))
  else
    let payload ← takeAll (Bytes.toNat header)
    pure (some payload)

/-- The ciphertext that fills a payload. -/
def ciphertextOf (payload : List UInt8) : Outcome Ckks.Ciphertext :=
  match Ckks.Ciphertext.decode.run payload with
  | .error e => .error (.stream (.malformed (.payload e)))
  | .ok (c, []) => .ok c
  | .ok (_, rest) => .error (.stream (.malformed (.trailing rest.length)))

/-- The ciphertext of the next record. -/
def readCiphertext : Action ByteInput (Option Ckks.Ciphertext) := do
  match ← read with
  | none => pure none
  | some payload =>
    let c ← Action.ofOutcome (ciphertextOf payload)
    pure (some c)

/-- The rest of a sample of `size` ciphertexts, of which `missing` are to come. -/
def readMissing (size : Nat) : (missing : Nat) → List Ckks.Ciphertext →
    Action ByteInput (Option (List Ckks.Ciphertext))
  | 0, found => pure (some found)
  | missing + 1, found => do
    match ← readCiphertext with
    | some c => readMissing size missing (found ++ [c])
    | none =>
      if found.isEmpty then pure none else throw (.stream (.truncated size found.length))

/-- The bytes of a ciphertext in a list: where its polynomials are, level, modulus and scale. -/
def entryBytes : Nat := 48

/-- The next `size` ciphertexts; the input may end in front of them but not between them.  Room for all
of them is asked for first. -/
def readSample (size : Nat) : Action ByteInput (Option (List Ckks.Ciphertext)) := do
  Action.ofOutcome (reserve size entryBytes)
  readMissing size size []

/-- Appends a record to the output. -/
def write (payload : List UInt8) : Action ByteOutput Unit := do
  if 256 ^ headerBytes ≤ payload.length then
    throw (.stream (.malformed (.tooLong payload.length)))
  else
    ByteOutput.put (Bytes.ofNat headerBytes payload.length)
    ByteOutput.put payload

/-- Appends a ciphertext to the output. -/
def writeCiphertext (c : Ckks.Ciphertext) : Action ByteOutput Unit := write c.toBytes

/-- Appends a verdict to the output. -/
def writeVerdict (c : Lwe 32) : Action ByteOutput Unit := write c.toBytes

end CipherMonitor.Record
