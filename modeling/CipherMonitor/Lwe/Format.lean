import CipherMonitor.Action
import CipherMonitor.Bytes.Decoder
import CipherMonitor.Lwe.Basic

/-!
# The binary format of LWE ciphertexts

The width of a word in bits, the number of words, then the words, all little-endian.

* `Lwe.toBytes` — the bytes of a ciphertext.
* `Lwe.decode` — reads a ciphertext of a given width.
* `Lwe.receive` — reads a ciphertext into a register, word by word.
-/

namespace CipherMonitor.Lwe

variable {w : Nat}

/-- The largest number of words that is read. -/
def maxWords : Nat := 2 ^ 17 + 1

/-- The bytes of a ciphertext. -/
def toBytes (c : Lwe w) : List UInt8 :=
  Bytes.ofNat 4 w ++ Bytes.ofNat 8 c.words.size ++
    c.words.toList.flatMap fun x => Bytes.ofNat (w / 8) x.toNat

/-- Reads a ciphertext; the width has to be `w`, and the number of words from one to
`maxWords`. -/
def decode (w : Nat) : Decoder (Lwe w) := do
  let width ← Decoder.field 4
  if width ≠ w then Decoder.refuse (.torusWidth width w)
  else
    let count ← Decoder.field 8
    if count = 0 ∨ maxWords < count then Decoder.refuse (.lweLength count)
    else
      let words ← (Decoder.field (w / 8)).many count
      pure ⟨(words.map (BitVec.ofNat w)).toArray⟩

/-! ### Reading into a register -/

/-- Reads `count` words, each of them behind those that were read before. -/
def readWords (w : Nat) : (count : Nat) → Array (BitVec w) → Decoder (Array (BitVec w))
  | 0, words => pure words
  | count + 1, words => do
    let x ← Decoder.field (w / 8)
    readWords w count (words.push (BitVec.ofNat w x))

/-- Reads a ciphertext into a register and gives the bytes that are left.  The register is set after
the last word. -/
def receive (bytes : List UInt8) : Action (Lwe w) (List UInt8) := do
  let (width, bytes) ← Action.ofOutcome (((Decoder.field 4).run bytes).mapError .bytes)
  if width ≠ w then throw (.bytes (.invalidData (.torusWidth width w)))
  let (count, bytes) ← Action.ofOutcome (((Decoder.field 8).run bytes).mapError .bytes)
  if count = 0 ∨ maxWords < count then throw (.bytes (.invalidData (.lweLength count)))
  let (words, bytes) ← Action.ofOutcome (((readWords w count #[]).run bytes).mapError .bytes)
  set (⟨words⟩ : Lwe w)
  pure bytes

end CipherMonitor.Lwe
