import CipherMonitor.Action
import CipherMonitor.Bytes.Decoder
import CipherMonitor.Ckks.Ciphertext

/-!
# The binary format of ciphertexts

Ring degree, number of polynomials and level in eight bytes each, the bits of the modulus in four,
the scale as a bit pattern, the length of the payload, and the payload: all coefficients in fixed
width.

* `Ckks.Ciphertext.toBytes` — the bytes of a ciphertext.
* `Ckks.Ciphertext.decode` — reads a ciphertext; whatever it accepts is well-formed.
* `Ckks.Ciphertext.receive` — reads a ciphertext into a register, with every check on the way.
-/

namespace CipherMonitor.Ckks.Ciphertext

/-- The largest ring degree that is read. -/
def maxRingDegree : Nat := 2 ^ 17

/-- The largest modulus that is read, in bits. -/
def maxLogQ : Nat := 2 ^ 12

/-- The largest number of polynomials that is read. -/
def maxSize : Nat := 3

/-- The coefficients of all polynomials. -/
def payload (c : Ciphertext) : List UInt8 := c.polys.flatMap fun p => p.toBytes c.logQ

/-- The bytes of a ciphertext. -/
def toBytes (c : Ciphertext) : List UInt8 :=
  Bytes.ofNat 8 c.degree ++ Bytes.ofNat 8 c.size ++ Bytes.ofNat 8 c.level ++ Bytes.ofNat 4 c.logQ ++
    Bytes.ofNat 8 c.scale.toBits.toNat ++ Bytes.ofNat 8 c.payload.length ++ c.payload

/-- The fields in front of the payload. -/
structure Header where
  degree : Nat
  size : Nat
  level : Nat
  logQ : Nat
  scale : Float
  payload : Nat

/-- Reads the fields in front of the payload. -/
def decodeHeader : Decoder Header := do
  let degree ← Decoder.field 8
  let size ← Decoder.field 8
  let level ← Decoder.field 8
  let logQ ← Decoder.field 4
  let scale ← Decoder.field 8
  let payload ← Decoder.field 8
  pure { degree, size, level, logQ, scale := Float.ofBits (UInt64.ofNat scale), payload }

/-- The bytes of a polynomial. -/
def Header.polyBytes (h : Header) : Nat := h.degree * coeffBytes h.logQ

/-- What is wrong with the fields other than the length of the payload, if anything. -/
def Header.fieldFlaw? (h : Header) : Option FormatFlaw :=
  if ¬ h.degree.isPowerOfTwo ∨ maxRingDegree < h.degree then some (.ringDegree h.degree)
  else if h.size = 0 ∨ maxSize < h.size then some (.size h.size)
  else if h.logQ = 0 ∨ maxLogQ < h.logQ ∨ h.logQ ≤ h.level then some (.level h.level h.logQ)
  else if ¬ (h.scale.isFinite ∧ h.scale > 0.0) then some (.scale h.scale)
  else none

/-- What is wrong with the fields, if anything. -/
def Header.flaw? (h : Header) : Option FormatFlaw :=
  match h.fieldFlaw? with
  | some flaw => some flaw
  | none =>
    if h.payload ≠ h.polyBytes * h.size then some (.payload h.payload h.size h.polyBytes) else none

/-- The first `count` pieces of a payload as polynomials. -/
def Header.polys (h : Header) : (count : Nat) → List UInt8 → List (Poly Int)
  | 0, _ => []
  | count + 1, bytes =>
    ⟨(Poly.coeffsOfBytes (coeffBytes h.logQ) h.logQ h.degree bytes).toArray⟩ ::
      h.polys count (bytes.drop h.polyBytes)

/-- Reads a ciphertext. -/
def decode : Decoder Ciphertext := do
  let h ← decodeHeader
  match h.flaw? with
  | some flaw => Decoder.refuse flaw
  | none =>
    let bytes ← Decoder.upTo h.payload
    if bytes.length ≠ h.payload then throw (.shortPayload bytes.length h.payload)
    else pure { polys := h.polys h.size bytes, level := h.level, logQ := h.logQ, scale := h.scale }

/-! ### Reading into a register -/

/-- Refuses the data. -/
def refuse {α : Type} (flaw : FormatFlaw) : Outcome α := .error (.bytes (.invalidData flaw))

/-- A product of machine integers, unless it is too large for one. -/
def productOr (flaw : FormatFlaw) (m n : Nat) : Outcome Nat :=
  if m * n < 2 ^ 64 then .ok (m * n) else refuse flaw

/-- The number of bytes of a polynomial, after all checks of the fields. -/
def Header.check (h : Header) : Outcome Nat :=
  match h.fieldFlaw? with
  | some flaw => refuse flaw
  | none => do
    let polyBytes ← productOr .polynomialOverflow h.degree (coeffBytes h.logQ)
    let expected ← productOr .payloadOverflow polyBytes h.size
    if h.payload ≠ expected then refuse (.payload h.payload h.size polyBytes) else pure polyBytes

/-- The first `count` pieces of `width` bytes. -/
def pieces (width : Nat) : (count : Nat) → List UInt8 → List (List UInt8)
  | 0, _ => []
  | count + 1, bytes => bytes.take width :: pieces width count (bytes.drop width)

/-- The pieces of `width` bytes that a byte string can be cut into. -/
def cut (width : Nat) (bytes : List UInt8) : Outcome (List (List UInt8)) := do
  require (0 < width) .shape
  pure (pieces width (bytes.length / width) bytes)

/-- The polynomial in a piece of the payload. -/
def Header.polyOf (h : Header) (piece : List UInt8) : Outcome (Poly Int) := do
  match ← Poly.Checked.ofBytes h.degree h.logQ piece with
  | some p => pure p
  | none => refuse .polynomial

/-- Reads a ciphertext into a register and gives the bytes that are left.  The fields of the register
are set one after the other, when nothing can fail any more. -/
def receive (bytes : List UInt8) : Action Ciphertext (List UInt8) := do
  let (h, bytes) ← Action.ofOutcome ((decodeHeader.run bytes).mapError .bytes)
  let polyBytes ← Action.ofOutcome h.check
  let payload := bytes.take h.payload
  if payload.length ≠ h.payload then throw (.bytes (.shortPayload payload.length h.payload))
  let pieces ← Action.ofOutcome (cut polyBytes payload)
  let polys ← Action.ofOutcome (pieces.mapM h.polyOf)
  modify fun c => { c with polys }
  modify fun c => { c with level := h.level }
  modify fun c => { c with logQ := h.logQ }
  modify fun c => { c with scale := h.scale }
  pure (bytes.drop h.payload)

end CipherMonitor.Ckks.Ciphertext
