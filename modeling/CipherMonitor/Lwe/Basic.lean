import CipherMonitor.Source.Secret
import CipherMonitor.Torus

/-!
# LWE ciphertexts

A ciphertext of dimension `n` is a body and a mask of `n` words; its phase under a secret is the
body plus the inner product of mask and secret.

* `LweSecret`, `Lwe` — secrets and ciphertexts.
* `Lwe.phase` — what a ciphertext carries under a secret.
* `Lwe.encrypt` — a random mask, with noise added to the message.
* `Lwe.add`, `Lwe.sub`, `Lwe.neg`, `Lwe.addConstant`, `Lwe.shiftLeft` — the linear operations.
* `Lwe.Checked` — the same operations with the dimensions checked.
-/

namespace CipherMonitor

/-- The coefficients of a secret. -/
structure LweSecret where
  coeffs : Array Int
  deriving DecidableEq

/-- The body, followed by the mask; a ciphertext that was never set has no words at all. -/
structure Lwe (w : Nat) where
  words : Array (BitVec w)
  deriving DecidableEq

/-- The dimension of a secret. -/
def LweSecret.dimension (s : LweSecret) : Nat := s.coeffs.size

/-- A secret of a distribution. -/
def LweSecret.generate (n : Nat) (d : SecretDistribution) : Draw LweSecret := do
  let coeffs ← d.generate n
  pure ⟨coeffs⟩

namespace Lwe

variable {w : Nat}

/-- The ciphertext with a given body and mask. -/
def ofParts (body : BitVec w) (mask : List (BitVec w)) : Lwe w := ⟨(body :: mask).toArray⟩

/-- The body, zero when there is none. -/
def body (c : Lwe w) : BitVec w := c.words.getD 0 0

/-- The mask. -/
def mask (c : Lwe w) : List (BitVec w) := c.words.toList.tail

/-- The number of words of the mask. -/
def dimension (c : Lwe w) : Nat := c.words.size - 1

/-- A ciphertext of `m` under every secret, without noise. -/
def trivial (n : Nat) (m : BitVec w) : Lwe w := ofParts m (List.replicate n 0)

/-- The inner product of a mask with integers. -/
def dot (mask : List (BitVec w)) (s : List Int) : BitVec w := (List.zipWith Torus.scale mask s).sum

/-- Body plus inner product. -/
def phase (s : LweSecret) (c : Lwe w) : BitVec w := c.body + dot c.mask s.coeffs.toList

/-- The bit of a phase: true on the half `[0, 1/2)` of the torus. -/
def bit (phase : BitVec w) : Bool := 0 ≤ phase.toInt

/-- Wordwise sum. -/
def add (c d : Lwe w) : Lwe w := ⟨Array.zipWith (· + ·) c.words d.words⟩

/-- Wordwise difference. -/
def sub (c d : Lwe w) : Lwe w := ⟨Array.zipWith (· - ·) c.words d.words⟩

/-- Wordwise opposite. -/
def neg (c : Lwe w) : Lwe w := ⟨c.words.map (- ·)⟩

/-- `c + k * d`. -/
def addScaled (c d : Lwe w) (k : Int) : Lwe w :=
  ⟨Array.zipWith (fun x y => x + Torus.scale y k) c.words d.words⟩

/-- Adds a constant to the phase. -/
def addConstant (c : Lwe w) (m : BitVec w) : Lwe w := ⟨c.words.modify 0 (· + m)⟩

/-- Multiplies the phase by `2 ^ bits`. -/
def shiftLeft (c : Lwe w) (bits : Nat) : Lwe w := ⟨c.words.map (Torus.shiftLeft · bits)⟩

/-- The ciphertext of `m` with a given mask and noise. -/
def ofMask (s : LweSecret) (m e : BitVec w) (mask : List (BitVec w)) : Lwe w :=
  ofParts (m + e - dot mask s.coeffs.toList) mask

/-- Encrypts `m`: the mask is drawn from the first source, the noise from the second. -/
def encrypt (s : LweSecret) (m : BitVec w) (sigma : Float) (xa xe : Source) :
    Outcome (Lwe w × Source × Source) := do
  let (mask, xa) ← (Draw.many s.dimension (Draw.torus w)).run xa
  let d ← noise sigma
  let (e, xe) ← (Torus.noiseWord d w).run xe
  pure (ofMask s m e mask, xa, xe)

@[simp] theorem body_ofParts (b : BitVec w) (m : List (BitVec w)) : (ofParts b m).body = b := rfl

@[simp] theorem mask_ofParts (b : BitVec w) (m : List (BitVec w)) : (ofParts b m).mask = m := rfl

/-! ### Checked operations -/

namespace Checked

/-- The dimension of a ciphertext that was set. -/
def dimension (c : Lwe w) : Outcome Nat := do
  require (0 < c.words.size) .arithmetic
  pure c.dimension

/-- The check that a ciphertext belongs to a secret of dimension `n`. -/
def ofDimension (c : Lwe w) (n : Nat) : Outcome Unit := do
  let own ← dimension c
  require (own = n) .shape

/-- The phase under a secret of the right dimension. -/
def phase (s : LweSecret) (c : Lwe w) : Outcome (BitVec w) := do
  ofDimension c s.dimension
  pure (c.phase s)

/-- The bit under a secret of the right dimension. -/
def decrypt (s : LweSecret) (c : Lwe w) : Outcome Bool := do
  let x ← phase s c
  pure (bit x)

/-- The sum of two ciphertexts of one dimension. -/
def add (c d : Lwe w) : Outcome (Lwe w) := do
  let n ← dimension d
  ofDimension c n
  pure (c.add d)

/-- The difference of two ciphertexts of one dimension. -/
def sub (c d : Lwe w) : Outcome (Lwe w) := do
  let n ← dimension d
  ofDimension c n
  pure (c.sub d)

/-- Adds a constant to the phase of a ciphertext that was set. -/
def addConstant (c : Lwe w) (m : BitVec w) : Outcome (Lwe w) := do
  require (0 < c.words.size) .index
  pure (c.addConstant m)

/-- Body and mask of a ciphertext that was set. -/
def parts (c : Lwe w) : Outcome (BitVec w × List (BitVec w)) := do
  require (0 < c.words.size) .index
  pure (c.body, c.mask)

/-- Encrypts in place of a ciphertext of the right dimension. -/
def encrypt (old : Lwe w) (s : LweSecret) (m : BitVec w) (sigma : Float) (xa xe : Source) :
    Outcome (Lwe w × Source × Source) := do
  ofDimension old s.dimension
  Lwe.encrypt s m sigma xa xe

end Checked

end Lwe

end CipherMonitor
