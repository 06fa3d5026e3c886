import CipherMonitor.Lwe.Basic
import CipherMonitor.Poly.Torus

/-!
# Ring ciphertexts

A ciphertext is a pair of polynomials `(b, a)`; its phase under a secret polynomial `s` is
`b + a * s`.

* `GlweSecret`, `Glwe` — secrets and ciphertexts.
* `Glwe.phase` — the polynomial that a ciphertext carries under a secret.
* `Glwe.encrypt` — a random mask polynomial, with noise added to the message.
* `Glwe.sampleExtract` — the LWE ciphertext of one coefficient of the phase.
* `Glwe.Checked` — the operations with sizes and indices checked.
-/

namespace CipherMonitor

/-- The coefficients of a secret polynomial. -/
structure GlweSecret where
  coeffs : Array Int
  deriving DecidableEq

/-- The body `b` and the mask `a`. -/
structure Glwe (w : Nat) where
  b : TorusPoly w
  a : TorusPoly w
  deriving DecidableEq

namespace GlweSecret

/-- The ring degree. -/
def degree (s : GlweSecret) : Nat := s.coeffs.size

/-- A secret of a distribution. -/
def generate (n : Nat) (d : SecretDistribution) : Draw GlweSecret := do
  let coeffs ← d.generate n
  pure ⟨coeffs⟩

/-- The secret of extracted LWE ciphertexts: its coefficients are the same. -/
def toLwe (s : GlweSecret) : LweSecret := ⟨s.coeffs⟩

end GlweSecret

namespace Glwe

variable {w : Nat}

/-- The ring degree. -/
def degree (c : Glwe w) : Nat := c.b.size

/-- The zero ciphertext. -/
def zero (n : Nat) : Glwe w := ⟨Poly.zero n, Poly.zero n⟩

/-- A ciphertext of `m` under every secret, without noise. -/
def trivial (m : TorusPoly w) : Glwe w := ⟨m, Poly.zero m.size⟩

/-- A trivial ciphertext of a constant polynomial. -/
def constant (n : Nat) (m : BitVec w) : Glwe w := ⟨Poly.constant n m, Poly.zero n⟩

/-- `b + a * s`. -/
def phase (s : GlweSecret) (c : Glwe w) : TorusPoly w := c.b.add (c.a.mulSmall s.coeffs)

/-- Sum. -/
def add (c d : Glwe w) : Glwe w := ⟨c.b.add d.b, c.a.add d.a⟩

/-- Difference. -/
def sub (c d : Glwe w) : Glwe w := ⟨c.b.sub d.b, c.a.sub d.a⟩

/-- `c + k * d`. -/
def addScaled (c d : Glwe w) (k : Int) : Glwe w :=
  ⟨TorusPoly.addScaled c.b d.b k, TorusPoly.addScaled c.a d.a k⟩

/-- Adds to the constant coefficient of the phase. -/
def addConstant (c : Glwe w) (m : BitVec w) : Glwe w := ⟨c.b.addConstant m, c.a⟩

/-- The product with `X ^ k`. -/
def mulXPow (c : Glwe w) (k : Int) : Glwe w := ⟨c.b.mulXPow k, c.a.mulXPow k⟩

/-- The product with `X ^ k - 1`. -/
def mulXPowSubOne (c : Glwe w) (k : Int) : Glwe w := ⟨c.b.mulXPowSubOne k, c.a.mulXPowSubOne k⟩

/-- The LWE ciphertext whose phase is coefficient `k` of the phase: the mask is read downwards from
`k`, and what wraps around changes its sign. -/
def sampleExtract (c : Glwe w) (k : Nat) : Lwe w :=
  Lwe.ofParts (c.b.coeff k) ((List.range c.degree).map fun j =>
    if j ≤ k then c.a.coeff (k - j) else -c.a.coeff (c.degree + k - j))

/-- The ciphertext of `m` with a given mask and noise. -/
def ofMask (s : GlweSecret) (m : TorusPoly w) (a : TorusPoly w) (e : TorusPoly w) : Glwe w :=
  ⟨((a.mulSmall s.coeffs).neg.add e).add m, a⟩

/-- Encrypts `m`: the mask is drawn from the first source, the noise from the second. -/
def encrypt (s : GlweSecret) (m : TorusPoly w) (sigma : Float) (xa xe : Source) :
    Outcome (Glwe w × Source × Source) := do
  let (a, xa) ← (TorusPoly.uniform w s.degree).run xa
  let d ← noise sigma
  let (e, xe) ← (TorusPoly.addNoise (Poly.zero s.degree) d).run xe
  pure (ofMask s m a e, xa, xe)

/-- Both polynomials have the degree `n`. -/
def OfDegree (n : Nat) (c : Glwe w) : Prop := c.b.size = n ∧ c.a.size = n

theorem ofDegree_add {n : Nat} {c d : Glwe w} (hc : c.OfDegree n) (hd : d.OfDegree n) :
    (c.add d).OfDegree n := by
  simp only [OfDegree, add, Poly.size_add] at *; omega

theorem ofDegree_sub {n : Nat} {c d : Glwe w} (hc : c.OfDegree n) (hd : d.OfDegree n) :
    (c.sub d).OfDegree n := by
  simp only [OfDegree, sub, Poly.size_sub] at *; omega

theorem ofDegree_zero (n : Nat) : (zero n : Glwe w).OfDegree n := by simp [OfDegree, zero]

theorem ofDegree_constant (n : Nat) (m : BitVec w) : (constant n m).OfDegree n := by
  simp [OfDegree, constant]

/-! ### Checked operations -/

namespace Checked

/-- The zero ciphertext of a ring degree. -/
def alloc (w n : Nat) : Outcome (Glwe w) := do
  Poly.degreeOk n
  pure (zero n)

/-- A trivial ciphertext of a polynomial of a ring degree. -/
def trivial (m : TorusPoly w) : Outcome (Glwe w) := do
  Poly.degreeOk m.size
  pure (Glwe.trivial m)

/-- A trivial ciphertext of a constant. -/
def constant (n : Nat) (m : BitVec w) : Outcome (Glwe w) := do
  Poly.degreeOk n
  pure (Glwe.constant n m)

/-- The check that two ciphertexts have the same sizes. -/
def sameSizes (c d : Glwe w) : Outcome Unit := do
  c.b.sameSize d.b
  c.a.sameSize d.a

/-- The sum of two ciphertexts of one degree. -/
def add (c d : Glwe w) : Outcome (Glwe w) := do
  sameSizes c d
  pure (c.add d)

/-- The difference of two ciphertexts of one degree. -/
def sub (c d : Glwe w) : Outcome (Glwe w) := do
  sameSizes c d
  pure (c.sub d)

/-- Adds a constant to the phase of a ciphertext with coefficients. -/
def addConstant (c : Glwe w) (m : BitVec w) : Outcome (Glwe w) := do
  require (0 < c.b.size) .index
  pure (c.addConstant m)

/-- The phase; a mask of fewer coefficients than the body counts as padded with zeros. -/
def phase (s : GlweSecret) (c : Glwe w) : Outcome (TorusPoly w) := do
  Poly.degreeOk c.degree
  require (s.degree = c.a.size) .shape
  require (c.a.size ≤ c.degree ∨ s.coeffs.all (· == 0)) .index
  pure (c.b.add (Poly.ofFn c.degree (c.a.mulSmall s.coeffs).coeff))

/-- The product with `X ^ k`, in a new ciphertext of the degree of the body. -/
def mulXPow (c : Glwe w) (k : Int) : Outcome (Glwe w) := do
  Poly.degreeOk c.degree
  require (0 < c.a.size ∧ c.a.size ≤ c.degree) .index
  pure ⟨c.b.mulXPow k, Poly.ofFn c.degree (c.a.mulXPow k).coeff⟩

/-- The product with `X ^ k - 1`. -/
def mulXPowSubOne (c : Glwe w) (k : Int) : Outcome (Glwe w) := do
  Poly.degreeOk c.degree
  require (c.a.size = c.degree) .shape
  pure (c.mulXPowSubOne k)

/-- Sample extraction at an index below the degree. -/
def sampleExtract (c : Glwe w) (k : Nat) : Outcome (Lwe w) := do
  require (k < c.degree) (.coefficientIndex k c.degree)
  require (c.degree ≤ c.a.size) .index
  pure (c.sampleExtract k)

/-- Encrypts in place of a ciphertext of the degree of the secret. -/
def encrypt (old : Glwe w) (s : GlweSecret) (m : TorusPoly w) (sigma : Float) (xa xe : Source) :
    Outcome (Glwe w × Source × Source) := do
  require (old.b.size = s.degree ∧ old.a.size = s.degree ∧ m.size = s.degree) .shape
  Glwe.encrypt s m sigma xa xe

/-- Encrypts zero in place of a ciphertext. -/
def encryptZero (old : Glwe w) (s : GlweSecret) (sigma : Float) (xa xe : Source) :
    Outcome (Glwe w × Source × Source) := do
  Poly.degreeOk old.degree
  encrypt old s (Poly.zero old.degree) sigma xa xe

end Checked

end Glwe

end CipherMonitor
