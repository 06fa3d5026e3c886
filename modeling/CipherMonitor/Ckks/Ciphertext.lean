import CipherMonitor.Ckks.Plaintext
import CipherMonitor.Source.Secret

/-!
# Ciphertexts of the approximate scheme

A ciphertext is a list of polynomials `c 0, c 1, …` modulo a power of two; its phase under a secret
`s` is `c 0 + c 1 * s + c 2 * s ^ 2 + …`.

* `Ckks.Secret`, `Ckks.Secret.generate` — ternary secrets.
* `Ckks.Ciphertext` — polynomials with their level, modulus and scale.
* `Ckks.Ciphertext.phase` — the phase polynomial.
* `Ckks.encrypt`, `Ckks.Ciphertext.decrypt` — encryption and decryption.
* `Ckks.Parameters.check` — whether a ciphertext belongs to the parameters.
-/

namespace CipherMonitor.Ckks

/-- The coefficients of a secret. -/
structure Secret where
  coeffs : Array Int
  deriving DecidableEq

namespace Secret

/-- The distribution of secrets: two coefficients in three are nonzero. -/
def distribution : SecretDistribution := .ternary (2.0 / 3.0)

/-- A secret for the parameters. -/
def generate (p : Parameters) : Draw Secret := do
  let coeffs ← distribution.generate p.ringDegree
  pure ⟨coeffs⟩

/-- The ring degree. -/
def degree (s : Secret) : Nat := s.coeffs.size

/-- The secret as a polynomial. -/
def toPoly (s : Secret) : Poly Int := ⟨s.coeffs⟩

/-- The square of the secret. -/
def squared (s : Secret) : Poly Int := s.toPoly.mul s.toPoly

end Secret

/-- Polynomials modulo `2 ^ logQ` on a level; the values are multiplied by the scale. -/
structure Ciphertext where
  polys : List (Poly Int)
  level : Nat
  logQ : Nat
  scale : Float
  deriving DecidableEq

namespace Ciphertext

/-- A ciphertext that was never set. -/
def unset : Ciphertext := { polys := [], level := 0, logQ := 0, scale := 0.0 }

/-- Zero polynomials. -/
def zero (n size level logQ : Nat) (scale : Float) : Ciphertext :=
  { polys := List.replicate size (Poly.zero n), level, logQ, scale }

/-- The number of polynomials. -/
def size (c : Ciphertext) : Nat := c.polys.length

/-- The ring degree, zero when there is no polynomial. -/
def degree (c : Ciphertext) : Nat :=
  match c.polys with
  | [] => 0
  | p :: _ => p.size

/-- The value of the polynomials at the secret, from the last one down. -/
def evalAt (s : Secret) (logQ : Nat) : List (Poly Int) → Poly Int
  | [] => ⟨#[]⟩
  | [p] => p
  | p :: q :: ps => p.addMod ((evalAt s logQ (q :: ps)).mulSmallMod s.coeffs logQ) logQ

/-- The phase polynomial. -/
def phase (s : Secret) (c : Ciphertext) : Poly Int := evalAt s c.logQ c.polys

/-- The plaintext of the phase. -/
def decrypt (s : Secret) (c : Ciphertext) : Outcome Plaintext := do
  require (c.polys ≠ []) .index
  require (c.size = 1 ∨ c.degree = s.degree) .shape
  pure { poly := c.phase s, level := c.level, logQ := c.logQ, scale := c.scale }

end Ciphertext

/-- The body `-a * s + e + m` of a mask `a` and noise `e`. -/
def body (s : Secret) (m a e : Poly Int) (logQ : Nat) : Poly Int :=
  ((((a.mulSmallMod s.coeffs logQ).negMod logQ).add e).reduce logQ).addMod m logQ

/-- Integer noise of `n` coefficients. -/
def noisePoly (n : Nat) (sigma : Float) : Draw (Poly Int) := do
  let d ← noise sigma
  (Poly.zero n).addRoundedNoise d

/-- Encrypts a plaintext on its own level: the mask is drawn from the first source, the noise from
the second. -/
def encrypt (p : Parameters) (s : Secret) (t : Plaintext) (xa xe : Source) :
    Outcome (Ciphertext × Source × Source) := do
  require (t.poly.size = s.degree) .shape
  require (p.ringDegree = s.degree) .shape
  let (a, xa) ← (Poly.uniformMod s.degree t.logQ).run xa
  let (e, xe) ← (noisePoly s.degree p.sigma).run xe
  pure
    ({ polys := [body s t.poly a e t.logQ, a], level := t.level, logQ := t.logQ, scale := t.scale },
      xa, xe)

/-- A ciphertext belongs to the parameters when it has their ring degree and sits on one of their
levels with the modulus of that level. -/
def Parameters.check (p : Parameters) (c : Ciphertext) : Outcome Unit := do
  let refuse (flaw : CiphertextFlaw) : Outcome Unit := .error (.ckks (.invalidCiphertext flaw))
  if c.degree ≠ p.ringDegree then refuse (.ringDegree c.degree p.ringDegree)
  else
    let levels ← p.levels
    if levels ≤ c.level then refuse (.level c.level levels)
    else
      let expected ← p.logQ c.level
      if c.logQ ≠ expected then refuse (.modulus c.logQ c.level expected)

end CipherMonitor.Ckks
