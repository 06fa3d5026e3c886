import CipherMonitor.Ckks.Ciphertext

/-!
# Relinearization

A product of two ciphertexts has three polynomials.  The third one is split into digits, and each
digit is multiplied with an encryption of its weight times the square of the secret under a larger
modulus; dividing by the special modulus brings the sum back.

* `Ckks.RelinearizationKey`, `generate` — the encryptions of the square of the secret.
* `Ckks.RelinearizationKey.accumulate` — the sum of digit times row, in both polynomials.
* `Ckks.Ciphertext.relinearize` — from three polynomials to two.
-/

namespace CipherMonitor.Ckks

/-- Row `i` is a pair `(b, a)` of phase `2 ^ (logSpecial * (i + 1)) * s ^ 2` modulo `2 ^ logPQ`. -/
structure RelinearizationKey where
  rows : List (Poly Int × Poly Int)
  logSpecial : Nat
  logPQ : Nat
  deriving DecidableEq

/-- The number of digits of `bits` bits each that cover `total` bits. -/
def digitCount (total bits : Nat) : Nat := (total + bits - 1) / bits

namespace RelinearizationKey

/-- The message of row `i`, zero once its weight is a multiple of the modulus. -/
def rowMessage (square : Poly Int) (logSpecial logPQ i : Nat) : Poly Int :=
  let shift := logSpecial * (i + 1)
  if shift < logPQ then square.scaleMod (2 ^ shift) logPQ else Poly.zero square.size

/-- Encrypts the messages of the given rows, from two running sources. -/
def encryptRows (s : Secret) (sigma : Float) (logPQ : Nat) : List (Poly Int) → Source → Source →
    Outcome (List (Poly Int × Poly Int) × Source × Source)
  | [], xa, xe => pure ([], xa, xe)
  | m :: ms, xa, xe => do
    let (a, xa) ← (Poly.uniformMod s.degree logPQ).run xa
    let (e, xe) ← (noisePoly s.degree sigma).run xe
    let (rows, xa, xe) ← encryptRows s sigma logPQ ms xa xe
    pure ((body s m a e logPQ, a) :: rows, xa, xe)

/-- The key for the top level of the parameters. -/
def generate (p : Parameters) (s : Secret) (xa xe : Source) :
    Outcome (RelinearizationKey × Source × Source) := do
  let logSpecial ← p.logSpecial
  let logPQ ← p.logPQ
  let top ← p.topLevel
  let logTop ← p.logQ top
  require (0 < logSpecial) .arithmetic
  let count := digitCount logTop logSpecial
  require (count = 0 ∨ p.ringDegree = s.degree) .shape
  let square := s.squared.reduce logPQ
  let messages := (List.range count).map (rowMessage square logSpecial logPQ)
  let (rows, xa, xe) ← encryptRows s p.sigma logPQ messages xa xe
  pure (⟨rows, logSpecial, logPQ⟩, xa, xe)

/-- Digit `i` of every coefficient. -/
def digit (k : RelinearizationKey) (c : Poly Int) (i : Nat) : Poly Int :=
  c.map fun x => keepBits (x / 2 ^ (k.logSpecial * i)) k.logSpecial

/-- The sum of the digits of `c` times the rows, for the bodies and for the masks, modulo
`2 ^ logExt`. -/
def accumulate (k : RelinearizationKey) (c : Poly Int) (digits logExt : Nat) :
    Poly Int × Poly Int :=
  ((List.range digits).zip k.rows).foldl
    (fun (b, a) (i, row) =>
      let d := k.digit c i
      (b.addMod (d.mulMod (row.1.reduce logExt) logExt) logExt,
        a.addMod (d.mulMod (row.2.reduce logExt) logExt) logExt))
    (Poly.zero c.size, Poly.zero c.size)

end RelinearizationKey

namespace Ciphertext

/-- The ciphertext of two polynomials with the phase of `c0 + c1 * s + c2 * s ^ 2`, up to rounding
and the noise of the key. -/
def relinearized (c : Ciphertext) (k : RelinearizationKey) (c0 c1 c2 : Poly Int) : Ciphertext :=
  let (b, a) := k.accumulate c2 (digitCount c.logQ k.logSpecial) (c.logQ + k.logSpecial)
  { polys :=
      [c0.addMod (b.divRoundMod k.logSpecial c.logQ) c.logQ,
        c1.addMod (a.divRoundMod k.logSpecial c.logQ) c.logQ]
    level := c.level
    logQ := c.logQ
    scale := c.scale }

/-- Brings a ciphertext of three polynomials back to two. -/
def relinearize (c : Ciphertext) (k : RelinearizationKey) : Outcome Ciphertext :=
  match c.polys with
  | [c0, c1, c2] => do
    require (c.logQ + k.logSpecial < 2 ^ 32) .arithmetic
    require (0 < k.logSpecial) .arithmetic
    let digits := digitCount c.logQ k.logSpecial
    if k.rows.length < digits ∨ k.logPQ < c.logQ + k.logSpecial then
      throw (.ckks (.invalidParameters (.keyRows k.rows.length c.logQ)))
    else
      require ((k.rows.take digits).all fun row => row.1.size = c2.size) .shape
      pure (c.relinearized k c0 c1 c2)
  | polys => .error (.ckks (.notRelinearizable polys.length))

end Ciphertext

end CipherMonitor.Ckks
