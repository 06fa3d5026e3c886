import CipherMonitor.Ggsw

/-!
# Blind rotation

A test polynomial is rotated by the phase of an LWE ciphertext without decrypting it: the key holds
a gadget ciphertext of every coefficient of the LWE secret, and each of them decides whether the
rotation by its word takes place.

* `BlindRotationKey`, `BlindRotationKey.generate` — the key.
* `BlindRotationKey.rotate` — a ring ciphertext of about `X ^ (-phase) * test`.
* `BlindRotationKey.gate` — a fresh LWE ciphertext of `mu` or `-mu` by the sign of the phase.
-/

namespace CipherMonitor

/-- Gadget ciphertexts of the coefficients of an LWE secret, under a ring secret of a degree. -/
structure BlindRotationKey where
  keys : List PreparedGgsw
  degree : Nat

namespace BlindRotationKey

/-- The dimension of the ciphertexts that can be rotated by. -/
def dimension (k : BlindRotationKey) : Nat := k.keys.length

/-- The test polynomial of the sign: every coefficient is `mu`. -/
def constantTest (n : Nat) (mu : BitVec 32) : TorusPoly 32 := Poly.replicate n mu

/-- Prepared encryptions of the given integers. -/
def encryptAll (t : Fourier) (s : GlweSecret) (g : Gadget) (sigma : Float) :
    List Int → Source → Source → Outcome (List PreparedGgsw × Source × Source)
  | [], xa, xe => pure ([], xa, xe)
  | m :: ms, xa, xe => do
    let (c, xa, xe) ← Ggsw.encrypt m s g sigma xa xe
    let (cs, xa, xe) ← encryptAll t s g sigma ms xa xe
    pure (c.prepare t :: cs, xa, xe)

/-- The key from an LWE secret to a ring secret of the degree of the tables. -/
def generate (t : Fourier) (sIn : LweSecret) (sOut : GlweSecret) (g : Gadget) (sigma : Float)
    (xa xe : Source) : Outcome (BlindRotationKey × Source × Source) := do
  require (t.n = sOut.degree) .shape
  let (keys, xa, xe) ← encryptAll t sOut g sigma sIn.coeffs.toList xa xe
  pure (⟨keys, sOut.degree⟩, xa, xe)

/-- One step: `acc + key ⊡ ((X ^ (-r) - 1) * acc)`, which rotates by `r` when the key holds a one. -/
def step (t : Fourier) (acc : Glwe 32) (r : Nat) (key : PreparedGgsw) : Glwe 32 :=
  if r = 0 then acc else acc.add (key.externalProduct t (acc.mulXPowSubOne (-(r : Int))))

/-- Rotates the test polynomial by the body and then, key by key, by the words of the mask. -/
def accumulate (t : Fourier) (k : BlindRotationKey) (body : Nat) (mask : List Nat)
    (test : TorusPoly 32) : Glwe 32 :=
  (mask.zip k.keys).foldl (fun acc (r, key) => step t acc r key)
    (Glwe.trivial (test.mulXPow (-(body : Int))))

/-- The word as a number of rotation steps modulo `2 * degree`. -/
def steps (k : BlindRotationKey) (x : BitVec 32) : Outcome Nat := Torus.modSwitch x (2 * k.degree)

/-- A ring ciphertext of about `X ^ (-phase) * test`, the phase being rounded to a multiple of
`1 / (2 * degree)`. -/
def rotate (t : Fourier) (k : BlindRotationKey) (c : Lwe 32) (test : TorusPoly 32) :
    Outcome (Glwe 32) := do
  Lwe.Checked.ofDimension c k.dimension
  require (test.size = k.degree) .shape
  let body ← k.steps c.body
  let mask ← c.mask.mapM k.steps
  (mask.zip k.keys).forM fun (r, key) =>
    if r = 0 then pure () else key.fits t (Glwe.zero k.degree)
  pure (k.accumulate t body mask test)

/-- Blind rotation, and the constant coefficient of the result. -/
def bootstrap (t : Fourier) (k : BlindRotationKey) (c : Lwe 32) (test : TorusPoly 32) :
    Outcome (Lwe 32) := do
  let r ← k.rotate t c test
  pure (r.sampleExtract 0)

/-- A ciphertext of `mu` when the phase is in `[0, 1/2)`, and of `-mu` otherwise. -/
def gate (t : Fourier) (k : BlindRotationKey) (c : Lwe 32) (mu : BitVec 32) : Outcome (Lwe 32) :=
  k.bootstrap t c (constantTest k.degree mu)

end BlindRotationKey

end CipherMonitor
