import CipherMonitor.Gadget
import CipherMonitor.Lwe.Basic

/-!
# LWE key switching

A switching key takes ciphertexts under one secret to ciphertexts under another: for every
coefficient of the first secret and every digit weight it holds an encryption of their product, and
the mask is replaced by the combination of these with the digits of its words.

* `LweSwitchingKey` — the encryptions, one row per coefficient of the input secret.
* `LweSwitchingKey.generate` — the key between two secrets.
* `LweSwitchingKey.switch` — key switching.
-/

namespace CipherMonitor

/-- Row `j` holds encryptions of `s[j] * weight i` for every digit `i`, under the output secret of
dimension `nOut`. -/
structure LweSwitchingKey (w : Nat) where
  rows : List (List (Lwe w))
  gadget : Gadget
  nOut : Nat
  deriving DecidableEq

namespace LweSwitchingKey

variable {w v : Nat}

/-- The dimension of the input secret. -/
def nIn (k : LweSwitchingKey w) : Nat := k.rows.length

/-- Encrypts the messages in order, from two running sources. -/
def encryptAll (s : LweSecret) (sigma : Float) : List (BitVec w) → Source → Source →
    Outcome (List (Lwe w) × Source × Source)
  | [], xa, xe => pure ([], xa, xe)
  | m :: ms, xa, xe => do
    let (c, xa, xe) ← Lwe.encrypt s m sigma xa xe
    let (cs, xa, xe) ← encryptAll s sigma ms xa xe
    pure (c :: cs, xa, xe)

/-- The messages of the row of a secret coefficient. -/
def rowMessages (w : Nat) (g : Gadget) (s : Int) : List (BitVec w) :=
  (List.range g.rows).map fun i => Torus.scale (g.weight w i) s

/-- The rows of the given secret coefficients. -/
def encryptRows (g : Gadget) (sOut : LweSecret) (sigma : Float) : List Int → Source → Source →
    Outcome (List (List (Lwe w)) × Source × Source)
  | [], xa, xe => pure ([], xa, xe)
  | s :: ss, xa, xe => do
    let (row, xa, xe) ← encryptAll sOut sigma (rowMessages w g s) xa xe
    let (rows, xa, xe) ← encryptRows g sOut sigma ss xa xe
    pure (row :: rows, xa, xe)

/-- The key from `sIn` to `sOut`. -/
def generate (w : Nat) (sIn sOut : LweSecret) (g : Gadget) (sigma : Float) (xa xe : Source) :
    Outcome (LweSwitchingKey w × Source × Source) := do
  let (rows, xa, xe) ← encryptRows g sOut sigma sIn.coeffs.toList xa xe
  pure (⟨rows, g, sOut.dimension⟩, xa, xe)

/-- Adds the multiples of the ciphertexts of a row by the digits. -/
def addRow (sum : Lwe w) (digits : List Int) (row : List (Lwe w)) : Lwe w :=
  (digits.zip row).foldl (fun sum (d, c) => if d = 0 then sum else sum.addScaled c d) sum

/-- The body is rounded to the output width, and every word of the mask is replaced by the
combination of its row with its digits. -/
def switch (k : LweSwitchingKey w) (c : Lwe v) : Lwe w :=
  (c.mask.zip k.rows).foldl (fun sum (a, row) => addRow sum (k.gadget.signedDigits a) row)
    (Lwe.trivial k.nOut (Torus.ofWide w (Torus.toWide c.body)))

/-- Key switching of a ciphertext of the right dimension. -/
def switchChecked (k : LweSwitchingKey w) (c : Lwe v) : Outcome (Lwe w) := do
  Lwe.Checked.ofDimension c k.nIn
  require (k.nIn = 0 ∨ k.gadget.base2k < 64) .arithmetic
  pure (k.switch c)

end LweSwitchingKey

end CipherMonitor
