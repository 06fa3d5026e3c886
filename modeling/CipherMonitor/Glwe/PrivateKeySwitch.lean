import CipherMonitor.Gadget
import CipherMonitor.Glwe.Basic

/-!
# Private functional key switching

Turns an LWE ciphertext into a ring ciphertext while a fixed linear function is applied to its
phase.  The function is hidden in the key: for every word of the input, the body included, and
every digit weight, the key encrypts the function of the secret coefficient times the weight.

* `KeySwitchFunction` — the two functions used, and their polynomials.
* `PrivateKeySwitch` — the key, and `PrivateKeySwitch.generate`.
* `PrivateKeySwitch.switch` — the ring ciphertext of the function of a phase.
-/

namespace CipherMonitor

/-- What happens to the phase. -/
inductive KeySwitchFunction
  /-- It becomes the constant coefficient. -/
  | identity
  /-- It is multiplied with the output secret. -/
  | timesSecret
  deriving DecidableEq

/-- The polynomial of a word `x` under the function. -/
def KeySwitchFunction.apply {w : Nat} (f : KeySwitchFunction) (s : GlweSecret) (x : BitVec w) :
    TorusPoly w :=
  match f with
  | identity => Poly.constant s.degree x
  | timesSecret => ⟨s.coeffs.map (Torus.scale x)⟩

/-- Row `0` belongs to the body, row `j + 1` to coefficient `j` of the input secret; entry `i` of a
row encrypts the function of the coefficient times `weight i`. -/
structure PrivateKeySwitch where
  rows : List (List (Glwe 32))
  gadget : Gadget
  function : KeySwitchFunction
  degree : Nat
  deriving DecidableEq

namespace PrivateKeySwitch

/-- The dimension of the input secret. -/
def nIn (k : PrivateKeySwitch) : Nat := k.rows.length - 1

/-- Encrypts the polynomials in order, from two running sources. -/
def encryptAll (s : GlweSecret) (sigma : Float) : List (TorusPoly 32) → Source → Source →
    Outcome (List (Glwe 32) × Source × Source)
  | [], xa, xe => pure ([], xa, xe)
  | m :: ms, xa, xe => do
    let (c, xa, xe) ← Glwe.encrypt s m sigma xa xe
    let (cs, xa, xe) ← encryptAll s sigma ms xa xe
    pure (c :: cs, xa, xe)

/-- The messages of the row of a coefficient. -/
def rowMessages (f : KeySwitchFunction) (g : Gadget) (s : GlweSecret) (c : Int) :
    List (TorusPoly 32) :=
  (List.range g.rows).map fun i => f.apply s (Torus.scale (g.weight 32 i) c)

/-- The rows of the given coefficients. -/
def encryptRows (f : KeySwitchFunction) (g : Gadget) (s : GlweSecret) (sigma : Float) :
    List Int → Source → Source → Outcome (List (List (Glwe 32)) × Source × Source)
  | [], xa, xe => pure ([], xa, xe)
  | c :: cs, xa, xe => do
    let (row, xa, xe) ← encryptAll s sigma (rowMessages f g s c) xa xe
    let (rows, xa, xe) ← encryptRows f g s sigma cs xa xe
    pure (row :: rows, xa, xe)

/-- The key for a function, from an LWE secret to a ring secret. -/
def generate (sIn : LweSecret) (sOut : GlweSecret) (f : KeySwitchFunction) (g : Gadget)
    (sigma : Float) (xa xe : Source) : Outcome (PrivateKeySwitch × Source × Source) := do
  Poly.degreeOk sOut.degree
  let (rows, xa, xe) ← encryptRows f g sOut sigma (1 :: sIn.coeffs.toList) xa xe
  pure (⟨rows, g, f, sOut.degree⟩, xa, xe)

/-- Adds the multiples of the ciphertexts of a row by the digits. -/
def addRow (sum : Glwe 32) (digits : List Int) (row : List (Glwe 32)) : Glwe 32 :=
  (digits.zip row).foldl (fun sum (d, c) => if d = 0 then sum else sum.addScaled c d) sum

/-- Every word, the body included, is replaced by the combination of its row with its digits. -/
def switch (k : PrivateKeySwitch) (c : Lwe 32) : Glwe 32 :=
  (c.words.toList.zip k.rows).foldl
    (fun sum (x, row) => addRow sum (k.gadget.signedDigits x) row) (Glwe.zero k.degree)

/-- Key switching of a ciphertext of the right dimension. -/
def switchChecked (k : PrivateKeySwitch) (c : Lwe 32) : Outcome (Glwe 32) := do
  Lwe.Checked.ofDimension c k.nIn
  require (k.gadget.base2k < 64) .arithmetic
  pure (k.switch c)

end PrivateKeySwitch

end CipherMonitor
