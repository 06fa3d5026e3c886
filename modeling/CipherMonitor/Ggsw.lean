import CipherMonitor.Fourier
import CipherMonitor.Gadget
import CipherMonitor.Glwe.Basic

/-!
# Gadget ciphertexts and the external product

A gadget ciphertext of an integer `m` has two rows per digit: one with the phase `m * weight i` and
one with the phase `m * weight i * s`.  Multiplying the digits of a ring ciphertext with the rows
gives a ciphertext of about `m` times its phase.

* `Ggsw`, `Ggsw.encrypt`, `Ggsw.ofRows` — the rows as ring ciphertexts.
* `PreparedGgsw`, `Ggsw.prepare` — the rows in the Fourier domain.
* `PreparedGgsw.externalProduct` — the product with a ring ciphertext.
* `PreparedGgsw.select` — the choice between two ring ciphertexts.
-/

namespace CipherMonitor

/-- Rows `0 .. rows - 1` have the phases `m * weight i`, the others `m * weight i * s`. -/
structure Ggsw where
  rows : List (Glwe 32)
  gadget : Gadget
  deriving DecidableEq

/-- A gadget ciphertext with the two polynomials of every row transformed. -/
structure PreparedGgsw where
  rows : List (Spectrum × Spectrum)
  gadget : Gadget
  degree : Nat

namespace Ggsw

/-- Encryptions of zero, `count` of them. -/
def encryptZeros (s : GlweSecret) (sigma : Float) : (count : Nat) → Source → Source →
    Outcome (List (Glwe 32) × Source × Source)
  | 0, xa, xe => pure ([], xa, xe)
  | count + 1, xa, xe => do
    let (row, xa, xe) ← Glwe.encrypt s (Poly.zero s.degree) sigma xa xe
    let (rows, xa, xe) ← encryptZeros s sigma count xa xe
    pure (row :: rows, xa, xe)

/-- Adds `m * weight` to the body of the first rows and to the mask of the others. -/
def addMessage (g : Gadget) (m : Int) (rows : List (Glwe 32)) : List (Glwe 32) :=
  rows.mapIdx fun r row =>
    if r < g.rows then ⟨row.b.addConstant (Torus.scale (g.weight 32 r) m), row.a⟩
    else ⟨row.b, row.a.addConstant (Torus.scale (g.weight 32 (r - g.rows)) m)⟩

/-- Encrypts an integer. -/
def encrypt (m : Int) (s : GlweSecret) (g : Gadget) (sigma : Float) (xa xe : Source) :
    Outcome (Ggsw × Source × Source) := do
  require (g.rows = 0 ∨ s.degree.isPowerOfTwo) (.degreeNotPowerOfTwo s.degree)
  let (zeros, xa, xe) ← encryptZeros s sigma (2 * g.rows) xa xe
  pure (⟨addMessage g m zeros, g⟩, xa, xe)

/-- The ciphertext with given rows, two for every digit. -/
def ofRows (rows : List (Glwe 32)) (g : Gadget) : Outcome Ggsw := do
  require (rows.length = 2 * g.rows) (.gadgetRows rows.length g.rows)
  pure ⟨rows, g⟩

/-- Transforms every row. -/
def prepare (t : Fourier) (c : Ggsw) : PreparedGgsw :=
  { rows := c.rows.map fun row => (t.ofWords row.b.coeffs, t.ofWords row.a.coeffs)
    gadget := c.gadget
    degree := t.n }

/-- Transforms every row, all of them of at least the degree of the tables. -/
def prepareChecked (t : Fourier) (c : Ggsw) : Outcome PreparedGgsw := do
  c.rows.forM fun row => do
    t.covers row.b.size
    t.covers row.a.size
  pure (c.prepare t)

end Ggsw

namespace PreparedGgsw

/-- The digits of a ring ciphertext beside the rows they multiply: for every digit the one of the
body with a row of the first half, then the one of the mask with a row of the second half. -/
def terms (c : PreparedGgsw) (g : Glwe 32) : List (Array Int × (Spectrum × Spectrum)) :=
  let l := c.gadget.rows
  let body := (c.gadget.digitRows g.b.coeffs).zip (c.rows.take l)
  let mask := (c.gadget.digitRows g.a.coeffs).zip (c.rows.drop l)
  (body.zip mask).flatMap fun (x, y) => [x, y]

/-- One polynomial of the product: the sum of digit polynomials times row polynomials. -/
def combine (t : Fourier) (pairs : List (Array Int × Spectrum)) : TorusPoly 32 :=
  ⟨t.toWords 32 (Spectrum.sumOfProducts t.zero (pairs.map fun (d, s) => (t.ofInts d, s)))⟩

/-- A ring ciphertext of about `m` times the phase of `g`. -/
def externalProduct (t : Fourier) (c : PreparedGgsw) (g : Glwe 32) : Glwe 32 :=
  let terms := c.terms g
  ⟨combine t (terms.map fun (d, row) => (d, row.1)),
    combine t (terms.map fun (d, row) => (d, row.2))⟩

/-- `c0 + c ⊡ (c1 - c0)`: about `c1` when `m` is one, and `c0` when it is zero. -/
def select (t : Fourier) (c : PreparedGgsw) (c1 c0 : Glwe 32) : Glwe 32 :=
  (c.externalProduct t (c1.sub c0)).add c0

theorem ofDegree_externalProduct (t : Fourier) (c : PreparedGgsw) (g : Glwe 32) :
    (c.externalProduct t g).OfDegree t.n := by
  constructor <;> simp [externalProduct, combine, Poly.size]

/-! ### Checked operations -/

/-- The ring degree, read off the first row. -/
def degreeChecked (c : PreparedGgsw) : Outcome Nat := do
  require (c.rows ≠ []) .index
  pure c.degree

/-- The check that tables, rows and a ring ciphertext belong together. -/
def fits (t : Fourier) (c : PreparedGgsw) (g : Glwe 32) : Outcome Unit := do
  require (t.n = g.degree) .shape
  let n ← c.degreeChecked
  require (n = g.degree) .shape
  require (c.gadget.base2k < 64) .arithmetic
  require (g.a.size ≤ g.degree) .index

/-- The product with a ring ciphertext; a mask of fewer coefficients counts as padded with
zeros. -/
def externalProductChecked (t : Fourier) (c : PreparedGgsw) (g : Glwe 32) : Outcome (Glwe 32) := do
  c.fits t g
  pure (c.externalProduct t ⟨g.b, Poly.ofFn g.degree g.a.coeff⟩)

/-- The choice between two ciphertexts of the degree. -/
def selectChecked (t : Fourier) (c : PreparedGgsw) (c1 c0 : Glwe 32) : Outcome (Glwe 32) := do
  Glwe.Checked.sameSizes c1 c0
  c.fits t c1
  require (c0.a.size = t.n) .shape
  pure (c.select t c1 c0)

end PreparedGgsw

end CipherMonitor
