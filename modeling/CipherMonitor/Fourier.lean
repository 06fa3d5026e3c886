import CipherMonitor.Torus

/-!
# Negacyclic Fourier transform

A polynomial of degree `n` is folded into `n / 2` complex numbers, twisted by powers of
`exp (i π / n)` and transformed by a cyclic transform of size `n / 2`; products of polynomials
become pointwise products.  All of it is floating-point, so results are exact only while the
products stay small enough to be rounded back.

* `Fourier` — the tables of a ring degree.
* `Spectrum` — a transformed polynomial.
* `Fourier.ofInts`, `Fourier.ofWords` — the transform of integer and torus polynomials.
* `Spectrum.addMul` — accumulation of a pointwise product.
* `Fourier.toInts`, `Fourier.toWords` — the inverse transform, rounded.
-/

namespace CipherMonitor

/-- Tables for the ring degree `n`. -/
structure Fourier where
  n : Nat
  twistRe : FloatArray
  twistIm : FloatArray
  omegaRe : FloatArray
  omegaIm : FloatArray
  reversal : Array Nat

/-- The real and imaginary parts of a transformed polynomial. -/
structure Spectrum where
  re : FloatArray
  im : FloatArray

namespace Fourier

/-- The array of `f 0, …, f (m - 1)`. -/
def tabulate (m : Nat) (f : Nat → Float) : FloatArray :=
  (List.range m).foldl (fun xs i => xs.push (f i)) (FloatArray.emptyWithCapacity m)

/-- The number whose `bits` low bits are those of `i` in reverse order. -/
def reverseBits (bits i : Nat) : Nat :=
  (List.range bits).foldl (fun r k => 2 * r + i / 2 ^ k % 2) 0

/-- Half the circumference of the unit circle. -/
def pi : Float := 3.141592653589793

/-- The tables; the degree has to be a power of two, at least two.  There are five of them, with `n / 2`
entries of eight bytes each. -/
def make (n : Nat) : Outcome Fourier := do
  require (n.isPowerOfTwo ∧ 2 ≤ n) (.ringDegree n)
  let m := n / 2
  reserve m 8
  let twist (j : Nat) : Float := pi * j.toFloat / n.toFloat
  let omega (k : Nat) : Float := -2.0 * pi * k.toFloat / m.toFloat
  pure
    { n
      twistRe := tabulate m fun j => (twist j).cos
      twistIm := tabulate m fun j => (twist j).sin
      omegaRe := tabulate m fun k => (omega k).cos
      omegaIm := tabulate m fun k => (omega k).sin
      reversal := (Array.range m).map (reverseBits (Nat.log2 m)) }

/-- One butterfly between the entries `i` and `i + half`, with the factor `wr + i wi`. -/
def butterfly (s : Spectrum) (i half : Nat) (wr wi : Float) : Spectrum :=
  let ⟨re, im⟩ := s
  let ur := re.get! i
  let ui := im.get! i
  let xr := re.get! (i + half)
  let xi := im.get! (i + half)
  let vr := xr * wr - xi * wi
  let vi := xr * wi + xi * wr
  ⟨(re.set! i (ur + vr)).set! (i + half) (ur - vr),
    (im.set! i (ui + vi)).set! (i + half) (ui - vi)⟩

/-- The butterflies that join blocks of `half` entries into blocks of twice as many. -/
def stage (t : Fourier) (inverse : Bool) (s : Spectrum) (half : Nat) : Spectrum :=
  let m := t.n / 2
  let step := m / (2 * half)
  (List.range (m / (2 * half))).foldl
    (fun s block =>
      (List.range half).foldl
        (fun s j =>
          let wi := t.omegaIm.get! (j * step)
          butterfly s (block * (2 * half) + j) half (t.omegaRe.get! (j * step))
            (if inverse then -wi else wi))
        s)
    s

/-- The cyclic transform of size `n / 2`. -/
def cyclic (t : Fourier) (inverse : Bool) (s : Spectrum) : Spectrum :=
  let m := t.n / 2
  let permuted : Spectrum :=
    ⟨tabulate m fun i => s.re.get! (t.reversal.getD i 0),
      tabulate m fun i => s.im.get! (t.reversal.getD i 0)⟩
  (List.range (Nat.log2 m)).foldl (fun s k => t.stage inverse s (2 ^ k)) permuted

/-- The spectrum of the polynomial with coefficients `a 0, …, a (n - 1)`. -/
def forward (t : Fourier) (a : Nat → Float) : Spectrum :=
  let m := t.n / 2
  t.cyclic false
    ⟨tabulate m fun j => a j * t.twistRe.get! j - a (j + m) * t.twistIm.get! j,
      tabulate m fun j => a j * t.twistIm.get! j + a (j + m) * t.twistRe.get! j⟩

/-- The unrounded coefficient `i` of the polynomial with a given spectrum. -/
def backward (t : Fourier) (s : Spectrum) : Nat → Float :=
  let m := t.n / 2
  let z := t.cyclic true s
  let inverse := 1.0 / m.toFloat
  let re := tabulate m fun j =>
    z.re.get! j * inverse * t.twistRe.get! j + z.im.get! j * inverse * t.twistIm.get! j
  let im := tabulate m fun j =>
    z.im.get! j * inverse * t.twistRe.get! j - z.re.get! j * inverse * t.twistIm.get! j
  fun i => if i < m then re.get! i else im.get! (i - m)

/-- The spectrum of an integer polynomial. -/
def ofInts (t : Fourier) (a : Array Int) : Spectrum := t.forward fun i => Float.ofInt (a.getD i 0)

/-- The spectrum of a torus polynomial, read as integers around zero. -/
def ofWords {w : Nat} (t : Fourier) (a : Array (BitVec w)) : Spectrum :=
  t.forward fun i => Float.ofInt (a.getD i 0).toInt

/-- The zero spectrum. -/
def zero (t : Fourier) : Spectrum :=
  ⟨tabulate (t.n / 2) fun _ => 0.0, tabulate (t.n / 2) fun _ => 0.0⟩

/-- The coefficients rounded to integers of 64 bits. -/
def toInts (t : Fourier) (s : Spectrum) : Array Int :=
  let x := t.backward s
  Array.ofFn fun i : Fin t.n =>
    (Binary64.ofFloat (x i).round).clamp (-9223372036854775808) 9223372036854775807

/-- The coefficients rounded to torus words. -/
def toWords (t : Fourier) (w : Nat) (s : Spectrum) : Array (BitVec w) :=
  let x := t.backward s
  Array.ofFn fun i : Fin t.n => Binary64.roundToWord w (x i)

/-- The check that at least `n` coefficients are given. -/
def covers (t : Fourier) (size : Nat) : Outcome Unit := require (t.n ≤ size) .index

@[simp] theorem size_toWords (t : Fourier) (w : Nat) (s : Spectrum) :
    (t.toWords w s).size = t.n := by simp [toWords]

end Fourier

namespace Spectrum

/-- Adds the pointwise product of `a` and `b`. -/
def addMul (s a b : Spectrum) : Spectrum :=
  let m := s.re.size
  ⟨Fourier.tabulate m fun j =>
      s.re.get! j + (a.re.get! j * b.re.get! j - a.im.get! j * b.im.get! j),
    Fourier.tabulate m fun j =>
      s.im.get! j + (a.re.get! j * b.im.get! j + a.im.get! j * b.re.get! j)⟩

/-- Pointwise sum. -/
def add (s a : Spectrum) : Spectrum :=
  let m := s.re.size
  ⟨Fourier.tabulate m fun j => s.re.get! j + a.re.get! j,
    Fourier.tabulate m fun j => s.im.get! j + a.im.get! j⟩

/-- The sum of the products of paired spectra, first pair first. -/
def sumOfProducts (start : Spectrum) (pairs : List (Spectrum × Spectrum)) : Spectrum :=
  pairs.foldl (fun s (a, b) => s.addMul a b) start

end Spectrum

end CipherMonitor
