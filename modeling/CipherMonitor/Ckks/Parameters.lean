import CipherMonitor.Fault

/-!
# Parameters of the approximate scheme

Ciphertexts live on levels: level `l` has the modulus `2 ^ (q 0 + … + q l)`, and the last entry of
the chain is the special modulus of key switching.  Fresh ciphertexts are on the top level.

* `Ckks.Parameters` — ring degree, chain of moduli, nominal scale and noise.
* `Ckks.Parameters.validate` — what parameters have to satisfy.
* `Ckks.Parameters.logQ`, `logSpecial`, `logPQ` — the moduli, as powers of two.
-/

namespace CipherMonitor.Ckks

/-- The bits of each modulus of the chain, the special one last. -/
structure Parameters where
  ringDegree : Nat
  modulusBits : List Nat
  scale : Float
  sigma : Float
  deriving DecidableEq

/-- The power of two with an exponent given as a word of 32 bits; the upper half of the words
stands for negative exponents, whose powers are reciprocals. -/
def powTwo (exponent : Nat) : Float :=
  if exponent < 2 ^ 31 then Binary64.twoPow exponent
  else 1.0 / Binary64.twoPow (2 ^ 32 - exponent)

namespace Parameters

/-- The parameters of a deployment. -/
def standard : Parameters :=
  { ringDegree := 8192, modulusBits := [60, 40, 60], scale := 1099511627776.0, sigma := 3.2 }

/-- Small parameters with three levels, without security. -/
def small : Parameters :=
  { ringDegree := 256, modulusBits := [60, 40, 40, 60], scale := 1099511627776.0, sigma := 3.2 }

/-- The degree is a power of two from two on, the chain has two moduli or more, none of them one,
and the scale is above one and below the lowest modulus. -/
def validate (p : Parameters) : Outcome Unit :=
  let refuse (flaw : ParameterFlaw) : Outcome Unit := .error (.ckks (.invalidParameters flaw))
  if ¬ p.ringDegree.isPowerOfTwo ∨ p.ringDegree < 2 then refuse (.ringDegree p.ringDegree)
  else if p.modulusBits.length < 2 then refuse .shortChain
  else if 0 ∈ p.modulusBits then refuse .emptyModulus
  else
    let lowest := p.modulusBits.headD 0
    if ¬ (p.scale > 1.0) ∨ Binary64.log2 p.scale >= lowest.toFloat then
      refuse (.scale p.scale lowest)
    else .ok ()

/-- The number of levels of a chain that is not empty. -/
def levels (p : Parameters) : Outcome Nat := do
  require (p.modulusBits ≠ []) .arithmetic
  pure (p.modulusBits.length - 1)

/-- The highest level. -/
def topLevel (p : Parameters) : Outcome Nat := do
  let levels ← p.levels
  require (0 < levels) .arithmetic
  pure (levels - 1)

/-- The sum of the first `count` entries of the chain. -/
def chainSum (p : Parameters) (count : Nat) : Nat := (p.modulusBits.take count).sum

/-- The bits of the modulus of a level; they have to fit a word of 32 bits. -/
def logQ (p : Parameters) (level : Nat) : Outcome Nat := do
  let levels ← p.levels
  require (level < levels) (.levelRange level levels)
  require (p.chainSum (level + 1) < 2 ^ 32) .arithmetic
  pure (p.chainSum (level + 1))

/-- The bits that are dropped when a ciphertext leaves a level. -/
def rescaleBits (p : Parameters) (level : Nat) : Outcome Nat :=
  match p.modulusBits[level]? with
  | some bits => .ok bits
  | none => .error (.breach .index)

/-- The bits of the special modulus. -/
def logSpecial (p : Parameters) : Outcome Nat := do
  let levels ← p.levels
  p.rescaleBits levels

/-- The bits of the modulus of switching keys. -/
def logPQ (p : Parameters) : Outcome Nat := do
  let top ← p.topLevel
  let q ← p.logQ top
  let special ← p.logSpecial
  require (q + special < 2 ^ 32) .arithmetic
  pure (q + special)

end Parameters

end CipherMonitor.Ckks
