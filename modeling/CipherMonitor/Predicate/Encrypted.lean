import CipherMonitor.Action
import CipherMonitor.Ckks.Arithmetic
import CipherMonitor.Ckks.Relinearization
import CipherMonitor.Predicate.Basic

/-!
# Predicates on encrypted samples

The formulas of `Predicate` on ciphertexts: the results decrypt to positive numbers exactly when the
propositions hold.

* `Arithmetic` — parameters and relinearization key, with the operations that formulas are made of.
* `Predicate.ciphertexts` — the formulas.
* `PredicateEvaluator.evaluate` — the formulas on checked samples, brought down to the lowest level.
* `PredicateEvaluator.primed` — whether there is a sample to measure changes against.
-/

namespace CipherMonitor

open Ckks

/-- What is needed for arithmetic on ciphertexts. -/
structure Arithmetic where
  params : Parameters
  key : RelinearizationKey
  deriving DecidableEq

namespace Arithmetic

/-- A number encoded at the level and scale of a ciphertext, as a summand. -/
def summand (k : Arithmetic) (value : Float) (c : Ciphertext) : Outcome Plaintext :=
  encode k.params value c.level c.scale

/-- A number encoded at the level of a ciphertext and at the nominal scale, as a factor. -/
def factor (k : Arithmetic) (value : Float) (c : Ciphertext) : Outcome Plaintext :=
  encode k.params value c.level k.params.scale

/-- The ciphertext plus a number. -/
def plus (k : Arithmetic) (c : Ciphertext) (value : Float) : Outcome Ciphertext := do
  c.addPlain (← k.summand value c)

/-- The ciphertext minus a number. -/
def minus (k : Arithmetic) (c : Ciphertext) (value : Float) : Outcome Ciphertext := do
  c.subPlain (← k.summand value c)

/-- The ciphertext times a number, one level down. -/
def scaleBy (k : Arithmetic) (c : Ciphertext) (value : Float) : Outcome Ciphertext := do
  let product ← c.multiplyPlain (← k.factor value c)
  product.rescale k.params

/-- The ciphertext itself one level down, on the same path of scales as a product. -/
def align (k : Arithmetic) (c : Ciphertext) : Outcome Ciphertext := k.scaleBy c 1.0

/-- The square, relinearized and one level down. -/
def square (k : Arithmetic) (c : Ciphertext) : Outcome Ciphertext := do
  let product ← c.square
  let product ← product.relinearize k.key
  product.rescale k.params

/-- A ciphertext above `low`, and below `high`. -/
def band (k : Arithmetic) (x : Ciphertext) (low high margin : Float) :
    Outcome (List Ciphertext) := do
  let above ← k.minus x (low + margin)
  let below ← k.plus x.negate (high - margin)
  pure [above, below]

/-- A gap minus the distance that a velocity needs; all terms end two levels down. -/
def safeDistance (k : Arithmetic) (gap v : Ciphertext) (reaction inverse margin : Float) :
    Outcome Ciphertext := do
  let braking ← k.scaleBy (← k.square v) inverse
  let reaction ← k.align (← k.scaleBy v reaction)
  let gap ← k.align (← k.align gap)
  let rest ← gap.sub reaction
  let rest ← rest.sub braking
  k.minus rest margin

end Arithmetic

/-- Ciphertext `i` of a sample. -/
def sampleAt (sample : List Ciphertext) (i : Nat) : Outcome Ciphertext :=
  match sample[i]? with
  | some c => .ok c
  | none => .error (.breach .index)

namespace Predicate

/-- The propositions of a sample, given the first ciphertext of the sample before. -/
def ciphertexts (p : Predicate) (k : Arithmetic) (previous : Option Ciphertext)
    (sample : List Ciphertext) : Outcome (List Ciphertext) := do
  let x ← sampleAt sample 0
  let m := strictMargin p.reference
  match p with
  | .threshold true c _ => return [← k.minus x (c + m)]
  | .threshold false c _ => return [← k.plus x.negate (c - m)]
  | .band low high _ => k.band x low high m
  | .deltaBand low high _ =>
    match previous with
    | none => return [x, x]
    | some before => k.band (← x.sub before) low high m
  | .deviation center radius _ =>
    let squared ← k.square (← k.minus x center)
    return [← k.minus squared (radius * radius + m)]
  | .safeDistance reaction inverse _ =>
    return [← k.safeDistance x (← sampleAt sample 1) reaction inverse m]

end Predicate

/-- A formula, what its arithmetic needs, and its memory of the sample before. -/
structure PredicateEvaluator where
  predicate : Predicate
  arithmetic : Arithmetic
  previous : Option Ciphertext := none
  deriving DecidableEq

namespace PredicateEvaluator

/-- The formula on a sample; the memory changes only if it succeeds. -/
def formula (sample : List Ciphertext) : Action PredicateEvaluator (List Ciphertext) := do
  let e ← get
  let results ← Action.ofOutcome (e.predicate.ciphertexts e.arithmetic e.previous sample)
  set { e with previous := e.predicate.remember e.previous sample }
  pure results

/-- A ciphertext of a sample belongs to the parameters and has two polynomials. -/
def checkCiphertext (params : Parameters) (c : Ciphertext) : Outcome Unit := do
  params.check c
  if c.size = 2 then pure () else throw (.ckks (.unsupportedSize c.size))

/-- The samples that the formula is applied to. -/
def checkSample (e : PredicateEvaluator) (sample : List Ciphertext) : Outcome Unit := do
  e.predicate.checkSize sample.length
  sample.forM (checkCiphertext e.arithmetic.params)

/-- One ciphertext on the lowest level for each proposition. -/
def evaluate (sample : List Ciphertext) : Action PredicateEvaluator (List Ciphertext) := do
  let e ← get
  Action.ofOutcome (e.checkSample sample)
  let results ← formula sample
  Action.ofOutcome (results.mapM fun c => c.normalize e.arithmetic.params)

/-- Whether a sample is remembered. -/
def primed (e : PredicateEvaluator) : Bool := e.previous.isSome

end PredicateEvaluator

end CipherMonitor
