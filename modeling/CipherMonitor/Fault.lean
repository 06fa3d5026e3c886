import CipherMonitor.Binary64.Shortest
import CipherMonitor.Text.Quoted

/-!
# What can go wrong

Every failing operation of the library returns a `Fault`.  A fault is a broken precondition, an
error of the approximate scheme, of the monitor, of a record stream, or of the bytes underneath;
each constructor is a cause, and each type has one function that words its causes.

* `Breach` — a precondition the caller did not meet.
* `CkksError`, `MonitorError`, `StreamError`, `ByteError` — errors a caller may handle.
* `Fault` — any of these.
-/

namespace CipherMonitor

/-- A precondition that was not met.  The first five have no wording of their own. -/
inductive Breach
  /-- A machine integer left its range, or a shift exceeded its word. -/
  | arithmetic
  /-- Two sizes that have to agree differ, or a size is not of the required form. -/
  | shape
  /-- An index is outside of its sequence. -/
  | index
  /-- A rejection sampler gave up. -/
  | rejection
  /-- More room was asked for at once than a collection can have. -/
  | capacity
  | degreeNotPowerOfTwo (n : Nat)
  | ringDegree (n : Nat)
  | gadgetBase
  | gadgetWidth (bits : Nat)
  | gadgetRows (given rows : Nat)
  | coefficientIndex (k n : Nat)
  | probability (p : Float)
  | hammingWeight (h n : Nat)
  | deviation (sigma : Float)
  | noiseBound (bound sigma : Float)
  | valueCount (count n : Nat)
  | levelRange (level levels : Nat)
  | bridgeDegree
  | bridgeUninitialized
  | bootInterval
  | blockSize
  deriving DecidableEq

/-- The wording of a breach, if it has one. -/
def Breach.message? : Breach → Option String
  | .arithmetic | .shape | .index | .rejection | .capacity => none
  | .degreeNotPowerOfTwo n => some s!"n must be a power of two but is {n}"
  | .ringDegree n => some s!"invalid ring degree: {n}"
  | .gadgetBase => some "base2k must be positive"
  | .gadgetWidth bits => some s!"base2k * rows = {bits} exceeds 64 bits"
  | .gadgetRows given rows => some s!"{given} rows for a gadget of {rows}"
  | .coefficientIndex k n => some s!"index {k} >= ring degree {n}"
  | .probability p => some ("invalid probability: " ++ Binary64.display p)
  | .hammingWeight h n => some s!"hamming weight {h} > n={n}"
  | .deviation sigma => some ("invalid standard deviation: " ++ Binary64.display sigma)
  | .noiseBound bound sigma =>
    some ("bound=" ++ Binary64.display bound ++ " < sigma=" ++ Binary64.display sigma)
  | .valueCount count n => some s!"{count} values > ring degree {n}"
  | .levelRange level levels => some s!"level {level} >= {levels}"
  | .bridgeDegree => some "coarse to mid key does not start from the CKKS ring degree"
  | .bridgeUninitialized => some "scheme bridge used before initialize"
  | .bootInterval => some "boot interval must be positive"
  | .blockSize => some "block size must be positive"

/-- Why a ciphertext does not fit a set of parameters. -/
inductive CiphertextFlaw
  | ringDegree (found expected : Nat)
  | level (found levels : Nat)
  | modulus (logQ atLevel expected : Nat)
  deriving DecidableEq

/-- The wording of a ciphertext flaw. -/
def CiphertextFlaw.message : CiphertextFlaw → String
  | .ringDegree found expected => s!"ring degree {found} != {expected}"
  | .level found levels => s!"level {found} outside {levels} levels"
  | .modulus logQ atLevel expected =>
    s!"modulus 2^{logQ} at level {atLevel}, expected 2^{expected}"

/-- Why parameters of the approximate scheme are refused. -/
inductive ParameterFlaw
  | ringDegree (n : Nat)
  | shortChain
  | emptyModulus
  | scale (value : Float) (bits : Nat)
  | keyRows (rows logQ : Nat)
  deriving DecidableEq

/-- The wording of a parameter flaw. -/
def ParameterFlaw.message : ParameterFlaw → String
  | .ringDegree n => s!"ring degree must be a power of two but is {n}"
  | .shortChain => "modulus chain needs at least one data modulus and the special modulus"
  | .emptyModulus => "empty modulus in chain"
  | .scale value bits => "scale " ++ Binary64.display value ++ s!" must be in (1, 2^{bits})"
  | .keyRows rows logQ => s!"relinearization key of {rows} rows cannot switch modulus 2^{logQ}"

/-- An error of the approximate scheme. -/
inductive CkksError
  | levelMismatch (a b : Nat)
  | scaleMismatch (a b : Float)
  | endOfModulusChain
  | invalidTargetLevel (source target : Nat)
  | notRelinearizable (size : Nat)
  | unsupportedSize (size : Nat)
  | encodingOverflow (value scale : Float) (logQ : Nat)
  | scaleOutOfBounds (logScale : Float) (logQ : Nat)
  | invalidCiphertext (flaw : CiphertextFlaw)
  | invalidParameters (flaw : ParameterFlaw)
  deriving DecidableEq

/-- The wording of an error of the approximate scheme. -/
def CkksError.message : CkksError → String
  | .levelMismatch a b => s!"level mismatch: {a} != {b}"
  | .scaleMismatch a b =>
    "scale mismatch: " ++ Binary64.display a ++ " != " ++ Binary64.display b
  | .endOfModulusChain => "cannot rescale or switch below level 0"
  | .invalidTargetLevel source target =>
    s!"cannot switch from level {source} to higher level {target}"
  | .notRelinearizable size => s!"ciphertext of size {size} cannot be relinearized"
  | .unsupportedSize size => s!"operation does not support ciphertexts of size {size}"
  | .encodingOverflow value scale logQ =>
    "value " ++ Binary64.display value ++ " at scale " ++ Binary64.display scale ++
      s!" does not fit modulus 2^{logQ}"
  | .scaleOutOfBounds logScale logQ =>
    "scale 2^" ++ Binary64.displayTenths logScale ++ s!" exceeds modulus 2^{logQ}"
  | .invalidCiphertext flaw =>
    "ciphertext does not belong to these parameters: " ++ flaw.message
  | .invalidParameters flaw => "invalid parameters: " ++ flaw.message

/-- Why serialized data is refused. -/
inductive FormatFlaw
  | torusWidth (found expected : Nat)
  | lweLength (words : Nat)
  | ringDegree (n : Nat)
  | size (polys : Nat)
  | level (found logQ : Nat)
  | scale (value : Float)
  | payload (bytes polys polyBytes : Nat)
  /-- The bytes of a polynomial are too many for a machine integer. -/
  | polynomialOverflow
  /-- The bytes of all polynomials are too many for a machine integer. -/
  | payloadOverflow
  /-- The bytes of a polynomial are not as many as its coefficients take. -/
  | polynomial
  deriving DecidableEq

/-- The wording of a format flaw. -/
def FormatFlaw.message : FormatFlaw → String
  | .torusWidth found expected => s!"torus of {found} bits != {expected}"
  | .lweLength words => s!"LWE ciphertext of {words} words"
  | .ringDegree n => s!"ring degree {n}"
  | .size polys => s!"ciphertext size {polys}"
  | .level found logQ => s!"level {found} with modulus 2^{logQ}"
  | .scale value => "scale " ++ Binary64.display value
  | .payload bytes polys polyBytes =>
    s!"payload of {bytes} bytes for {polys} polynomials of {polyBytes} bytes"
  | .polynomialOverflow => "polynomial size overflows"
  | .payloadOverflow => "payload size overflows"
  | .polynomial => "malformed polynomial"

/-- A failure while bytes are read or written. -/
inductive ByteError
  /-- The input ended inside a field of fixed width. -/
  | shortField
  /-- The input ended inside a payload of announced length. -/
  | shortPayload (found expected : Nat)
  | invalidData (flaw : FormatFlaw)
  /-- A line of text is not well-formed. -/
  | notText
  /-- The output has no room left. -/
  | full
  /-- A failure of the device, with its own kind and wording. -/
  | device (kind text : String)
  deriving DecidableEq

/-- The wording of a byte error. -/
def ByteError.message : ByteError → String
  | .shortField => "failed to fill whole buffer"
  | .shortPayload found expected => s!"payload of {found} bytes, expected {expected}"
  | .invalidData flaw => flaw.message
  | .notText => "stream did not contain valid UTF-8"
  | .full => "failed to write whole buffer"
  | .device _ text => text

/-- Why a record is not what it should be. -/
inductive RecordFlaw
  | payload (error : ByteError)
  | trailing (bytes : Nat)
  | tooLong (bytes : Nat)
  | notANumber (token : String)
  deriving DecidableEq

/-- The wording of a record flaw. -/
def RecordFlaw.message : RecordFlaw → String
  | .payload error => error.message
  | .trailing bytes => s!"{bytes} trailing bytes"
  | .tooLong bytes => s!"record of {bytes} bytes"
  | .notANumber token => "not a number: " ++ Text.quote token

/-- An error of a record stream. -/
inductive StreamError
  | bytes (error : ByteError)
  | truncated (expected actual : Nat)
  | malformed (flaw : RecordFlaw)
  deriving DecidableEq

/-- The wording of a stream error. -/
def StreamError.message : StreamError → String
  | .bytes error => "stream i/o: " ++ error.message
  | .truncated expected actual => s!"truncated input: expected {expected}, got {actual}"
  | .malformed flaw => "malformed record: " ++ flaw.message

/-- Why an automaton is refused. -/
inductive AutomatonFlaw
  | noStates
  | initialState (q states : Nat)
  | transition (q onFalse onTrue states : Nat)
  | finalState (q states : Nat)
  | predicateCount (predicates : Nat)
  deriving DecidableEq

/-- The wording of an automaton flaw. -/
def AutomatonFlaw.message : AutomatonFlaw → String
  | .noStates => "no states"
  | .initialState q states => s!"initial state {q} out of {states} states"
  | .transition q onFalse onTrue states =>
    s!"state {q} has transition [{onFalse}, {onTrue}] out of {states} states"
  | .finalState q states => s!"final state {q} out of {states} states"
  | .predicateCount predicates => s!"{predicates} predicates per sample outside [1, 16]"

/-- Why a configuration is refused. -/
inductive ConfigFlaw
  | digitBits (bits : Nat)
  | digits (count bits : Nat)
  | bootInterval
  | blockSize
  | reference (value : Float)
  deriving DecidableEq

/-- The wording of a configuration flaw. -/
def ConfigFlaw.message : ConfigFlaw → String
  | .digitBits bits => s!"digit_bits={bits} outside [1, 30]"
  | .digits count bits => s!"{count} digits of {bits} bits do not fit a 32-bit torus"
  | .bootInterval => "boot_interval must be positive"
  | .blockSize => "block_size must be positive"
  | .reference value => "reference " ++ Binary64.display value ++ " is not positive"

/-- An error of the monitor. -/
inductive MonitorError
  | sizeMismatch (expected actual : Nat)
  | invalidAutomaton (flaw : AutomatonFlaw)
  | invalidConfig (flaw : ConfigFlaw)
  /-- A JSON text is not of the expected form, or describes a refused automaton. -/
  | json (flaw : Option AutomatonFlaw)
  deriving DecidableEq

/-- The wording of a monitor error; a text that is not of the expected form has none. -/
def MonitorError.message? : MonitorError → Option String
  | .sizeMismatch expected actual => some s!"sample of size {actual}, expected {expected}"
  | .invalidAutomaton flaw | .json (some flaw) => some ("invalid automaton: " ++ flaw.message)
  | .invalidConfig flaw => some ("invalid configuration: " ++ flaw.message)
  | .json none => none

/-- A failed operation. -/
inductive Fault
  | breach (breach : Breach)
  | ckks (error : CkksError)
  | monitor (error : MonitorError)
  | stream (error : StreamError)
  | bytes (error : ByteError)
  deriving DecidableEq

/-- The wording of a fault, if it has one. -/
def Fault.message? : Fault → Option String
  | .breach b => b.message?
  | .ckks e => some e.message
  | .monitor e => e.message?
  | .stream e => some e.message
  | .bytes e => some e.message

/-- The result of an operation that may fail. -/
abbrev Outcome (α : Type) := Except Fault α

/-- Succeeds when the condition holds. -/
def require (condition : Prop) [Decidable condition] (breach : Breach) : Outcome Unit :=
  if condition then .ok () else .error (.breach breach)

@[simp] theorem require_eq_ok_iff {c : Prop} [Decidable c] {b : Breach} {u : Unit} :
    require c b = .ok u ↔ c := by
  unfold require; split <;> simp_all

theorem require_of {c : Prop} [Decidable c] {b : Breach} (h : c) : require c b = .ok () := by
  simp [require, h]

/-- Asks for room for `count` entries of `size` bytes each, before there is any of them.  A collection
has less than `2 ^ 63` bytes; whether the machine has that much memory is not part of the model. -/
def reserve (count size : Nat) : Outcome Unit := require (count * size < 2 ^ 63) .capacity

@[simp] theorem reserve_eq_ok_iff {count size : Nat} {u : Unit} :
    reserve count size = .ok u ↔ count * size < 2 ^ 63 := require_eq_ok_iff

end CipherMonitor
