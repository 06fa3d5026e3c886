import CipherMonitor.Config.Monitor
import CipherMonitor.Json.Value

/-!
# Configurations as JSON texts

* `MonitorConfig.toJson`, `MonitorConfig.write` — the record of a configuration and its text.
* `MonitorConfig.read` — the valid configuration of a text.
-/

namespace CipherMonitor

/-- Counts of JSON texts are below this. -/
def Json.countBound : Nat := 2 ^ 64

/-- Bit sizes of JSON texts are below this. -/
def Json.bitsBound : Nat := 2 ^ 32

/-- A count. -/
def Json.toCount? : Json → Option Nat := toNat? countBound

/-- A bit size. -/
def Json.toBits? : Json → Option Nat := toNat? bitsBound

namespace Ckks.Parameters

/-- The noise where none is given. -/
def defaultSigma : Float := 3.2

/-- The record of the parameters. -/
def toJson (p : Parameters) : Json := .ofFields
  [("ring_degree", .ofNat p.ringDegree), ("modulus_bits", .ofList .ofNat p.modulusBits),
    ("scale", .ofFloat p.scale), ("sigma", .ofFloat p.sigma)]

/-- The parameters of a record. -/
def ofJson? (value : Json) : Option Parameters := do
  match ← value.toFields? ["ring_degree", "modulus_bits", "scale", "sigma"] with
  | [ringDegree, modulusBits, scale, sigma] =>
    pure
      { ringDegree := ← Json.field Json.toCount? ringDegree
        modulusBits := ← Json.field (Json.toList? Json.toBits?) modulusBits
        scale := ← Json.field Json.toFloat? scale
        sigma := ← Json.fieldOr defaultSigma Json.toFloat? sigma }
  | _ => none

end Ckks.Parameters

namespace GadgetParameters

/-- The record of the parameters. -/
def toJson (p : GadgetParameters) : Json :=
  .ofFields [("base2k", .ofNat p.base2k), ("rows", .ofNat p.rows)]

/-- The parameters of a record. -/
def ofJson? (value : Json) : Option GadgetParameters := do
  match ← value.toFields? ["base2k", "rows"] with
  | [base2k, rows] =>
    pure { base2k := ← Json.field Json.toCount? base2k, rows := ← Json.field Json.toCount? rows }
  | _ => none

end GadgetParameters

namespace Tfhe.Parameters

/-- The names of the fields. -/
def fieldNames : List String :=
  ["mid_degree", "mid_sigma", "fine_dimension", "fine_sigma", "blind_rotation",
    "circuit_bootstrapping", "ks_coarse_mid", "ks_mid_fine", "private_ks"]

/-- The record of the parameters. -/
def toJson (p : Parameters) : Json := .ofFields <| fieldNames.zip
  [.ofNat p.midDegree, .ofFloat p.midSigma, .ofNat p.fineDimension, .ofFloat p.fineSigma,
    p.blindRotation.toJson, p.circuitBootstrapping.toJson, p.coarseToMid.toJson,
    p.midToFine.toJson, p.privateSwitch.toJson]

/-- The parameters of a record. -/
def ofJson? (value : Json) : Option Parameters := do
  match ← value.toFields? fieldNames with
  | [midDegree, midSigma, fineDimension, fineSigma, blindRotation, circuitBootstrapping,
      coarseToMid, midToFine, privateSwitch] =>
    let gadget := Json.field GadgetParameters.ofJson?
    pure
      { midDegree := ← Json.field Json.toCount? midDegree
        midSigma := ← Json.field Json.toFloat? midSigma
        fineDimension := ← Json.field Json.toCount? fineDimension
        fineSigma := ← Json.field Json.toFloat? fineSigma
        blindRotation := ← gadget blindRotation
        circuitBootstrapping := ← gadget circuitBootstrapping
        coarseToMid := ← gadget coarseToMid
        midToFine := ← gadget midToFine
        privateSwitch := ← gadget privateSwitch }
  | _ => none

end Tfhe.Parameters

/-- The names of the accuracies. -/
def Accuracy.names : List (String × Accuracy) := [("high", .high), ("low", .low), ("direct", .direct)]

/-- The name of an accuracy. -/
def Accuracy.name : Accuracy → String
  | .high => "high"
  | .low => "low"
  | .direct => "direct"

namespace BridgeConfig

/-- The record of a bridge configuration. -/
def toJson (c : BridgeConfig) : Json := .ofFields
  [("mode", .ofText c.mode.name), ("digit_bits", .ofNat c.digitBits),
    ("high_digits", .ofNat c.highDigits), ("low_digits", .ofNat c.lowDigits)]

/-- The bridge configuration of a record. -/
def ofJson? (value : Json) : Option BridgeConfig := do
  match ← value.toFields? ["mode", "digit_bits", "high_digits", "low_digits"] with
  | [mode, digitBits, highDigits, lowDigits] =>
    pure
      { mode := ← Json.fieldOr .high (Json.toCase? Accuracy.names) mode
        digitBits := ← Json.field Json.toBits? digitBits
        highDigits := ← Json.field Json.toCount? highDigits
        lowDigits := ← Json.field Json.toCount? lowDigits }
  | _ => none

end BridgeConfig

/-- The names of the modes. -/
def RunnerMode.names : List (String × RunnerMode) :=
  [("online", .online), ("block", .block), ("reverse", .reverse), ("offline", .offline)]

/-- The name of a mode. -/
def RunnerMode.name : RunnerMode → String
  | .online => "online"
  | .block => "block"
  | .reverse => "reverse"
  | .offline => "offline"

namespace MonitorConfig

/-- The names of the fields. -/
def fieldNames : List String :=
  ["ckks", "tfhe", "bridge", "mode", "boot_interval", "block_size", "references"]

/-- The record of a configuration. -/
def toJson (c : MonitorConfig) : Json := .ofFields <| fieldNames.zip
  [c.ckks.toJson, c.tfhe.toJson, c.bridge.toJson, .ofText c.mode.name, .ofNat c.bootInterval,
    .ofNat c.blockSize, .ofList .ofFloat c.references]

/-- The text of a configuration. -/
def write (c : MonitorConfig) : List Char := c.toJson.write

/-- The configuration of a record; all fields but the mode may be missing. -/
def ofJson? (value : Json) : Option MonitorConfig := do
  match ← value.toFields? fieldNames with
  | [ckks, tfhe, bridge, mode, bootInterval, blockSize, references] =>
    pure
      { ckks := ← Json.fieldOr .standard Ckks.Parameters.ofJson? ckks
        tfhe := ← Json.fieldOr .standard Tfhe.Parameters.ofJson? tfhe
        bridge := ← Json.fieldOr {} BridgeConfig.ofJson? bridge
        mode := ← Json.field (Json.toCase? RunnerMode.names) mode
        bootInterval := ← Json.fieldOr 1 Json.toCount? bootInterval
        blockSize := ← Json.fieldOr 1 Json.toCount? blockSize
        references := ← Json.fieldOr [] (Json.toList? Json.toFloat?) references }
  | _ => none

/-- The configuration of a text, valid or not. -/
def parse? (text : List Char) : Option MonitorConfig :=
  match Json.read? (Json.Token.readAll text) with
  | some (value, []) => ofJson? value
  | _ => none

/-- The valid configuration of a text. -/
def read (text : List Char) : Outcome MonitorConfig :=
  match parse? text with
  | none => .error (.monitor (.json none))
  | some c => do
    c.validate
    pure c

/-- Equality of all fields, where zeros are equal whatever their signs. -/
def same (a b : MonitorConfig) : Bool :=
  let floats (c : MonitorConfig) : List Float :=
    [c.ckks.scale, c.ckks.sigma, c.tfhe.midSigma, c.tfhe.fineSigma] ++ c.references
  let unfloat (c : MonitorConfig) : MonitorConfig :=
    { c with
      ckks := { c.ckks with scale := 0.0, sigma := 0.0 }
      tfhe := { c.tfhe with midSigma := 0.0, fineSigma := 0.0 }
      references := [] }
  floats a == floats b && unfloat a == unfloat b

/-- Whether the configuration that is read from the text of a configuration is the same; numbers read
back may be off in the last bits, and then the text may even be refused. -/
def roundTrips (c : MonitorConfig) : Outcome Bool := do
  let d ← read c.write
  pure (same d c)

end MonitorConfig

end CipherMonitor
