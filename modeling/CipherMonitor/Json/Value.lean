import CipherMonitor.Json.Token

/-!
# JSON values

* `Json` — values, with numerals and texts as they are written.
* `Json.read?` — the value at the front of a list of tokens, without a bound on its depth.
* `Json.toTokens`, `Json.write` — the tokens and the text of a value, without blanks.
-/

namespace CipherMonitor

/-- A value; the members of an object keep their order and may repeat a name. -/
inductive Json
  | null
  | flag (value : Bool)
  | number (numeral : Json.Numeral)
  | text (raw : List Char)
  | array (items : List Json)
  | object (members : List (List Char × Json))

namespace Json

/-- A container whose end is not yet read, with its parts so far in reverse order, and for an object
the name of the member to come. -/
inductive Container
  | items (done : List Json)
  | members (done : List (List Char × Json)) (name : List Char)

mutual

/-- The value at the front, inside of the given containers, the innermost first. -/
def readIn (within : List Container) : List Token → Option (Json × List Token)
  | .null :: rest => afterValue within .null rest
  | .flag b :: rest => afterValue within (.flag b) rest
  | .number n :: rest => afterValue within (.number n) rest
  | .text raw :: rest => afterValue within (.text raw) rest
  | .openArray :: .closeArray :: rest => afterValue within (.array []) rest
  | .openArray :: rest => readIn (.items [] :: within) rest
  | .openObject :: .closeObject :: rest => afterValue within (.object []) rest
  | .openObject :: .text name :: .colon :: rest => readIn (.members [] name :: within) rest
  | _ => none

/-- Puts a complete value into the innermost container and goes on behind it. -/
def afterValue (within : List Container) (value : Json) : List Token → Option (Json × List Token)
  | .comma :: .text name :: .colon :: rest =>
    match within with
    | [] => some (value, .comma :: .text name :: .colon :: rest)
    | .items done :: outer =>
      readIn (.items (value :: done) :: outer) (.text name :: .colon :: rest)
    | .members done last :: outer => readIn (.members ((last, value) :: done) name :: outer) rest
  | .comma :: rest =>
    match within with
    | [] => some (value, .comma :: rest)
    | .items done :: outer => readIn (.items (value :: done) :: outer) rest
    | .members .. :: _ => none
  | .closeArray :: rest =>
    match within with
    | [] => some (value, .closeArray :: rest)
    | .items done :: outer => afterValue outer (.array (value :: done).reverse) rest
    | .members .. :: _ => none
  | .closeObject :: rest =>
    match within with
    | [] => some (value, .closeObject :: rest)
    | .members done last :: outer =>
      afterValue outer (.object ((last, value) :: done).reverse) rest
    | .items _ :: _ => none
  | rest => if within.isEmpty then some (value, rest) else none

end

/-- The value at the front of a list of tokens, and the tokens behind it. -/
def read? (tokens : List Token) : Option (Json × List Token) := readIn [] tokens

mutual

/-- The tokens of a value. -/
def toTokens : Json → List Token
  | .null => [.null]
  | .flag b => [.flag b]
  | .number n => [.number n]
  | .text raw => [.text raw]
  | .array [] => [.openArray, .closeArray]
  | .array (item :: items) => .openArray :: toTokens item ++ itemTokens items
  | .object [] => [.openObject, .closeObject]
  | .object ((name, value) :: members) =>
    .openObject :: .text name :: .colon :: toTokens value ++ memberTokens members

/-- The tokens of the further items of an array, with its end. -/
def itemTokens : List Json → List Token
  | [] => [.closeArray]
  | item :: items => .comma :: toTokens item ++ itemTokens items

/-- The tokens of the further members of an object, with its end. -/
def memberTokens : List (List Char × Json) → List Token
  | [] => [.closeObject]
  | (name, value) :: members =>
    .comma :: .text name :: .colon :: toTokens value ++ memberTokens members

end

/-- The text of a value. -/
def write (value : Json) : List Char := value.toTokens.flatMap Token.write

/-! ### Values from data -/

/-- The value of a natural number. -/
def ofNat (n : Nat) : Json := .number (.ofNat n)

/-- The value of a double; those that are not finite become `null`. -/
def ofFloat (x : Float) : Json :=
  match Numeral.ofFloat? x with
  | some n => .number n
  | none => .null

/-- The value of a text. -/
def ofText (text : String) : Json := .text (quoted text)

/-- The value of a list. -/
def ofList {α : Type} (f : α → Json) (xs : List α) : Json := .array (xs.map f)

/-- The value of a record, by the names of its fields. -/
def ofFields (fields : List (String × Json)) : Json :=
  .object (fields.map fun (name, value) => (quoted name, value))

/-! ### Data from values -/

/-- A natural number below a bound. -/
def toNat? (bound : Nat) : Json → Option Nat
  | .number n => n.toNat?.filter (· < bound)
  | _ => none

/-- A double. -/
def toFloat? : Json → Option Float
  | .number n => n.toFloat?
  | _ => none

/-- A list. -/
def toList? {α : Type} (f : Json → Option α) : Json → Option (List α)
  | .array items => items.mapM f
  | _ => none

/-- One of several cases, by its name: as a text, or as an object whose only member has that name
and is `null`. -/
def toCase? {α : Type} (cases : List (String × α)) : Json → Option α
  | .text raw | .object [(raw, .null)] => (unquote? raw).bind (cases.lookup ·)
  | _ => none

/-- The members of a record with the given field names, in this order, `none` for those that are
missing.  An object may have further members, but no field twice; an array holds the first fields. -/
def toFields? (names : List String) : Json → Option (List (Option Json))
  | .object members => do
    let members ← members.mapM fun (raw, value) => (unquote? raw).map (·, value)
    names.mapM fun name =>
      match members.filter (·.1 == name) with
      | [] => some none
      | [(_, value)] => some (some value)
      | _ => none
  | .array items =>
    if names.length < items.length then none
    else some (items.map some ++ List.replicate (names.length - items.length) none)
  | _ => none

/-- A field that may be missing. -/
def fieldOr {α : Type} (default : α) (f : Json → Option α) : Option Json → Option α
  | none => some default
  | some value => f value

/-- A field that has to be there. -/
def field {α : Type} (f : Json → Option α) : Option Json → Option α
  | none => none
  | some value => f value

end Json

end CipherMonitor
