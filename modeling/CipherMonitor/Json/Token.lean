import CipherMonitor.Json.Numeral
import CipherMonitor.Json.Quoted

/-!
# Tokens of JSON texts

A text is a list of octets, each as the character of its code.

* `Token`, `Token.write` — the tokens and their written forms.
* `Token.first?` — the longest token at the front of a text.
* `Token.readAll` — the tokens of a text up to the first place where there is none.
-/

namespace CipherMonitor.Json

/-- A token; a text keeps its written form, and `bad` stands for what is no token. -/
inductive Token
  | openArray
  | closeArray
  | openObject
  | closeObject
  | comma
  | colon
  | null
  | flag (value : Bool)
  | number (numeral : Numeral)
  | text (raw : List Char)
  | bad
  deriving DecidableEq, Repr

/-- The octets of a text. -/
def octets (bytes : List UInt8) : List Char := bytes.map fun b => Char.ofNat b.toNat

namespace Token

/-- Whether a character separates tokens. -/
def isBlank (c : Char) : Bool := c == ' ' || c == '\n' || c == '\t' || c == '\r'

/-- The digits at the front of a text, and the rest. -/
def digitRun (text : List Char) : List Nat × List Char :=
  ((text.takeWhile Char.isDigit).map fun c => c.toNat - '0'.toNat, text.dropWhile Char.isDigit)

/-- A sign that may be missing: whether it is a minus, and the rest. -/
def exponentSign : List Char → Bool × List Char
  | '-' :: rest => (true, rest)
  | '+' :: rest => (false, rest)
  | rest => (false, rest)

/-- The exponent at the front of a text, if its mark is there; `none` if digits are missing. -/
def exponentPart? (text : List Char) : Option (Option (Bool × List Nat) × List Char) :=
  match text with
  | [] => some (none, [])
  | c :: rest =>
    if c == 'e' || c == 'E' then
      let (negative, rest) := exponentSign rest
      match digitRun rest with
      | ([], _) => none
      | (digits, rest) => some (some (negative, digits), rest)
    else some (none, c :: rest)

/-- The fraction at the front of a text, if the point is there; `none` if digits are missing. -/
def fractionPart? (text : List Char) : Option (Option (List Nat) × List Char) :=
  match text with
  | '.' :: rest =>
    match digitRun rest with
    | ([], _) => none
    | (digits, rest) => some (some digits, rest)
  | rest => some (none, rest)

/-- The whole part at the front of a text: digits without a zero in front of others. -/
def wholePart? (text : List Char) : Option (List Nat × List Char) :=
  match digitRun text with
  | ([], _) => none
  | (0 :: _ :: _, _) => none
  | (digits, rest) => some (digits, rest)

/-- The numeral at the front of a text, after its sign. -/
def numeral? (negative : Bool) (text : List Char) : Option (Token × List Char) := do
  let (whole, rest) ← wholePart? text
  let (fraction, rest) ← fractionPart? rest
  let (exponent, rest) ← exponentPart? rest
  pure (.number { negative, whole, fraction, exponent }, rest)

/-- The written form of a text up to its closing quote, and what follows the quote.  Escapes have to
be complete, and control characters are not allowed. -/
def closeQuote? : List Char → Option (List Char × List Char)
  | [] => none
  | '\"' :: rest => some ([], rest)
  | '\\' :: 'u' :: a :: b :: c :: d :: rest =>
    match hexUnit? a b c d with
    | none => none
    | some _ => (closeQuote? rest).map fun (raw, rest) => ('\\' :: 'u' :: a :: b :: c :: d :: raw, rest)
  | '\\' :: c :: rest =>
    match escapedOctet? c with
    | none => none
    | some _ => (closeQuote? rest).map fun (raw, rest) => ('\\' :: c :: raw, rest)
  | c :: rest =>
    if c.toNat < 32 || c == '\\' then none
    else (closeQuote? rest).map fun (raw, rest) => (c :: raw, rest)

/-- The token at the front of a text without blanks in front. -/
def first? : List Char → Option (Token × List Char)
  | '[' :: rest => some (.openArray, rest)
  | ']' :: rest => some (.closeArray, rest)
  | '\x7b' :: rest => some (.openObject, rest)
  | '\x7d' :: rest => some (.closeObject, rest)
  | ',' :: rest => some (.comma, rest)
  | ':' :: rest => some (.colon, rest)
  | 'n' :: 'u' :: 'l' :: 'l' :: rest => some (.null, rest)
  | 't' :: 'r' :: 'u' :: 'e' :: rest => some (.flag true, rest)
  | 'f' :: 'a' :: 'l' :: 's' :: 'e' :: rest => some (.flag false, rest)
  | '\"' :: rest => (closeQuote? rest).map fun (raw, rest) => (.text raw, rest)
  | '-' :: rest => numeral? true rest
  | input => numeral? false input

/-- At most `fuel` tokens of a text; `bad` is the last one where none can be read. -/
def readUpTo : (fuel : Nat) → List Char → List Token
  | 0, _ => []
  | fuel + 1, input =>
    match input.dropWhile isBlank with
    | [] => []
    | input =>
      match first? input with
      | none => [.bad]
      | some (token, rest) => token :: readUpTo fuel rest

/-- The tokens of a text, of which there are no more than characters. -/
def readAll (text : List Char) : List Token := readUpTo text.length text

/-- The written form of a digit. -/
def writeDigit (d : Nat) : Char := Char.ofNat ('0'.toNat + d)

/-- The written form of a numeral. -/
def writeNumeral (n : Numeral) : List Char :=
  (if n.negative then ['-'] else []) ++ n.whole.map writeDigit ++
    (match n.fraction with
      | none => []
      | some digits => '.' :: digits.map writeDigit) ++
    (match n.exponent with
      | none => []
      | some (negative, digits) =>
        'e' :: (if negative then ['-'] else []) ++ digits.map writeDigit)

/-- The written form of a token. -/
def write : Token → List Char
  | .openArray => ['[']
  | .closeArray => [']']
  | .openObject => ['\x7b']
  | .closeObject => ['\x7d']
  | .comma => [',']
  | .colon => [':']
  | .null => ['n', 'u', 'l', 'l']
  | .flag true => ['t', 'r', 'u', 'e']
  | .flag false => ['f', 'a', 'l', 's', 'e']
  | .number n => writeNumeral n
  | .text raw => '\"' :: raw ++ ['\"']
  | .bad => []

end Token

end CipherMonitor.Json
