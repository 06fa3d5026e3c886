import CipherMonitor.Bytes.LittleEndian

/-!
# Quoted texts of JSON

The characters between the quotes are kept as they are written, one character for every octet.

* `Json.unquote?` — the text that they denote, if they are well-formed.
* `Json.quoted` — the characters that denote a text.
-/

namespace CipherMonitor.Json

/-- The value of a hexadecimal digit, a capital or a small letter from ten on. -/
def hexValue? (c : Char) : Option Nat :=
  if '0' ≤ c ∧ c ≤ '9' then some (c.toNat - 48)
  else if 'a' ≤ c ∧ c ≤ 'f' then some (c.toNat - 87)
  else if 'A' ≤ c ∧ c ≤ 'F' then some (c.toNat - 55)
  else none

/-- The value of four hexadecimal digits. -/
def hexUnit? (a b c d : Char) : Option Nat :=
  match hexValue? a, hexValue? b, hexValue? c, hexValue? d with
  | some a, some b, some c, some d => some (((16 * a + b) * 16 + c) * 16 + d)
  | _, _, _, _ => none

/-- The octet that a backslash before the character denotes. -/
def escapedOctet? (c : Char) : Option UInt8 :=
  match c with
  | '\"' => some 34
  | '\\' => some 92
  | '/' => some 47
  | 'b' => some 8
  | 'f' => some 12
  | 'n' => some 10
  | 'r' => some 13
  | 't' => some 9
  | _ => none

/-- Whether a unit of sixteen bits is the first half of a pair. -/
def isHighSurrogate (unit : Nat) : Bool := 0xd800 ≤ unit && unit < 0xdc00

/-- Whether a unit of sixteen bits is the second half of a pair. -/
def isLowSurrogate (unit : Nat) : Bool := 0xdc00 ≤ unit && unit < 0xe000

/-- The octets of a code point. -/
def octetsOf (code : Nat) : List UInt8 := (Char.ofNat code).toString.toUTF8.toList

/-- The octets of a text by its written form; halves of pairs that stand alone denote nothing. -/
def unquoteOctets? : List Char → Option (List UInt8)
  | [] => some []
  | '\\' :: 'u' :: a :: b :: c :: d :: rest =>
    match hexUnit? a b c d with
    | none => none
    | some unit =>
      if isHighSurrogate unit then
        match rest with
        | '\\' :: 'u' :: a :: b :: c :: d :: rest =>
          match hexUnit? a b c d with
          | none => none
          | some low =>
            if isLowSurrogate low then
              (unquoteOctets? rest).map
                (octetsOf (0x10000 + 0x400 * (unit - 0xd800) + (low - 0xdc00)) ++ ·)
            else none
        | _ => none
      else if isLowSurrogate unit then none
      else (unquoteOctets? rest).map (octetsOf unit ++ ·)
  | '\\' :: c :: rest =>
    match escapedOctet? c with
    | none => none
    | some octet => (unquoteOctets? rest).map (octet :: ·)
  | c :: rest => (unquoteOctets? rest).map (UInt8.ofNat c.toNat :: ·)

/-- The text by its written form, if its octets are well-formed. -/
def unquote? (raw : List Char) : Option String :=
  (unquoteOctets? raw).bind fun octets => String.fromUTF8? ⟨octets.toArray⟩

/-- The written form of an octet inside quotes. -/
def quotedOctet (octet : UInt8) : List Char :=
  let code := octet.toNat
  if code = 34 then ['\\', '\"']
  else if code = 92 then ['\\', '\\']
  else if code = 8 then ['\\', 'b']
  else if code = 9 then ['\\', 't']
  else if code = 10 then ['\\', 'n']
  else if code = 12 then ['\\', 'f']
  else if code = 13 then ['\\', 'r']
  else if code < 32 then
    ['\\', 'u', '0', '0', Nat.digitChar (code / 16), Nat.digitChar (code % 16)]
  else [Char.ofNat code]

/-- The written form of a text inside quotes. -/
def quoted (text : String) : List Char := text.toUTF8.toList.flatMap quotedOctet

end CipherMonitor.Json
