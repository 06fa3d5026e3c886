import CipherMonitor.Text.CharClass

/-!
# Quoted text

`Text.quote` shows a piece of text inside a message: in double quotes, with escapes for the
characters that would not be seen.
-/

namespace CipherMonitor.Text

/-- A code point in braces, in the fewest lower case hexadecimal digits. -/
def escapeCode (c : Char) : String :=
  "\\u\x7b" ++ String.ofList (Nat.toDigits 16 c.toNat) ++ "\x7d"

/-- One character inside double quotes. -/
def escape (c : Char) : String :=
  if c == '\x00' then "\\0"
  else if c == '\t' then "\\t"
  else if c == '\r' then "\\r"
  else if c == '\n' then "\\n"
  else if c == '\"' then "\\\""
  else if c == '\\' then "\\\\"
  else if CharClass.isCombining c || !CharClass.isVisible c then escapeCode c
  else c.toString

/-- A text in double quotes. -/
def quote (text : String) : String :=
  "\"" ++ text.toList.foldl (fun shown c => shown ++ escape c) "" ++ "\""

end CipherMonitor.Text
