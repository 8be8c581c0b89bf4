import Bies.Text.Extending
import Bies.Text.Ignorable

/-!
# Quoted texts

Names and words appear between double quotes in logs and traces. A quote or backslash inside is marked
by a backslash, and a character without a shape of its own is spelled by its number.
-/

namespace Bies

/-- A brace as a text of its own. -/
abbrev leftBrace : String := "\x7b"

abbrev rightBrace : String := "\x7d"

def quotedChar (c : Char) : String :=
  if c = '"' ∨ c = '\\' then String.ofList ['\\', c]
  else if c = '\n' then "\\n"
  else if c = '\r' then "\\r"
  else if c = '\t' then "\\t"
  else if c.toNat < 0x20 ∨ c.toNat = 0x7F ∨ isExtending c ∨ isIgnorable c then
    "\\u" ++ leftBrace ++ String.ofList (Nat.toDigits 16 c.toNat) ++ rightBrace
  else String.ofList [c]

def quoted (text : String) : String :=
  "\"" ++ String.join (text.toList.map quotedChar) ++ "\""

end Bies
