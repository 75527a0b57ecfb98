import Formulae.Text.Visibility

/-!
# Quoted text

How a name is shown inside a structure: between double quotes, on one line, and unambiguously.
The quote, the backslash and the four controls that have a letter are escaped by a backslash; every
other character that does not show itself is written by its number in hexadecimal; the rest stands
as it is.
-/

namespace Formulae

/-- A character inside a quoted text. -/
def quotedChar (c : Char) : String :=
  if c = '"' then "\\\""
  else if c = '\\' then "\\\\"
  else if c = '\t' then "\\t"
  else if c = '\r' then "\\r"
  else if c = '\n' then "\\n"
  else if c = '\x00' then "\\0"
  else if showsItself c then c.toString
  else "\\u\x7b" ++ String.ofList (Nat.toDigits 16 c.toNat) ++ "\x7d"

/-- A text between double quotes. -/
def quoted (text : String) : String :=
  "\"" ++ String.join (text.toList.map quotedChar) ++ "\""

/-- A truth value as it is shown inside a structure. -/
def flagText (b : Bool) : String :=
  if b then "true" else "false"

end Formulae
