/-!
# Quoted text

Text between quotation marks, as JSON writes it. A quotation mark, a backslash and the control characters
below the blank are written with a backslash, by a letter where there is one and by four digits to base 16
otherwise; every other character stands for itself.
-/

set_option autoImplicit false

namespace BalancedLinks

/-- A digit to base 16. -/
def hexDigit (d : Nat) : Char :=
  Nat.digitChar (d % 16)

/-- A 16-bit unit by its four digits to base 16. -/
def unitEscape (unit : Nat) : List Char :=
  ['\\', 'u', hexDigit (unit / 0x1000), hexDigit (unit / 0x100), hexDigit (unit / 0x10), hexDigit unit]

/-- A character as it is written between quotation marks. -/
def escaped (c : Char) : List Char :=
  if c = '"' then ['\\', '"']
  else if c = '\\' then ['\\', '\\']
  else if c = '\n' then ['\\', 'n']
  else if c = '\r' then ['\\', 'r']
  else if c = '\t' then ['\\', 't']
  else if c = '\x08' then ['\\', 'b']
  else if c = '\x0c' then ['\\', 'f']
  else if c.toNat < 0x20 then unitEscape c.toNat
  else [c]

/-- A text between quotation marks. -/
def quoted (text : String) : String :=
  "\"" ++ String.ofList (text.toList.flatMap escaped) ++ "\""

end BalancedLinks
