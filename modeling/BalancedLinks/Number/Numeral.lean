import BalancedLinks.Number

/-!
# Numerals

How a text is read as a number: blanks around it are dropped, and what is left is a decimal numeral with an
optional sign, fraction and exponent, a word for infinity, or an unsigned numeral to base 16, 8 or 2 behind
its mark.
-/

set_option autoImplicit false

namespace BalancedLinks

/-- The characters that may surround a numeral: the space separators, line ends, tabs and the byte order mark. -/
def isBlank (c : Char) : Bool :=
  let code := c.toNat
  (9 ≤ code && code ≤ 13) || code == 0x20 || code == 0xA0 || code == 0x1680
    || (0x2000 ≤ code && code ≤ 0x200A) || code == 0x2028 || code == 0x2029 || code == 0x202F
    || code == 0x205F || code == 0x3000 || code == 0xFEFF

/-- A text without the blanks around it. -/
def trimBlanks (text : List Char) : List Char :=
  ((text.dropWhile isBlank).reverse.dropWhile isBlank).reverse

namespace Numeral

/-- The value of a digit in any base up to sixteen. -/
def digitValue? (c : Char) : Option Nat :=
  if '0' ≤ c ∧ c ≤ '9' then some (c.toNat - '0'.toNat)
  else if 'a' ≤ c ∧ c ≤ 'f' then some (c.toNat - 'a'.toNat + 10)
  else if 'A' ≤ c ∧ c ≤ 'F' then some (c.toNat - 'A'.toNat + 10)
  else none

/-- The value of digits to a base, if each is one of its digits and there is at least one. -/
def natural? (base : Nat) (digits : List Char) : Option Nat :=
  if digits.isEmpty then none
  else
    digits.foldl (fun sum c =>
      match sum, digitValue? c with
      | some sum, some d => if d < base then some (sum * base + d) else none
      | _, _ => none) (some 0)

/-- A sign in front of a text, and the rest. -/
def takeSign : List Char → Bool × List Char
  | '-' :: rest => (true, rest)
  | '+' :: rest => (false, rest)
  | text => (false, text)

/-- An exponent, or zero where none is written. -/
def exponent? : List Char → Option Int
  | [] => some 0
  | e :: rest =>
    if e = 'e' ∨ e = 'E' then
      let (negative, digits) := takeSign rest
      (natural? 10 digits).map (Number.signed negative)
    else none

/-- An unsigned decimal numeral: digits with an optional point among them, then an optional exponent. -/
def decimal? (negative : Bool) (text : List Char) : Option Number :=
  let whole := text.takeWhile Char.isDigit
  let rest := text.dropWhile Char.isDigit
  let (fraction, rest) :=
    match rest with
    | '.' :: rest => (rest.takeWhile Char.isDigit, rest.dropWhile Char.isDigit)
    | rest => ([], rest)
  match natural? 10 (whole ++ fraction), exponent? rest with
  | some digits, some exponent => some (Number.ofDecimal negative digits (exponent - fraction.length))
  | _, _ => none

/-- A numeral without blanks around it. -/
def number? (text : List Char) : Option Number :=
  match text with
  | '0' :: mark :: digits =>
    if mark = 'x' ∨ mark = 'X' then (natural? 16 digits).map fun m => Number.ofInt m
    else if mark = 'o' ∨ mark = 'O' then (natural? 8 digits).map fun m => Number.ofInt m
    else if mark = 'b' ∨ mark = 'B' then (natural? 2 digits).map fun m => Number.ofInt m
    else decimal? false text
  | _ =>
    let (negative, rest) := takeSign text
    if rest = "Infinity".toList then some (.infinity negative) else decimal? negative rest

end Numeral

/-- The number that a text is a numeral of, if it is one. -/
def Number.ofText? (text : String) : Option Number :=
  Numeral.number? (trimBlanks text.toList)

/-! A mark takes no sign, a fraction needs no digits on one side, and a half goes to the even neighbour. -/

example : Number.ofText? " 0x1F\n" = some (.ofInt 31) := by decide +kernel

example : Number.ofText? "-0x1F" = none := by decide +kernel

example : Number.ofText? "5.e1" = some (.ofInt 50) ∧ Number.ofText? "." = none := by decide +kernel

example : Number.ofText? "9007199254740993" = some (.ofInt 9007199254740992) := by decide +kernel

end BalancedLinks
