import BalancedLinks.Number.Shortest

/-!
# Numbers as text

A number is written with the fewest digits that read back. `NumberStyle` says which magnitudes are written
in full and which with an exponent, and `Number.written` is the one style that this library writes.
-/

set_option autoImplicit false

namespace BalancedLinks

/-- Which numbers are written in full, and the words for the others that have no digits. -/
structure NumberStyle where
  /-- The most digits before the point that are written in full. -/
  mostIntegerDigits : Int
  /-- The most zeros between the point and the first digit that are written in full. -/
  mostLeadingZeros : Int
  notANumber : String
  infinity : String
  deriving DecidableEq, Repr

namespace NumberStyle

/-- The given number of zeros. -/
def zeros (count : Int) : String :=
  String.ofList (List.replicate count.toNat '0')

/-- An exponent with its sign. -/
def exponentText (e : Int) : String :=
  (if e < 0 then "e-" else "e+") ++ toString e.natAbs

/-- Digits laid out with the point after the given number of them. -/
def layOut (style : NumberStyle) (digits : List Char) (point : Int) : String :=
  let count : Int := digits.length
  if count ≤ point ∧ point ≤ style.mostIntegerDigits then
    String.ofList digits ++ zeros (point - count)
  else if 0 < point ∧ point ≤ style.mostIntegerDigits then
    String.ofList (digits.take point.toNat) ++ "." ++ String.ofList (digits.drop point.toNat)
  else if -style.mostLeadingZeros ≤ point ∧ point ≤ 0 then
    "0." ++ zeros (-point) ++ String.ofList digits
  else
    let fraction := if digits.length > 1 then "." ++ String.ofList (digits.drop 1) else ""
    String.ofList (digits.take 1) ++ fraction ++ exponentText (point - 1)

/-- A number in this style; zero is written without a sign. -/
def text (style : NumberStyle) : Number → String
  | .notANumber => style.notANumber
  | .infinity negative => (if negative then "-" else "") ++ style.infinity
  | .finite negative units =>
    if units = 0 then "0"
    else
      let shortest := Number.shortestDigits units
      let digits := Nat.toDigits 10 shortest.digits
      (if negative then "-" else "") ++ style.layOut digits (digits.length + shortest.exponent)

end NumberStyle

/-- Up to 21 digits before the point, or 5 zeros after it, are written in full. -/
def Number.written : NumberStyle :=
  { mostIntegerDigits := 21, mostLeadingZeros := 5, notANumber := "NaN", infinity := "Infinity" }

/-- A number as it is written. -/
def Number.text (x : Number) : String :=
  Number.written.text x

/-- An integer as it is written: as the nearest number, which up to 2^53 is the integer with all its digits. -/
def integerText (i : Int) : String :=
  if i.natAbs ≤ Number.exactLimit then toString i else (Number.ofInt i).text

/-! Both ends of what is written in full, and zero. -/

example : (Number.ofDecimal false 1 20).text = "100000000000000000000" := by decide +kernel

example : (Number.ofDecimal false 15 20).text = "1.5e+21" := by decide +kernel

example : (Number.ofDecimal true 1 (-6)).text = "-0.000001" := by decide +kernel

example : (Number.ofDecimal true 1 (-7)).text = "-1e-7" := by decide +kernel

example : (Number.ofDecimal true 0 0).text = "0" := by decide +kernel

end BalancedLinks
