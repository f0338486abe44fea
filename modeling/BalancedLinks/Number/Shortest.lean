import BalancedLinks.Number

/-!
# Shortest decimals

The decimal digits of a finite number: the fewest that read back as the same number, and of those the
nearest to it. A decimal reads back when it lies between the midpoints to the two neighbouring numbers, the
midpoints included where the significand is even.
-/

set_option autoImplicit false

namespace BalancedLinks

/-- Digits without trailing zeros, and the power of ten of the last one. -/
structure DecimalDigits where
  digits : Nat
  exponent : Int
  deriving DecidableEq, Repr

namespace DecimalDigits

/-- Drops at most the given number of trailing zeros. -/
def trimWithin : Nat → DecimalDigits → DecimalDigits
  | 0, d => d
  | k + 1, d =>
    if d.digits ≠ 0 ∧ d.digits % 10 = 0 then trimWithin k ⟨d.digits / 10, d.exponent + 1⟩ else d

/-- Drops the trailing zeros. -/
def trim (d : DecimalDigits) : DecimalDigits :=
  trimWithin d.digits.log2 d

end DecimalDigits

namespace Number

/--
The open or closed interval of the values that round to a number, as natural multiples of a quarter unit.
-/
structure RoundingInterval where
  low : Nat
  high : Nat
  /-- Whether the ends round to the number too. -/
  closed : Bool
  deriving DecidableEq, Repr

/-- The rounding interval of a count of units. -/
def roundingInterval (units : Nat) : RoundingInterval :=
  let spare := units.log2 + 1 - significantBits
  let gapAbove := powerOfTwo spare
  let significand := units / gapAbove
  let gapBelow :=
    if significand = powerOfTwo (significantBits - 1) ∧ spare > 0 then gapAbove / 2 else gapAbove
  { low := 4 * units - 2 * gapBelow
    high := 4 * units + 2 * gapAbove
    closed := significand % 2 == 0 }

/-- Whether `m` · 10^`exponent` lies in the interval. -/
def RoundingInterval.contains (i : RoundingInterval) (m : Nat) (exponent : Int) : Bool :=
  let value := m * (4 * unitsOfOne) * powerOfTen exponent.toNat
  let low := i.low * powerOfTen (-exponent).toNat
  let high := i.high * powerOfTen (-exponent).toNat
  if i.closed then low ≤ value && value ≤ high else low < value && value < high

/-- The power of ten of the leading digit of a positive count of units. -/
def leadingExponent (units : Nat) : Int :=
  (decimalLength (units * powerOfTen 400 / unitsOfOne) : Int) - 401

/--
The decimal nearest to a count of units among its two neighbours on the grid of 10^`exponent` that lie in
the interval, if any does.
-/
def nearestOnGrid? (units : Nat) (i : RoundingInterval) (exponent : Int) : Option DecimalDigits :=
  let num := units * powerOfTen (-exponent).toNat
  let den := unitsOfOne * powerOfTen exponent.toNat
  let below := num / den
  let above := below + 1
  match i.contains below exponent, i.contains above exponent with
  | true, true => some ⟨roundHalfEven num den, exponent⟩
  | true, false => some ⟨below, exponent⟩
  | false, true => some ⟨above, exponent⟩
  | false, false => none

/-- The first grid with a hit, from the given number of digits on. -/
def shortestWithin (units : Nat) (i : RoundingInterval) (leading : Int) : Nat → Nat → DecimalDigits
  | 0, _ => ⟨0, 0⟩
  | k + 1, count =>
    match nearestOnGrid? units i (leading + 1 - count) with
    | some d => d.trim
    | none => shortestWithin units i leading k (count + 1)

/-- The shortest decimal of a positive count of units; seventeen digits always suffice. -/
def shortestDigits (units : Nat) : DecimalDigits :=
  shortestWithin units (roundingInterval units) (leadingExponent units) 17 1

end Number

end BalancedLinks
