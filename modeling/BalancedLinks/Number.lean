/-!
# Numbers

Binary floating-point numbers with 53 significant bits and exponents down to -1074: not a number, the two
infinities, and the finite numbers, each a sign and a natural number of units of 2^-1074. Zero has both
signs. Every operation here gives the exact result rounded to the nearest number, halves to the even one. Of a
difference only the sign is told, which no rounding can change.
-/

set_option autoImplicit false

namespace BalancedLinks

/-- A binary floating-point number. -/
inductive Number where
  | notANumber
  | infinity (negative : Bool)
  /-- A count of units of 2^-1074, with a sign that zero has too. -/
  | finite (negative : Bool) (units : Nat)
  deriving DecidableEq, Repr

/-- The quotient rounded to the nearest natural number, a half to the even one. -/
def roundHalfEven (num den : Nat) : Nat :=
  let q := num / den
  let twice := 2 * (num % den)
  if twice < den then q
  else if twice > den then q + 1
  else if q % 2 = 0 then q
  else q + 1

namespace Number

/-- A power of two. -/
def powerOfTwo (k : Nat) : Nat :=
  Nat.pow 2 k

/-- A power of ten. -/
def powerOfTen (k : Nat) : Nat :=
  Nat.pow 10 k

/-- The number of binary places of a unit. -/
def unitPlaces : Nat := 1074

/-- How many units make one. -/
def unitsOfOne : Nat :=
  powerOfTwo unitPlaces

/-- The number of significant bits. -/
def significantBits : Nat := 53

/-- Every integer up to this magnitude is a number. -/
def exactLimit : Nat :=
  powerOfTwo significantBits

/-- The count of units from which on a magnitude is infinite. -/
def overflow : Nat :=
  powerOfTwo 2098

/-- Zero without a sign. -/
def zero : Number :=
  .finite false 0

/-- The units of a quotient of natural numbers, rounded to the significant bits. -/
def roundedUnits (num den : Nat) : Nat :=
  let scaled := num * unitsOfOne
  let grid := powerOfTwo ((scaled / den).log2 + 1 - significantBits)
  roundHalfEven scaled (den * grid) * grid

/-- The number nearest to a quotient of natural numbers, of the given sign; the divisor is not zero. -/
def ofQuotient (negative : Bool) (num den : Nat) : Number :=
  let units := roundedUnits num den
  if units < overflow then .finite negative units else .infinity negative

/-- The number nearest to an integer. -/
def ofInt (i : Int) : Number :=
  ofQuotient (decide (i < 0)) i.natAbs 1

/-- How many decimal digits a natural number has. -/
def decimalLength (m : Nat) : Nat :=
  (Nat.toDigits 10 m).length

/--
The number nearest to `digits` · 10^`exponent`. Exponents far outside the range of finite numbers are
settled by the place of the leading digit alone.
-/
def ofDecimal (negative : Bool) (digits : Nat) (exponent : Int) : Number :=
  if digits = 0 then .finite negative 0
  else
    let leading := (decimalLength digits : Int) + exponent
    if leading > 310 then .infinity negative
    else if leading < -330 then .finite negative 0
    else if exponent ≥ 0 then ofQuotient negative (digits * powerOfTen exponent.toNat) 1
    else ofQuotient negative digits (powerOfTen (-exponent).toNat)

/-! ## Order -/

/-- A count of units with its sign. -/
def signed (negative : Bool) (units : Nat) : Int :=
  if negative then -(units : Int) else units

/-- Whether one number is less than another; nothing is, beside what is not a number. -/
def lt : Number → Number → Bool
  | .notANumber, _ => false
  | _, .notANumber => false
  | .infinity a, .infinity b => a && !b
  | .infinity a, .finite _ _ => a
  | .finite _ _, .infinity b => !b
  | .finite a u, .finite b v => signed a u < signed b v

/-- Whether the number is neither infinite nor not a number. -/
def isFinite : Number → Bool
  | .finite _ _ => true
  | _ => false

/-- The sign of a number as an answer: what is neither zero nor above it counts as below. -/
def sign : Number → Ordering
  | .notANumber => .lt
  | .infinity negative => if negative then .lt else .gt
  | .finite negative units => compare (signed negative units) 0

/--
The sign of the difference of two numbers as an answer: what is neither zero nor above it counts as below.
Infinities of one sign differ by what is not a number; all else differs by a number of the sign that the
order tells, however small the difference.
-/
def signOfDifference : Number → Number → Ordering
  | .notANumber, _ => .lt
  | _, .notANumber => .lt
  | .infinity a, .infinity b => if a = b then .lt else if a then .lt else .gt
  | .infinity a, .finite _ _ => if a then .lt else .gt
  | .finite _ _, .infinity b => if b then .gt else .lt
  | .finite a u, .finite b v => compare (signed a u) (signed b v)

/-! ## Division -/

/-- The quotient of two numbers. -/
def div : Number → Number → Number
  | .notANumber, _ => .notANumber
  | _, .notANumber => .notANumber
  | .infinity _, .infinity _ => .notANumber
  | .infinity a, .finite b _ => .infinity (a != b)
  | .finite a _, .infinity b => .finite (a != b) 0
  | .finite a u, .finite b v =>
    if v = 0 then
      if u = 0 then .notANumber else .infinity (a != b)
    else ofQuotient (a != b) u v

/-- The largest whole number not above a number. -/
def floor : Number → Number
  | .finite false units => .finite false (units / unitsOfOne * unitsOfOne)
  | .finite true units => .finite true ((units + unitsOfOne - 1) / unitsOfOne * unitsOfOne)
  | x => x

end Number

end BalancedLinks
