import BalancedLinks.Number.Text

/-!
# Balances

The balance of a link, the height of its right subtree less that of its left one. In a tree it is a small
integer, but a link can be made to record any integer, and balances are computed with 53 significant bits: a
sum that needs more is rounded to the nearest integer that does not, a half to the even one, and a sum
beyond the range of numbers is infinite. Infinities of opposite signs have no sum.

The main statement is `Balance.finite_add_finite`: up to 2^53, sums are exact.
-/

set_option autoImplicit false

namespace BalancedLinks

/-- A recorded balance. -/
inductive Balance where
  | finite (i : Int)
  | infinite (negative : Bool)
  /-- What infinities of opposite signs add up to. -/
  | undefined
  deriving DecidableEq, Repr

namespace Balance

/-- The balance of a link whose subtrees are equally high. -/
def level : Balance :=
  .finite 0

/-- A magnitude rounded to the significant bits. -/
def roundSignificant (m : Nat) : Nat :=
  let grid := Number.powerOfTwo (m.log2 + 1 - Number.significantBits)
  roundHalfEven m grid * grid

/-- The magnitude from which on a balance is infinite. -/
def overflow : Nat :=
  Number.powerOfTwo 1024

/-- An integer as it is recorded. -/
def ofInt (i : Int) : Balance :=
  if i.natAbs ≤ Number.exactLimit then .finite i
  else
    let magnitude := roundSignificant i.natAbs
    if magnitude < overflow then .finite (Number.signed (decide (i < 0)) magnitude)
    else .infinite (decide (i < 0))

/-- Up to 2^53 in magnitude, an integer is recorded as it is. -/
theorem ofInt_eq_finite {i : Int} (h : i.natAbs ≤ Number.exactLimit) : ofInt i = .finite i := by
  simp [ofInt, h]

/-! ## Arithmetic -/

/-- The sum of two balances. -/
def add : Balance → Balance → Balance
  | .undefined, _ => .undefined
  | _, .undefined => .undefined
  | .infinite a, .infinite b => if a = b then .infinite a else .undefined
  | .infinite a, .finite _ => .infinite a
  | .finite _, .infinite b => .infinite b
  | .finite a, .finite b => ofInt (a + b)

/-- The balance on the other side. -/
def neg : Balance → Balance
  | .finite i => .finite (-i)
  | .infinite negative => .infinite !negative
  | .undefined => .undefined

instance : Add Balance := ⟨add⟩

instance : Neg Balance := ⟨neg⟩

instance : Sub Balance := ⟨fun a b => a + -b⟩

instance (k : Nat) : OfNat Balance k := ⟨.finite k⟩

/-- Up to 2^53, sums are exact. -/
theorem finite_add_finite {a b : Int} (h : (a + b).natAbs ≤ Number.exactLimit) :
    (.finite a + .finite b : Balance) = .finite (a + b) :=
  ofInt_eq_finite h

/-- Up to 2^53, differences are exact. -/
theorem finite_sub_finite {a b : Int} (h : (a - b).natAbs ≤ Number.exactLimit) :
    (.finite a - .finite b : Balance) = .finite (a - b) :=
  ofInt_eq_finite h

/-- The balance where it is negative, and level where it is not. -/
def negativePart : Balance → Balance
  | .finite i => .finite (min i 0)
  | .infinite true => .infinite true
  | .infinite false => level
  | .undefined => .undefined

/-- The balance where it is positive, and level where it is not. -/
def positivePart : Balance → Balance
  | .finite i => .finite (max i 0)
  | .infinite true => level
  | .infinite false => .infinite false
  | .undefined => .undefined

/-! ## Comparison -/

/-- Whether the right subtree is the higher one by more than the given amount. -/
def exceeds : Balance → Int → Bool
  | .finite i, bound => bound < i
  | .infinite negative, _ => !negative
  | .undefined, _ => false

/-- Whether the left subtree is the higher one by more than the given amount. -/
def fallsBelow (b : Balance) (bound : Int) : Bool :=
  (-b).exceeds bound

/-- Whether the right subtree is higher. -/
def isRightHeavy (b : Balance) : Bool :=
  b.exceeds 0

/-- Whether the left subtree is higher. -/
def isLeftHeavy (b : Balance) : Bool :=
  b.fallsBelow 0

/-- Whether subtree heights that differ by this much call for a repair. -/
def isUnbalanced (b : Balance) : Bool :=
  b.exceeds 1 || b.fallsBelow 1

/-- How far a balance is from level, where an infinite one is as far as the least sum that is infinite. -/
def magnitude : Balance → Nat
  | .finite i => i.natAbs
  | .infinite _ => overflow
  | .undefined => 0

/-! ## Writing -/

/-- A balance as it is written: as the number it is. -/
def text : Balance → String
  | .finite i => integerText i
  | .infinite negative => (Number.infinity negative).text
  | .undefined => Number.notANumber.text

/-- A balance in JSON, which can write finite ones only. -/
def json (b : Balance) : String :=
  match b with
  | .finite _ => b.text
  | _ => "null"

example : (ofInt 9007199254740993).text = "9007199254740992" := by decide +kernel

example : (ofInt 1000000000000000000000).text = "1e+21" := by decide +kernel

end Balance

end BalancedLinks
