import BalancedLinks.Loading
import BalancedLinks.Number

/-!
# Items and their orders

The elements of a session: each has a value, an index, and two links of its own. Items are compared by value
or by index, sought by keys, and loaded in an order; a caller's comparison can be made to fail at one of its
answers.
-/

set_option autoImplicit false

namespace BalancedLinks

/-- An element of a session. -/
structure Item (n : Nat) where
  id : Nat
  value : Number
  index : Int
  primary : LinkId n
  secondary : LinkId n
  deriving DecidableEq

namespace Item

variable {n : Nat}

/-- The index as a number to compare with. -/
def indexNumber (a : Item n) : Number :=
  .ofInt a.index

end Item

/-! ## Orders between items -/

/-- An order between items, as the sign of a difference. -/
inductive Criterion where
  | value
  | descending
  | index
  | zero
  deriving DecidableEq, Repr

/-- The answer of an order for two items. -/
def Criterion.order {n : Nat} (c : Criterion) (a b : Item n) : Ordering :=
  match c with
  | .value => Number.signOfDifference a.value b.value
  | .descending => Number.signOfDifference b.value a.value
  | .index => Number.signOfDifference a.indexNumber b.indexNumber
  | .zero => .eq

/-- The whole part of a quotient. -/
def wholeQuotient (x divisor : Number) : Number :=
  (x.div divisor).floor

/-! ## Searches -/

/-- What is sought among items. -/
inductive Sought where
  | value (key : Number)
  | descending (key : Number)
  | index (key : Number)
  /-- The same answer always. -/
  | constant (answer : Number)
  /-- The whole part of the key over a divisor. -/
  | quotient (key divisor : Number)
  /-- Answers in order whatever the item, and matches once they run out. -/
  | answers (answers : List Number)
  deriving DecidableEq, Repr

/-- The answer for an item after so many answers. -/
def Sought.answer {n : Nat} (s : Sought) (given : Nat) (a : Item n) : Ordering :=
  match s with
  | .value key => Number.signOfDifference key a.value
  | .descending key => Number.signOfDifference a.value key
  | .index key => Number.signOfDifference key a.indexNumber
  | .constant x => x.sign
  | .quotient key divisor =>
    Number.signOfDifference (wholeQuotient key divisor) (wholeQuotient a.value divisor)
  | .answers xs => (xs.getD given .zero).sign

/-- How many answers hang on how many were given before. -/
def Sought.memory : Sought → Nat
  | .answers xs => xs.length
  | _ => 0

/-- A search for something, which fails at the given answer if there is one. -/
structure Query where
  sought : Sought
  failAt : Option Nat
  deriving DecidableEq, Repr

/-- The comparator of a query, which counts its answers. -/
def Query.comparator {n : Nat} (q : Query) : Comparator Nat (Item n) :=
  { ask := fun given a =>
      if q.failAt = some (given + 1) then .error "comparator failed"
      else .ok (q.sought.answer given a, given + 1)
    memory := max q.sought.memory (q.failAt.getD 0) }

/-! ## Orders for loading -/

/-- When one item comes before another. -/
inductive Precedence where
  | value
  | descending
  | index
  | never
  | always
  /-- By the whole parts of the values over a divisor. -/
  | quotient (divisor : Number)
  deriving DecidableEq, Repr

/-- Whether the first item comes before the second. -/
def Precedence.holds {n : Nat} (p : Precedence) (a b : Item n) : Bool :=
  match p with
  | .value => a.value.lt b.value
  | .descending => b.value.lt a.value
  | .index => a.indexNumber.lt b.indexNumber
  | .never => false
  | .always => true
  | .quotient divisor => (wholeQuotient a.value divisor).lt (wholeQuotient b.value divisor)

/-- An order for loading, which fails at the given answer if there is one. -/
structure Ranking where
  precedence : Precedence
  failAt : Option Nat
  deriving DecidableEq, Repr

/-- The order of a ranking, which counts its answers. -/
def Ranking.less {n : Nat} (r : Ranking) : Less Nat (Item n) :=
  { ask := fun given a b =>
      if r.failAt = some (given + 1) then .error "less failed"
      else .ok (r.precedence.holds a b, given + 1)
    memory := r.failAt.getD 0 }

end BalancedLinks
