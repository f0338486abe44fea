import BalancedLinks.Balance

/-!
# Failures

Why an operation stops. A `Violation` is a cause found by this library: a caller broke the contract of
an operation, or the links do not form a balanced tree. `Violation.error` gives it as the error that is
reported, with its class, its code and its text. A `Failure` is anything that ends an operation: a
violation, a failure of the caller's own functions, or a walk over cyclic links that never ends.
-/

set_option autoImplicit false

namespace BalancedLinks

/-! ## Reported errors -/

/-- The two codes that reported errors carry. -/
inductive ErrorCode where
  | precondition
  | invariant
  deriving DecidableEq, Repr

/-- A code as it is written. -/
def ErrorCode.text : ErrorCode → String
  | .precondition => "PRECONDITION"
  | .invariant => "INVARIANT"

/-- The classes of reported errors; the general one can carry either code. -/
inductive ErrorClass where
  | precondition
  | invariantViolation
  | general (code : ErrorCode)
  deriving DecidableEq, Repr

/-- The name of an error class. -/
def ErrorClass.name : ErrorClass → String
  | .precondition => "PreconditionError"
  | .invariantViolation => "InvariantViolationError"
  | .general _ => "AvlTreeError"

/-- The code that errors of the class carry. -/
def ErrorClass.code : ErrorClass → ErrorCode
  | .precondition => .precondition
  | .invariantViolation => .invariant
  | .general code => code

/-- An error of this library as it is reported. -/
structure TreeError where
  cls : ErrorClass
  message : String
  deriving DecidableEq, Repr

/-- An error in one line: its name and its message, or the name alone when the message is empty. -/
def errorText (name message : String) : String :=
  if message.isEmpty then name else name ++ ": " ++ message

namespace TreeError

/-- The name of the error's class. -/
def name (e : TreeError) : String :=
  e.cls.name

/-- The code of the error's class. -/
def code (e : TreeError) : ErrorCode :=
  e.cls.code

/-- The error in one line. -/
def text (e : TreeError) : String :=
  errorText e.name e.message

end TreeError

/-! ## Causes -/

/-- The contracts that callers can break and the inconsistencies that links can show. -/
inductive Violation where
  /-- A default cursor has no element. -/
  | defaultCursorRead
  /-- The cursor after the last element has no element. -/
  | endCursorRead
  /-- Only a cursor on an element has a balance and children. -/
  | noElementUnderCursor
  /-- A link joins only trees of its own tag. -/
  | tagMismatch (link tree : String)
  /-- A link joins a tree only while it hangs nowhere. -/
  | alreadyLinked
  /-- A default cursor names nothing to erase. -/
  | eraseThroughDefault
  /-- The position after the last element cannot be erased. -/
  | eraseEnd
  /-- Only an element of this tree can be erased from it. -/
  | notInTree
  /-- A search met a link without an owner. -/
  | originBelowRoot
  /-- A link that hangs in a tree has a parent. -/
  | parentLost
  /-- A rotation lifts a child, which has to be there. -/
  | noRisingChild
  /-- A rotation needs a parent to hang the lifted child from. -/
  | rotateWithoutParent
  /-- A link that is out of balance has a child on its heavy side. -/
  | noHeavyChild (balance : Balance)
  /-- The end of a tree is an origin. -/
  | endNotOrigin
  /-- An origin has no parent and no right child. -/
  | originReferences
  /-- A child refers back to its parent. -/
  | parentMismatch
  /-- Every link below the root has an owner. -/
  | ownerlessBelowRoot
  /-- Every link in a tree has the tree's tag. -/
  | foreignTag (link tree : String)
  /-- The recorded balance is the difference of the subtree heights. -/
  | inexactBalance (recorded : Balance) (actual : Int)
  /-- Subtree heights differ by at most one. -/
  | heightsDiffer (difference : Int)
  /-- The size is the number of linked elements. -/
  | sizeMismatch (size : Int) (linked : Nat)
  /-- Elements increase along the tree. -/
  | notIncreasing
  deriving DecidableEq, Repr

namespace Violation

/-- Broken contracts are errors of the caller, all else is an inconsistency of the links. -/
def cls : Violation → ErrorClass
  | .defaultCursorRead | .endCursorRead | .noElementUnderCursor | .tagMismatch _ _ | .alreadyLinked
  | .eraseThroughDefault | .eraseEnd | .notInTree => .precondition
  | _ => .invariantViolation

/-- The text of a violation. -/
def message : Violation → String
  | .defaultCursorRead => "Cannot dereference a default cursor"
  | .endCursorRead => "Cannot dereference the end() cursor"
  | .noElementUnderCursor => "Cursor does not point at an element"
  | .tagMismatch link tree => "Link tagged '" ++ link ++ "' cannot join a tree of '" ++ tree ++ "' links"
  | .alreadyLinked => "Element is already linked into a tree"
  | .eraseThroughDefault => "Cannot erase through a default cursor"
  | .eraseEnd => "Cannot erase end()"
  | .notInTree => "Element is not linked into this tree"
  | .originBelowRoot => "Origin link reachable below the root"
  | .parentLost => "Linked element lost its parent"
  | .noRisingChild => "Rotation requires a child on the rising side"
  | .rotateWithoutParent => "Cannot rotate an origin or unlinked link"
  | .noHeavyChild balance =>
    "Balance factor " ++ balance.text ++ " with no child on the heavy side"
  | .endNotOrigin => "end() does not point at an origin"
  | .originReferences => "Origin may only reference the root"
  | .parentMismatch => "Child link does not point back at its parent"
  | .ownerlessBelowRoot => "Ownerless link found below the root"
  | .foreignTag link tree => "Link tagged '" ++ link ++ "' found in a tree of '" ++ tree ++ "' links"
  | .inexactBalance recorded actual =>
    "Balance factor " ++ recorded.text ++ " recorded where subtree heights give " ++ toString actual
  | .heightsDiffer difference => "Subtree heights differ by " ++ toString difference
  | .sizeMismatch size linked =>
    "Size is " ++ integerText size ++ " but " ++ toString linked ++ " elements are linked"
  | .notIncreasing => "In-order traversal is not strictly increasing"

/-- The violation as it is reported. -/
def error (v : Violation) : TreeError :=
  { cls := v.cls, message := v.message }

end Violation

/-- What can end an operation before its result. -/
inductive Failure where
  /-- The library found a violation. -/
  | violation (cause : Violation)
  /-- A function of the caller failed, with this text. -/
  | callback (message : String)
  /-- The operation follows cyclic links for ever. -/
  | endless
  deriving DecidableEq, Repr

/-- The end of a walk, or the failure of a walk without end. -/
def reached {β : Type} : Option β → Except Failure β
  | some b => .ok b
  | none => .error .endless

/-- A result that only a violation prevents. -/
def checked {β : Type} : Except Violation β → Except Failure β
  | .ok b => .ok b
  | .error cause => .error (.violation cause)

/-- A walk succeeds with its end exactly if it has that end. -/
@[simp] theorem reached_eq_ok_iff {β : Type} (o : Option β) (b : β) :
    reached o = .ok b ↔ o = some b := by
  cases o <;> simp [reached]

/-- A result that a violation can prevent succeeds exactly where none does. -/
@[simp] theorem checked_eq_ok_iff {β : Type} (e : Except Violation β) (b : β) :
    checked e = .ok b ↔ e = .ok b := by
  cases e <;> simp [checked]

end BalancedLinks
