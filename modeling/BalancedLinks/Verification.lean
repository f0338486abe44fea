import BalancedLinks.Traversal

/-!
# Verification

The full check of a tree: the shape of its origin, the references back to parents, owners, tags, exact
balances within one, the size, and on demand the order of the elements. It reports the first inconsistency
and otherwise the height of the tree.
-/

set_option autoImplicit false

namespace BalancedLinks

/-- What a check sees of a tree. -/
structure View (n : Nat) where
  tag : String
  endCursor : Cursor n
  size : Int
  deriving DecidableEq

/-- The extent of a subtree. -/
structure Extent where
  height : Nat
  count : Nat
  deriving DecidableEq, Repr

namespace Links

variable {α : Type} {n : Nat}

/-- What is wrong with a link itself, found below the given parent in a tree of the given tag. -/
def misplaced? (g : Links α n) (tag : String) (origin l parent : LinkId n) : Option Violation :=
  if g.parent l ≠ some parent then some .parentMismatch
  else if (g.owner l).isNone || l = origin then some .ownerlessBelowRoot
  else if g.tag l ≠ tag then some (.foreignTag (g.tag l) tag)
  else none

/-- What is wrong with a recorded balance over subtrees whose heights differ by `actual`. -/
def misbalanced? (recorded : Balance) (actual : Int) : Option Violation :=
  if recorded ≠ .finite actual then some (.inexactBalance recorded actual)
  else if actual > 1 ∨ actual < -1 then some (.heightsDiffer actual)
  else none

/--
Measures the subtree below a child slot of `parent`, each link before its subtrees and its balance after
them, along paths of at most the given number of links.
-/
def measureWithin (g : Links α n) (tag : String) (origin : LinkId n) :
    Nat → Option (LinkId n) → LinkId n → Except Failure Extent
  | _, none, _ => .ok ⟨0, 0⟩
  | 0, some _, _ => .error .endless
  | k + 1, some l, parent =>
    match g.misplaced? tag origin l parent with
    | some cause => .error (.violation cause)
    | none =>
      match measureWithin g tag origin k (g.child l .left) l with
      | .error failure => .error failure
      | .ok left =>
        match measureWithin g tag origin k (g.child l .right) l with
        | .error failure => .error failure
        | .ok right =>
          match misbalanced? (g.balance l) (right.height - left.height) with
          | some cause => .error (.violation cause)
          | none => .ok ⟨1 + max left.height right.height, left.count + right.count + 1⟩

/-- Measures the tree below an origin. -/
def measure (g : Links α n) (tag : String) (origin : LinkId n) : Except Failure Extent :=
  g.measureWithin tag origin n (g.child origin .left) origin

end Links

namespace LinkedTree

variable {α : Type} {n : Nat}

/-- What a check sees of the tree as it is. -/
def view (x : LinkedTree α n) : View n :=
  { tag := x.tree.tag, endCursor := x.endCursor, size := x.tree.size }

/--
Goes on in order from a link, for at most the given number of links, and requires each element to come
strictly after the one before it.
-/
def increasingWithin (x : LinkedTree α n) (order : α → α → Ordering) :
    Nat → LinkId n → Option α → Except Failure Unit
  | 0, _, _ => .error .endless
  | k + 1, l, previous =>
    if l = x.origin then .ok ()
    else
      match x.links.successor l with
      | none => .error .endless
      | some next =>
        match x.links.owner l with
        | none => increasingWithin x order k next previous
        | some a =>
          if previous.any fun b => order b a ≠ .lt then .error (.violation .notIncreasing)
          else increasingWithin x order k next (some a)

/--
Requires the elements to increase strictly. Every neighbouring pair of a walk through `n` links shows
within twice as many steps, also where the walk runs into a cycle.
-/
def checkIncreasing (x : LinkedTree α n) (order : α → α → Ordering) : Except Failure Unit :=
  match x.firstLink .right with
  | none => .error .endless
  | some l => x.increasingWithin order (2 * n + 2) l none

/-- Checks the tree as a view shows it: the height, or the first inconsistency. -/
def verifyAs (x : LinkedTree α n) (view : View n) (order : Option (α → α → Ordering)) :
    Except Failure Nat :=
  match view.endCursor.link with
  | none => .error (.violation .endNotOrigin)
  | some origin =>
    if (x.links.owner origin).isSome then .error (.violation .endNotOrigin)
    else if (x.links.parent origin).isSome || (x.links.child origin .right).isSome then
      .error (.violation .originReferences)
    else
      match x.links.measure view.tag origin with
      | .error failure => .error failure
      | .ok extent =>
        if (extent.count : Int) ≠ view.size then
          .error (.violation (.sizeMismatch view.size extent.count))
        else
          match order with
          | none => .ok extent.height
          | some order => (x.checkIncreasing order).map fun _ => extent.height

/-- Checks the tree: the height, or the first inconsistency. -/
def verify (x : LinkedTree α n) (order : Option (α → α → Ordering)) : Except Failure Nat :=
  x.verifyAs x.view order

/-- The check that follows a change where the tree asks for one; what it finds is reported. -/
def checkAfter (x : LinkedTree α n) (change : Change) : Outcome (LinkedTree α n) Event Unit :=
  if x.tree.verify then
    match x.verify x.tree.order with
    | .ok _ => .pure x ()
    | .error (.violation cause) => ⟨x, [.violated change cause], .error (.violation cause)⟩
    | .error failure => .fail x failure
  else .pure x ()

end LinkedTree

end BalancedLinks
