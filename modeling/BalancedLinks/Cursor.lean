import BalancedLinks.Failure
import BalancedLinks.Walk

/-!
# Cursors

A cursor stands on a link, or nowhere when it is a default cursor. The cursor on a tree's origin is its
end: it has no element, and the step back from it reaches the last one. A cursor stays on its link while
other links come and go.
-/

set_option autoImplicit false

namespace BalancedLinks

/-- A position among `n` links, or none. -/
structure Cursor (n : Nat) where
  link : Option (LinkId n)
  deriving DecidableEq

namespace Cursor

variable {α : Type} {n : Nat}

/-- The cursor that stands nowhere. -/
def default : Cursor n :=
  ⟨none⟩

/-- The cursor on a link. -/
def on (l : LinkId n) : Cursor n :=
  ⟨some l⟩

/-- Whether the cursor stands on a link. -/
def isPlaced (c : Cursor n) : Bool :=
  c.link.isSome

/-- The element under the cursor. -/
def value (c : Cursor n) (g : Links α n) : Except Violation α :=
  match c.link with
  | none => .error .defaultCursorRead
  | some l =>
    match g.owner l with
    | none => .error .endCursorRead
    | some a => .ok a

/-- The link of the element under the cursor. -/
def elementLink (c : Cursor n) (g : Links α n) : Except Violation (LinkId n) :=
  match c.link with
  | none => .error .noElementUnderCursor
  | some l => if (g.owner l).isSome then .ok l else .error .noElementUnderCursor

/-- The balance recorded for the element under the cursor. -/
def balance (c : Cursor n) (g : Links α n) : Except Violation Balance :=
  (c.elementLink g).map g.balance

/-- The cursor on a child of the element; a default cursor where there is none. -/
def child (c : Cursor n) (g : Links α n) (s : Side) : Except Violation (Cursor n) :=
  (c.elementLink g).map fun l => ⟨g.child l s⟩

/-- The cursor after this one in order; a default cursor stays. -/
def next (c : Cursor n) (g : Links α n) : Except Failure (Cursor n) :=
  match c.link with
  | none => .ok c
  | some l => (reached (g.successor l)).map on

/-- The cursor before this one in order; a default cursor stays. -/
def previous (c : Cursor n) (g : Links α n) : Except Failure (Cursor n) :=
  match c.link with
  | none => .ok c
  | some l => (reached (g.predecessor l)).map on

end Cursor

end BalancedLinks
