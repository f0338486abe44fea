import BalancedLinks.Link

/-!
# Walks

Ways through the links of a tree: down one side as far as it goes, up to the top, and one step along the
order of the elements. In a tree every walk ends; where references form a cycle a walk may not, and then
its result is none. A walk that ends passes each link at most once, so `n` links bound it.
-/

set_option autoImplicit false

namespace BalancedLinks

namespace Links

variable {α : Type} {n : Nat}

/-- Goes down one side for at most the given number of links. -/
def descendWithin (g : Links α n) (s : Side) : Nat → LinkId n → Option (LinkId n)
  | 0, _ => none
  | k + 1, l =>
    match g.child l s with
    | none => some l
    | some c => descendWithin g s k c

/-- The last link on the way down one side: the leftmost or the rightmost descendant. -/
def outermost (g : Links α n) (l : LinkId n) (s : Side) : Option (LinkId n) :=
  g.descendWithin s n l

/-- Goes up while the link hangs on the given side, for at most the given number of links. -/
def ascendWithin (g : Links α n) (s : Side) : Nat → LinkId n → Option (LinkId n)
  | 0, _ => none
  | k + 1, l =>
    match g.parent l with
    | none => some l
    | some p => if g.child p s = some l then ascendWithin g s k p else some p

/-- The first ancestor that is not reached from the given side, or the top of the way up. -/
def turningPoint (g : Links α n) (l : LinkId n) (s : Side) : Option (LinkId n) :=
  g.ascendWithin s n l

/-- Goes up to a link without a parent, for at most the given number of links. -/
def topWithin (g : Links α n) : Nat → LinkId n → Option (LinkId n)
  | 0, _ => none
  | k + 1, l =>
    match g.parent l with
    | none => some l
    | some p => topWithin g k p

/-- The link without a parent above this one. -/
def top (g : Links α n) (l : LinkId n) : Option (LinkId n) :=
  g.topWithin n l

/--
The next link towards one side: the nearest descendant on that side, or else the first ancestor that is
reached from its other side.
-/
def neighbour (g : Links α n) (l : LinkId n) (s : Side) : Option (LinkId n) :=
  match g.child l s with
  | some c => g.outermost c s.other
  | none => g.turningPoint l s

/-- The next link in order; the origin follows the last element and itself. -/
def successor (g : Links α n) (l : LinkId n) : Option (LinkId n) :=
  if g.isOrigin l then some l else g.neighbour l .right

/-- The link before this one in order; the last element comes before the origin. -/
def predecessor (g : Links α n) (l : LinkId n) : Option (LinkId n) :=
  g.neighbour l .left

end Links

end BalancedLinks
