import BalancedLinks.Cursor
import BalancedLinks.Event
import BalancedLinks.Outcome
import BalancedLinks.Search

/-!
# Trees

A tree threads links that its elements embed: it holds an origin, knows which link of an element is its
own, and counts the elements it has linked. Several trees share the links of one world, each through links
of its own. `LinkedTree` is a tree together with that world.
-/

set_option autoImplicit false

namespace BalancedLinks

/-- A tree: what it was made with, and its size. -/
structure Tree (α : Type) (n : Nat) where
  /-- The tag of the links that can join. -/
  tag : String
  /-- The link of an element for this tree. -/
  linkOf : α → LinkId n
  /-- The link whose left child is the root. -/
  origin : LinkId n
  /-- The level of the tree's logger, if it has one. -/
  logger : Option Level
  /-- Whether every change is followed by a check of the whole tree. -/
  verify : Bool
  /-- The order that such a check requires of the elements, if any. -/
  order : Option (α → α → Ordering)
  /-- The number of elements linked so far and not unlinked. -/
  size : Int

/-- Whether the tree's logger keeps a report. -/
def Tree.keeps {α : Type} {n : Nat} (t : Tree α n) (e : Event) : Bool :=
  match t.logger with
  | none => false
  | some level => level.keeps e.level

/-- A tree together with the links of its world. -/
structure LinkedTree (α : Type) (n : Nat) where
  tree : Tree α n
  links : Links α n

namespace LinkedTree

variable {σ α : Type} {n : Nat}

/-- The tree's origin. -/
def origin (x : LinkedTree α n) : LinkId n :=
  x.tree.origin

/-- The tree with other links, and its size changed by the given amount. -/
def resized (x : LinkedTree α n) (links : Links α n) (change : Int) : LinkedTree α n :=
  ⟨{ x.tree with size := x.tree.size + change }, links⟩

/-- The root of the tree. -/
def root (x : LinkedTree α n) : Option (LinkId n) :=
  x.links.child x.origin .left

/-- Whether the tree has size zero. -/
def isEmpty (x : LinkedTree α n) : Bool :=
  x.tree.size == 0

/-- The cursor after the last element. -/
def endCursor (x : LinkedTree α n) : Cursor n :=
  .on x.origin

/-- The cursor on the first element, or the end of an empty tree. -/
def beginCursor (x : LinkedTree α n) : Except Failure (Cursor n) :=
  (reached (x.links.outermost x.origin .left)).map .on

/-- The element at the outermost place on one side of the root. -/
def extreme (x : LinkedTree α n) (s : Side) : Except Failure (Option α) :=
  match x.root with
  | none => .ok none
  | some r => (reached (x.links.outermost r s)).map x.links.owner

/-- The smallest element. -/
def min? (x : LinkedTree α n) : Except Failure (Option α) :=
  x.extreme .left

/-- The largest element. -/
def max? (x : LinkedTree α n) : Except Failure (Option α) :=
  x.extreme .right

/-- Whether an element's link hangs below this tree's origin. -/
def owns (x : LinkedTree α n) (l : LinkId n) : Except Failure Bool :=
  match x.links.owner l with
  | none => .ok false
  | some _ => (reached (x.links.top l)).map fun top => top == x.origin

/-- Whether the link of an element hangs in this tree. -/
def contains (x : LinkedTree α n) (a : α) : Except Failure Bool :=
  x.owns (x.tree.linkOf a)

/-! ## Finding -/

/-- What a search found: the elements it handed to the comparator, and the link that matched, if any. -/
structure Finding (α : Type) (n : Nat) where
  visited : List α
  result : Except Failure (Option (LinkId n))

/-- Searches for the element that a comparator matches; a way to a link without an owner finds none. -/
def locate (x : LinkedTree α n) (c : Comparator σ α) (s : σ) : Finding α n :=
  let search := x.links.search c s x.origin
  { visited := search.visited
    result :=
      match search.ending with
      | .found l => .ok (some l)
      | .vacant _ _ => .ok none
      | .ownerless => .ok none
      | .failed failure => .error failure }

/-- The cursor on the link that a search found, or the end. -/
def positionOf (x : LinkedTree α n) (l : Option (LinkId n)) : Cursor n :=
  .on (l.getD x.origin)

/-- The cursor on the element that a comparator matches, or the end. -/
def find (x : LinkedTree α n) (c : Comparator σ α) (s : σ) : Except Failure (Cursor n) :=
  (x.locate c s).result.map x.positionOf

/-- The element that a comparator matches. -/
def findElement (x : LinkedTree α n) (c : Comparator σ α) (s : σ) : Except Failure (Option α) :=
  (x.locate c s).result.map fun l => l.bind x.links.owner

end LinkedTree

end BalancedLinks
