import BalancedLinks.Repair
import BalancedLinks.Verification

/-!
# Erasure

An erasure takes one link out of a tree. A link with two children first changes places with its successor,
so that no element moves from link to link and cursors on other elements stay where they are. Clearing
resets every link at once.
-/

set_option autoImplicit false

namespace BalancedLinks

namespace Links

variable {α : Type} {n : Nat}

/-! ## Changing places with the successor -/

/--
The links after `l`, with these children and this parent, has changed places with its successor, the
leftmost link below `right`, whose own parent is `successorParent`.
-/
def relinkExchanged (g : Links α n) (l left right successor parent successorParent : LinkId n) :
    Links α n :=
  let side := g.sideOf l
  let successorRight := g.child successor .right
  let balance := g.balance l
  let g := g.setBalance l (g.balance successor)
  let g := g.setBalance successor balance
  let g := g.setChild parent side (some successor)
  let g := g.setParent successor (some parent)
  let g := g.setChild successor .left (some left)
  let g := g.setParent left (some successor)
  let g :=
    if successor = right then
      (g.setChild successor .right (some l)).setParent l (some successor)
    else
      let g := g.setChild successor .right (some right)
      let g := g.setParent right (some successor)
      let g := g.setChild successorParent .left (some l)
      g.setParent l (some successorParent)
  let g := g.setChild l .left none
  let g := g.setChild l .right successorRight
  g.setParentOf successorRight l

/--
Makes a link with two children change places with its successor: references and balances are exchanged,
owners are not.
-/
def exchangeWithSuccessor (g : Links α n) (l left right : LinkId n) : Except Failure (Links α n) :=
  match g.outermost right .left with
  | none => .error .endless
  | some successor =>
    match g.parent l, g.parent successor with
    | some parent, some successorParent =>
      .ok (g.relinkExchanged l left right successor parent successorParent)
    | _, _ => .error (.violation .parentLost)

/-- The links with `l` at a place where it has at most one child. -/
def exposed (g : Links α n) (l : LinkId n) : Except Failure (Links α n) :=
  match g.child l .left, g.child l .right with
  | some left, some right => g.exchangeWithSuccessor l left right
  | _, _ => .ok g

/-! ## Taking a link out -/

/-- Hangs the only child of `l`, if it has one, in the place of `l`, and resets `l`. -/
def cutOut (g : Links α n) (l parent : LinkId n) : Links α n :=
  let child := (g.child l .left).or (g.child l .right)
  let g := g.setChild parent (g.sideOf l) child
  let g := g.setParentOf child parent
  g.reset l

/-! ## Clearing -/

/-- The children that a cleared link leaves to be cleared, the right one first. -/
def children (g : Links α n) (l : LinkId n) : List (LinkId n) :=
  (g.child l .right).toList ++ (g.child l .left).toList

/-- Resets the pending links and all that hangs below them, for at most the given number of resets. -/
def clearWithin : Nat → List (LinkId n) → Links α n → Links α n
  | 0, _, g => g
  | _, [], g => g
  | k + 1, l :: pending, g => clearWithin k (g.children l ++ pending) (g.reset l)

/--
Resets every link below the given one. A link is without children from its first reset on, so the child
references of `n` links bound the number of resets, whatever the links look like.
-/
def clearBelow (g : Links α n) (root : Option (LinkId n)) : Links α n :=
  clearWithin (2 * n + 1) root.toList g

end Links

/-- What an erasure is given: an element, or a cursor on it. -/
inductive Target (α : Type) (n : Nat) where
  | element (a : α)
  | cursor (c : Cursor n)

namespace LinkedTree

variable {α : Type} {n : Nat}

/-- The link that a target stands for, if there is one. -/
def linkOfTarget (x : LinkedTree α n) : Target α n → Option (LinkId n)
  | .element a => some (x.tree.linkOf a)
  | .cursor c => c.link

/-- The link that a target stands for, if it hangs in this tree. -/
def erasable (x : LinkedTree α n) (target : Target α n) : Except Failure (LinkId n) :=
  match x.linkOfTarget target with
  | none => .error (.violation .eraseThroughDefault)
  | some l =>
    if l = x.origin then .error (.violation .eraseEnd)
    else
      match x.owns l with
      | .error failure => .error failure
      | .ok false => .error (.violation .notInTree)
      | .ok true => .ok l

/-- Takes a link out of the tree and settles the balances above it. -/
def unlink (x : LinkedTree α n) (l : LinkId n) : Outcome (LinkedTree α n) Event Unit :=
  match x.links.exposed l with
  | .error failure => .fail x failure
  | .ok g =>
    match g.parent l with
    | none => .fail { x with links := g } (.violation .parentLost)
    | some parent =>
      let side := g.sideOf l
      let x := x.resized (g.cutOut l parent) (-1)
      (x.links.settleShrinkage parent side).within fun g => { x with links := g }

/-- Takes a link out of the tree, reports and checks. -/
def eraseLink (x : LinkedTree α n) (l : LinkId n) : Outcome (LinkedTree α n) Event Unit :=
  (x.unlink l).andThen fun x _ =>
    (Outcome.report x (.erased x.tree.size)).andThen fun x _ => x.checkAfter .erase

/-- Erases one element; the result is the cursor on the element after it, or the end. -/
def erase (x : LinkedTree α n) (target : Target α n) :
    Outcome (LinkedTree α n) Event (Cursor n) :=
  match x.erasable target with
  | .error failure => .fail x failure
  | .ok l =>
    match x.links.successor l with
    | none => .fail x .endless
    | some next => ((x.eraseLink l).map fun _ => .on next).keeping x.tree.keeps

/-- Erases all elements. -/
def clear (x : LinkedTree α n) : LinkedTree α n :=
  ⟨{ x.tree with size := 0 }, (x.links.clearBelow x.root).setChild x.origin .left none⟩

end LinkedTree

end BalancedLinks
