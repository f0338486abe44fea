import BalancedLinks.Tree

/-!
# Traversals

A traversal hands out the elements of a tree one by one, in order or in reverse. It settles on the link to
go on from before it hands out an element, so that this element may be erased at once. Nothing is read
before the first element is asked for.
-/

set_option autoImplicit false

namespace BalancedLinks

/-- Where a traversal stands. -/
inductive Stage (n : Nat) where
  /-- Nothing has been asked for. -/
  | unstarted
  /-- The traversal goes on from this link. -/
  | pending (l : LinkId n)
  /-- The origin has been reached. -/
  | finished
  deriving DecidableEq

/-- A traversal towards one side. -/
structure Traversal (n : Nat) where
  towards : Side
  stage : Stage n
  deriving DecidableEq

/-- The traversal in ascending order. -/
def Traversal.ascending {n : Nat} : Traversal n :=
  ⟨.right, .unstarted⟩

/-- The traversal in descending order. -/
def Traversal.descending {n : Nat} : Traversal n :=
  ⟨.left, .unstarted⟩

/-- The next link in a direction. -/
def Links.step {α : Type} {n : Nat} (g : Links α n) (l : LinkId n) : Side → Option (LinkId n)
  | .right => g.successor l
  | .left => g.predecessor l

namespace LinkedTree

variable {α : Type} {n : Nat}

/-- The link that a traversal towards one side starts from. -/
def firstLink (x : LinkedTree α n) : Side → Option (LinkId n)
  | .right => x.links.outermost x.origin .left
  | .left => x.links.predecessor x.origin

/--
Goes on from a link to the next one with an owner, for at most the given number of links: the owner, and
the link after it.
-/
def seekWithin (x : LinkedTree α n) (towards : Side) :
    Nat → LinkId n → Except Failure (Option (α × LinkId n))
  | 0, _ => .error .endless
  | k + 1, l =>
    if l = x.origin then .ok none
    else
      match x.links.step l towards with
      | none => .error .endless
      | some next =>
        match x.links.owner l with
        | some a => .ok (some (a, next))
        | none => seekWithin x towards k next

/-- The next element of a traversal from a link, and the traversal after it. -/
def advanceFrom (x : LinkedTree α n) (towards : Side) (l : LinkId n) :
    Except Failure (Option α × Traversal n) :=
  (x.seekWithin towards (n + 1) l).map fun
    | none => (none, ⟨towards, .finished⟩)
    | some (a, next) => (some a, ⟨towards, .pending next⟩)

/-- The next element of a traversal, or none at its end, and the traversal after it. -/
def advance (x : LinkedTree α n) (t : Traversal n) : Except Failure (Option α × Traversal n) :=
  match t.stage with
  | .finished => .ok (none, t)
  | .pending l => x.advanceFrom t.towards l
  | .unstarted =>
    match x.firstLink t.towards with
    | none => .error .endless
    | some l => x.advanceFrom t.towards l

/-- At most the given number of elements of a traversal, and whether it ended. -/
def takeFrom (x : LinkedTree α n) : Nat → Traversal n → Except Failure (List α × Bool)
  | 0, _ => .ok ([], false)
  | k + 1, t =>
    match x.advance t with
    | .error failure => .error failure
    | .ok (none, _) => .ok ([], true)
    | .ok (some a, t) => (takeFrom x k t).map fun rest => (a :: rest.1, rest.2)

/-- The first elements of a traversal. -/
def take (x : LinkedTree α n) (t : Traversal n) (count : Nat) : Except Failure (List α) :=
  (x.takeFrom count t).map Prod.fst

/-- All elements of a traversal; one that has not ended after `n` elements never does. -/
def collect (x : LinkedTree α n) (t : Traversal n) : Except Failure (List α) :=
  match x.takeFrom (n + 1) t with
  | .error failure => .error failure
  | .ok (elements, true) => .ok elements
  | .ok (_, false) => .error .endless

/-- The elements in ascending order. -/
def toList (x : LinkedTree α n) : Except Failure (List α) :=
  x.collect .ascending

end LinkedTree

end BalancedLinks
