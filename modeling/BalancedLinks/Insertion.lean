import BalancedLinks.Repair
import BalancedLinks.Verification

/-!
# Insertion

An insertion searches for an element, and on a miss links the element that the caller supplies at the place
where the search ended. The caller is asked for an element at most once, and only on a miss; it may decline.
-/

set_option autoImplicit false

namespace BalancedLinks

/-- Where an insertion ended, and whether it linked an element. -/
structure Placement (n : Nat) where
  cursor : Cursor n
  inserted : Bool
  deriving DecidableEq

/-- An insertion that has ended. -/
structure Insertion (σ α : Type) (n : Nat) where
  outcome : Outcome (LinkedTree α n) Event (Placement n)
  /-- The elements handed to the comparator, in order. -/
  visited : List α
  /-- How often the caller was asked for an element. -/
  made : Nat
  /-- The state that the comparator was left in. -/
  state : σ

/-- Hangs a link below a parent on the given side. -/
def Links.hang {α : Type} {n : Nat} (g : Links α n) (l parent : LinkId n) (side : Side) : Links α n :=
  ((g.setParent l (some parent)).setBalance l .level).setChild parent side (some l)

namespace LinkedTree

variable {σ α : Type} {n : Nat}

/-- Why an element's link cannot join the tree, if it cannot. -/
def refuses? (x : LinkedTree α n) (l : LinkId n) : Option Violation :=
  if x.links.tag l ≠ x.tree.tag then some (.tagMismatch (x.links.tag l) x.tree.tag)
  else if (x.links.owner l).isNone || (x.links.parent l).isSome || (x.links.child l .left).isSome
      || (x.links.child l .right).isSome then some .alreadyLinked
  else none

/-- Hangs a link into a vacant place, settles the balances above it, reports and checks. -/
def linkAt (x : LinkedTree α n) (l parent : LinkId n) (side : Side) :
    Outcome (LinkedTree α n) Event (Placement n) :=
  let x := x.resized (x.links.hang l parent side) 1
  ((x.links.settleGrowth l).within fun g => { x with links := g }).andThen fun x _ =>
    (Outcome.report x (.inserted x.tree.size)).andThen fun x _ =>
      (x.checkAfter .insert).map fun _ => ⟨.on l, true⟩

/-- Links the element that the caller supplied for a vacant place, or nothing if the caller declined. -/
def supplyAt (x : LinkedTree α n) (supply : Except String (Option α)) (parent : LinkId n) (side : Side) :
    Outcome (LinkedTree α n) Event (Placement n) :=
  match supply with
  | .error message => .fail x (.callback message)
  | .ok none => .pure x ⟨x.endCursor, false⟩
  | .ok (some a) =>
    match x.refuses? (x.tree.linkOf a) with
    | some cause => .fail x (.violation cause)
    | none => x.linkAt (x.tree.linkOf a) parent side

/-- Finds the element that the comparator matches, or else links the one that the caller supplies. -/
def insert (x : LinkedTree α n) (c : Comparator σ α) (s : σ) (supply : Except String (Option α)) :
    Insertion σ α n :=
  let search := x.links.search c s x.origin
  let ended (outcome : Outcome (LinkedTree α n) Event (Placement n)) (made : Nat) : Insertion σ α n :=
    { outcome := outcome.keeping x.tree.keeps, visited := search.visited, made, state := search.state }
  match search.ending with
  | .found l => ended (.pure x ⟨.on l, false⟩) 0
  | .ownerless => ended (.fail x (.violation .originBelowRoot)) 0
  | .failed failure => ended (.fail x failure) 0
  | .vacant parent side => ended (x.supplyAt supply parent side) 1

end LinkedTree

end BalancedLinks
