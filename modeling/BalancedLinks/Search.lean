import BalancedLinks.Failure
import BalancedLinks.Link

/-!
# Searches

No key is stored in a tree: a search hands elements to the caller's comparator, which says where the sought
key lies, and goes down left or right by its answers. The comparator may keep a state from answer to
answer, and it may fail.
-/

set_option autoImplicit false

namespace BalancedLinks

/--
A caller's comparison of a sought key with an element: `lt` where the key comes before the element, `gt`
where it comes after it, `eq` where it matches.
-/
structure Comparator (σ α : Type) where
  /-- The answer for an element, and the state for the next answer; or the text of the caller's failure. -/
  ask : σ → α → Except String (Ordering × σ)
  /-- After this many answers the comparator answers by the element alone. -/
  memory : Nat

namespace Comparator

variable {α : Type}

/-- The comparator that answers by the element alone. -/
def ofOrdering (answer : α → Ordering) : Comparator Unit α :=
  { ask := fun _ a => .ok (answer a, ()), memory := 0 }

end Comparator

/-- How a search ends. -/
inductive Ending (n : Nat) where
  /-- The comparator matched the element of this link. -/
  | found (l : LinkId n)
  /-- The child on this side of this link is absent. -/
  | vacant (parent : LinkId n) (side : Side)
  /-- The way led to a link without an owner. -/
  | ownerless
  /-- The comparator failed, or the way never ends. -/
  | failed (failure : Failure)
  deriving DecidableEq

/-- A search that has ended: the elements handed to the comparator, in order, and the end. -/
structure Search (σ α : Type) (n : Nat) where
  visited : List α
  ending : Ending n
  /-- The state that the comparator was left in. -/
  state : σ

/-- The side that an answer sends a search to. -/
def sideTowards : Ordering → Side
  | .gt => .right
  | _ => .left

namespace Links

variable {σ α : Type} {n : Nat}

/-- Searches from the given place down, handing on at most the given number of elements. -/
def searchWithin (g : Links α n) (c : Comparator σ α) :
    Nat → σ → LinkId n → Side → Search σ α n
  | k, s, parent, side =>
    match g.child parent side with
    | none => ⟨[], .vacant parent side, s⟩
    | some l =>
      match k with
      | 0 => ⟨[], .failed .endless, s⟩
      | k + 1 =>
        match g.owner l with
        | none => ⟨[], .ownerless, s⟩
        | some a =>
          match c.ask s a with
          | .error message => ⟨[a], .failed (.callback message), s⟩
          | .ok (.eq, s) => ⟨[a], .found l, s⟩
          | .ok (answer, s) =>
            let rest := searchWithin g c k s l (sideTowards answer)
            { rest with visited := a :: rest.visited }

/--
Searches the tree below an origin. A search that ends hands on at most `n` elements after those for which
the comparator's state matters.
-/
def search (g : Links α n) (c : Comparator σ α) (s : σ) (origin : LinkId n) : Search σ α n :=
  g.searchWithin c (c.memory + n) s origin .left

end Links

end BalancedLinks
