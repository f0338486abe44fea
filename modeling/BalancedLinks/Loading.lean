import BalancedLinks.Insertion

/-!
# Loading

Many elements at once, in the order of the caller's `less`. Of elements that are equivalent, neither less
than the other, the first one wins and the later ones are dropped.
-/

set_option autoImplicit false

namespace BalancedLinks

/-- A caller's order of two elements. -/
structure Less (σ α : Type) where
  /-- Whether the first element comes before the second; or the text of the caller's failure. -/
  ask : σ → α → α → Except String (Bool × σ)
  /-- After this many answers the order answers by the elements alone. -/
  memory : Nat

namespace Less

variable {σ α : Type}

/-- The order that answers by the elements alone. -/
def ofBool (less : α → α → Bool) : Less Unit α :=
  { ask := fun _ a b => .ok (less a b, ()), memory := 0 }

/-- The comparison with a given element: both questions answered no is a match. -/
def comparator (less : Less σ α) (value : α) : Comparator σ α :=
  { ask := fun s element =>
      match less.ask s value element with
      | .error message => .error message
      | .ok (true, s) => .ok (.lt, s)
      | .ok (false, s) =>
        match less.ask s element value with
        | .error message => .error message
        | .ok (after, s) => .ok (if after then .gt else .eq, s)
    memory := less.memory }

end Less

namespace LinkedTree

variable {σ α : Type} {n : Nat}

/-- Links each element that is not equivalent to one present; the result is how many were linked. -/
def load (x : LinkedTree α n) (less : Less σ α) :
    σ → List α → Outcome (LinkedTree α n) Event Nat
  | _, [] => .pure x 0
  | s, value :: values =>
    let first := x.insert (less.comparator value) s (.ok (some value))
    first.outcome.andThen fun x placement =>
      (load x less first.state values).map fun count =>
        if placement.inserted then count + 1 else count

end LinkedTree

end BalancedLinks
