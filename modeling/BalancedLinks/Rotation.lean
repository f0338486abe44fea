import BalancedLinks.Link
import BalancedLinks.Failure

/-!
# Rotations

A rotation lifts a child of a link into the link's place and hangs the link below it. Only the references
among the link, the child, the child's inner subtree and the parent change, and the two balances follow from
the old two without measuring any height.
-/

set_option autoImplicit false

namespace BalancedLinks

/--
The balances of a link and of its lifted child after a rotation towards the given side, from those before
it. Where the sums are exact, exact balances stay exact, whatever integers they are.
-/
def rotatedBalances (towards : Side) (link pivot : Balance) : Balance × Balance :=
  match towards with
  | .right =>
    let lowered := link + 1 - pivot.negativePart
    (lowered, pivot + 1 + lowered.positivePart)
  | .left =>
    let lowered := link - 1 - pivot.positivePart
    (lowered, pivot - 1 + lowered.negativePart)

namespace Links

variable {α : Type} {n : Nat}

/-- The references after `pivot`, the child of `l` away from `towards`, has been lifted above `l`. -/
def relinkRotated (g : Links α n) (l pivot parent : LinkId n) (towards : Side) : Links α n :=
  let side := g.sideOf l
  let inner := g.child pivot towards
  let g := g.setChild l towards.other inner
  let g := g.setParentOf inner l
  let g := g.setChild pivot towards (some l)
  let g := g.setParent l (some pivot)
  let g := g.setChild parent side (some pivot)
  g.setParent pivot (some parent)

/-- The balances after `pivot` has been lifted above `l`. -/
def rebalanceRotated (g : Links α n) (l pivot : LinkId n) (towards : Side) : Links α n :=
  let balances := rotatedBalances towards (g.balance l) (g.balance pivot)
  (g.setBalance l balances.1).setBalance pivot balances.2

/--
Rotates a link towards one side: its child on the other side takes its place. The result is that child,
and the links afterwards. Without such a child, or without a parent to hang it from, nothing changes.
-/
def rotate (g : Links α n) (l : LinkId n) (towards : Side) :
    Except Violation (LinkId n × Links α n) :=
  match g.child l towards.other with
  | none => .error .noRisingChild
  | some pivot =>
    match g.parent l with
    | none => .error .rotateWithoutParent
    | some parent =>
      .ok (pivot, (g.relinkRotated l pivot parent towards).rebalanceRotated l pivot towards)

end Links

end BalancedLinks
