import BalancedLinks.Event
import BalancedLinks.Outcome
import BalancedLinks.Rotation

/-!
# Repair

How balance comes back after one subtree grew or shrank. `Links.repair` mends one link by a single or a
double rotation, `Links.settleGrowth` walks up from a link that was just hung in, and
`Links.settleShrinkage` from the place where a link was taken out. Balances follow from step to step, and no
height is measured.
-/

set_option autoImplicit false

namespace BalancedLinks

/-- The side on which a link with this balance is heavy; a level one counts as heavy on the left. -/
def heavySide (balance : Balance) : Side :=
  if balance.isRightHeavy then .right else .left

/-- Whether a balance leans away from the given side. -/
def leansAwayFrom (side : Side) (balance : Balance) : Bool :=
  match side with
  | .right => balance.isLeftHeavy
  | .left => balance.isRightHeavy

namespace Links

variable {α : Type} {n : Nat}

/-- Turns a link over to its light side and reports the repair; the result is the new top. -/
def repairBy (g : Links α n) (l : LinkId n) (heavy : Side) (kind : RotationKind) :
    Outcome (Links α n) Event (LinkId n) :=
  match g.rotate l heavy.other with
  | .error cause => .fail g (.violation cause)
  | .ok (top, g) => ⟨g, [.rotated kind (g.balance top)], .ok top⟩

/--
Mends a link that is heavy on one side: one rotation, after another of the heavy child if that leans to
the other side. The result is the link that stands in its place afterwards.
-/
def repair (g : Links α n) (l : LinkId n) : Outcome (Links α n) Event (LinkId n) :=
  let heavy := heavySide (g.balance l)
  match g.child l heavy with
  | none => .fail g (.violation (.noHeavyChild (g.balance l)))
  | some c =>
    if leansAwayFrom heavy (g.balance c) then
      match g.rotate c heavy with
      | .error cause => .fail g (.violation cause)
      | .ok (_, g) => g.repairBy l heavy .double
    else g.repairBy l heavy .single

/-! ## After growth -/

/-- Walks up from a child that grew by one, for at most the given number of links. -/
def settleGrowthWithin : Nat → Links α n → LinkId n → Outcome (Links α n) Event Unit
  | 0, g, _ => .fail g .endless
  | k + 1, g, child =>
    match g.parent child with
    | none => .pure g ()
    | some l =>
      if g.isOrigin l then .pure g ()
      else
        let balance := if g.isChild child .right then g.balance l + 1 else g.balance l - 1
        let g := g.setBalance l balance
        if balance = .level then .pure g ()
        else if balance.isUnbalanced then (g.repair l).andThen fun g _ => .pure g ()
        else settleGrowthWithin k g l

/--
Settles the balances above a leaf that was just hung in. The walk ends at the first link that becomes level
or is repaired. So a link that it passes with a finite balance ends it at the next visit at the latest, which
bounds the walk also where parents form a cycle.
-/
def settleGrowth (g : Links α n) (leaf : LinkId n) : Outcome (Links α n) Event Unit :=
  settleGrowthWithin (2 * n + 1) g leaf

/-! ## After shrinkage -/

/-- The parent to go on from, and the side on which it lost height, when the subtree at this link shrank. -/
def parentSide (g : Links α n) (l : LinkId n) : Option (LinkId n × Side) :=
  (g.parent l).map fun p => (p, g.sideOf l)

/--
One step up after the subtree on the given side of a link lost one of its height: the link's balance, a
repair if it calls for one, and where to go on if the subtree at the link lost height as well.
-/
def shrinkageStep (g : Links α n) (l : LinkId n) (side : Side) :
    Outcome (Links α n) Event (Option (LinkId n × Side)) :=
  let balance := match side with
    | .right => g.balance l - 1
    | .left => g.balance l + 1
  let g := g.setBalance l balance
  if balance.isUnbalanced then
    (g.repair l).andThen fun g top => .pure g (if g.balance top = .level then g.parentSide top else none)
  else .pure g (if balance = .level then g.parentSide l else none)

/-- Walks up from a link that shrank by one on the given side, for at most the given number of links. -/
def settleShrinkageWithin : Nat → Links α n → LinkId n → Side → Outcome (Links α n) Event Unit
  | 0, g, _, _ => .fail g .endless
  | k + 1, g, l, side =>
    if g.isOrigin l then .pure g ()
    else
      (g.shrinkageStep l side).andThen fun g next =>
        match next with
        | none => .pure g ()
        | some (p, side) => settleShrinkageWithin k g p side

/--
Settles the balances from a link whose subtree on the given side lost one of its height. The walk ends at
the first link that keeps its height. Where sums are exact, every step that goes on lowers the imbalance of
the links, which bounds the walk also where parents form a cycle.
-/
def settleShrinkage (g : Links α n) (l : LinkId n) (side : Side) : Outcome (Links α n) Event Unit :=
  settleShrinkageWithin (g.imbalance + n + 1) g l side

end Links

end BalancedLinks
