import BalancedLinks.Balance

/-!
# Links

A link is the record through which an element hangs in a tree: it knows the element that owns it,
the family of trees it belongs to (its tag), its parent, its two children and its balance, the height
of the right subtree less the height of the left one. Links refer to each other by name, and `Links α n`
holds the `n` links of a world at once, so that every reference is a reference to one of them.

A link without an owner is an *origin*: the root of a tree is the left child of the tree's origin, and
the origin stands after the last element.

The main statement is `Links.get_set`: a write changes the link it names and no other.
-/

set_option autoImplicit false

namespace BalancedLinks

/-- The two sides of a link. -/
inductive Side where
  | left
  | right
  deriving DecidableEq, Repr

/-- The opposite side. -/
def Side.other : Side → Side
  | .left => .right
  | .right => .left

/-- Either side is the opposite of its opposite. -/
@[simp] theorem Side.other_other (s : Side) : s.other.other = s := by
  cases s <;> rfl

/-- The name of one of `n` links. -/
abbrev LinkId (n : Nat) := Fin n

/-- One link: its owner and tag, which never change, and its place in a tree. -/
structure Link (α : Type) (n : Nat) where
  /-- The element that embeds the link, or none for an origin. -/
  owner : Option α
  /-- The family of trees that the link can join. -/
  tag : String
  parent : Option (LinkId n)
  left : Option (LinkId n)
  right : Option (LinkId n)
  /-- Height of the right subtree less height of the left one. -/
  balance : Balance
  deriving DecidableEq

namespace Link

variable {α : Type} {n : Nat}

/-- A link that hangs nowhere. -/
def fresh (owner : Option α) (tag : String) : Link α n :=
  { owner, tag, parent := none, left := none, right := none, balance := .level }

/-- The child on the given side. -/
def child (x : Link α n) : Side → Option (LinkId n)
  | .left => x.left
  | .right => x.right

/-- The link with its child on the given side replaced. -/
def withChild (x : Link α n) (s : Side) (c : Option (LinkId n)) : Link α n :=
  match s with
  | .left => { x with left := c }
  | .right => { x with right := c }

/-- The side that is given a child has it; the other one keeps its own. -/
@[simp] theorem child_withChild (x : Link α n) (s t : Side) (c : Option (LinkId n)) :
    (x.withChild s c).child t = if s = t then c else x.child t := by
  cases s <;> cases t <;> simp [child, withChild]

/-- The link as it was before it first joined a tree. -/
def pristine (x : Link α n) : Link α n :=
  fresh x.owner x.tag

/-- Whether no reference is set and the balance is level. -/
def isPristine (x : Link α n) : Bool :=
  x.parent.isNone && x.left.isNone && x.right.isNone && x.balance == .level

end Link

/-- All links of a world, by name. -/
structure Links (α : Type) (n : Nat) where
  cells : Vector (Link α n) n

namespace Links

variable {α : Type} {n : Nat}

/-- The link of a name. -/
def get (g : Links α n) (l : LinkId n) : Link α n :=
  g.cells[l]

/-- The links with the one of the given name replaced. -/
def set (g : Links α n) (l : LinkId n) (x : Link α n) : Links α n :=
  ⟨g.cells.set l x⟩

/-- A write changes the link it names and no other. -/
@[simp] theorem get_set (g : Links α n) (l k : LinkId n) (x : Link α n) :
    (g.set l x).get k = if l = k then x else g.get k := by
  simp [get, set, Vector.getElem_set, Fin.ext_iff]

/-- Worlds that agree on every link are equal. -/
@[ext] theorem ext {g g' : Links α n} (h : ∀ l, g.get l = g'.get l) : g = g' := by
  obtain ⟨c⟩ := g
  obtain ⟨c'⟩ := g'
  congr 1
  ext i hi : 1
  exact h ⟨i, hi⟩

/-! ## Reading -/

/-- The element that embeds the link. -/
def owner (g : Links α n) (l : LinkId n) : Option α :=
  (g.get l).owner

/-- The family of trees that the link can join. -/
def tag (g : Links α n) (l : LinkId n) : String :=
  (g.get l).tag

/-- The link that this one hangs from. -/
def parent (g : Links α n) (l : LinkId n) : Option (LinkId n) :=
  (g.get l).parent

/-- The child on the given side. -/
def child (g : Links α n) (l : LinkId n) (s : Side) : Option (LinkId n) :=
  (g.get l).child s

/-- The recorded balance. -/
def balance (g : Links α n) (l : LinkId n) : Balance :=
  (g.get l).balance

/-- Whether the link is exactly the child of its parent on the given side. -/
def isChild (g : Links α n) (l : LinkId n) (s : Side) : Bool :=
  match g.parent l with
  | none => false
  | some p => g.child p s == some l

/-- The side of its parent on which the link hangs; left unless it is the right child. -/
def sideOf (g : Links α n) (l : LinkId n) : Side :=
  if g.isChild l .right then .right else .left

/-- Whether the link hangs nowhere: so does a tree's origin, and an element outside all trees. -/
def isOrigin (g : Links α n) (l : LinkId n) : Bool :=
  (g.parent l).isNone

/-- Whether an element's link hangs in a tree. -/
def isLinked (g : Links α n) (l : LinkId n) : Bool :=
  (g.owner l).isSome && (g.parent l).isSome

/-! ## Writing -/

/-- Makes the link refer to another parent. -/
def setParent (g : Links α n) (l : LinkId n) (p : Option (LinkId n)) : Links α n :=
  g.set l { g.get l with parent := p }

/-- Makes the link refer to another child on the given side. -/
def setChild (g : Links α n) (l : LinkId n) (s : Side) (c : Option (LinkId n)) : Links α n :=
  g.set l ((g.get l).withChild s c)

/-- Records a balance. -/
def setBalance (g : Links α n) (l : LinkId n) (b : Balance) : Links α n :=
  g.set l { g.get l with balance := b }

/-- Takes the link back to the state before it first joined a tree. -/
def reset (g : Links α n) (l : LinkId n) : Links α n :=
  g.set l (g.get l).pristine

/-- Setting a parent changes the link that is named and no other. -/
@[simp] theorem get_setParent (g : Links α n) (l k : LinkId n) (p : Option (LinkId n)) :
    (g.setParent l p).get k = if l = k then { g.get l with parent := p } else g.get k :=
  get_set g l k _

/-- Setting a child changes the link that is named and no other. -/
@[simp] theorem get_setChild (g : Links α n) (l k : LinkId n) (s : Side) (c : Option (LinkId n)) :
    (g.setChild l s c).get k = if l = k then (g.get l).withChild s c else g.get k :=
  get_set g l k _

/-- Recording a balance changes the link that is named and no other. -/
@[simp] theorem get_setBalance (g : Links α n) (l k : LinkId n) (b : Balance) :
    (g.setBalance l b).get k = if l = k then { g.get l with balance := b } else g.get k :=
  get_set g l k _

/-- A reset changes the link that is named and no other. -/
@[simp] theorem get_reset (g : Links α n) (l k : LinkId n) :
    (g.reset l).get k = if l = k then (g.get l).pristine else g.get k :=
  get_set g l k _

/-- Makes a link that is present refer to the given parent. -/
def setParentOf (g : Links α n) (l : Option (LinkId n)) (p : LinkId n) : Links α n :=
  match l with
  | none => g
  | some l => g.setParent l (some p)

/-! ## Reading after writing -/

section Reading

variable (g : Links α n) (l k : LinkId n) (s t : Side) (c p : Option (LinkId n)) (b : Balance)

/-! ### What a write changes -/

/-- The link that is given a parent has it; the others keep theirs. -/
@[simp] theorem parent_setParent : (g.setParent l p).parent k = if l = k then p else g.parent k := by
  unfold parent
  rw [get_setParent]
  split <;> rfl

/-- A link that is present is given the parent. -/
@[simp] theorem parent_setParentOf (q : LinkId n) :
    (g.setParentOf c q).parent k = if c = some k then some q else g.parent k := by
  cases c <;> simp [setParentOf]

/-- A link that is reset has no parent. -/
@[simp] theorem parent_reset : (g.reset l).parent k = if l = k then none else g.parent k := by
  unfold parent
  rw [get_reset]
  split <;> rfl

/-- The slot that is given a child holds it; the others keep theirs, the link's other slot too. -/
@[simp] theorem child_setChild :
    (g.setChild l s c).child k t = if l = k ∧ s = t then c else g.child k t := by
  unfold child
  rw [get_setChild]
  by_cases h : l = k
  · subst h
    simp only [if_true, Link.child_withChild, true_and]
  · simp only [h, if_false, false_and]

/-- A link that is reset has no children. -/
@[simp] theorem child_reset : (g.reset l).child k t = if l = k then none else g.child k t := by
  unfold child
  rw [get_reset]
  split
  next => cases t <;> rfl
  next => rfl

/-- The link whose balance is recorded has it; the others keep theirs. -/
@[simp] theorem balance_setBalance :
    (g.setBalance l b).balance k = if l = k then b else g.balance k := by
  unfold balance
  rw [get_setBalance]
  split <;> rfl

/-- A link that is reset is level. -/
@[simp] theorem balance_reset : (g.reset l).balance k = if l = k then .level else g.balance k := by
  unfold balance
  rw [get_reset]
  split <;> rfl

/-! ### What a write leaves alone -/

/-- A write that keeps some part of its link keeps that part of all links. -/
theorem part_set {β : Type} (part : Link α n → β) {g : Links α n} {l : LinkId n} {x : Link α n}
    (h : part x = part (g.get l)) (k : LinkId n) : part ((g.set l x).get k) = part (g.get k) := by
  rw [get_set]
  split
  next hk => rw [h, hk]
  next => rfl

/-- Children have no part in the parents of links. -/
@[simp] theorem parent_setChild : (g.setChild l s c).parent k = g.parent k :=
  part_set Link.parent (by cases s <;> rfl) k

/-- Balances have no part in the parents of links. -/
@[simp] theorem parent_setBalance : (g.setBalance l b).parent k = g.parent k :=
  part_set Link.parent (by rfl) k

/-- Parents have no part in the children of links. -/
@[simp] theorem child_setParent : (g.setParent l p).child k t = g.child k t :=
  part_set (Link.child · t) (by cases t <;> rfl) k

@[simp] theorem child_setParentOf (q : LinkId n) : (g.setParentOf c q).child k t = g.child k t := by
  cases c <;> simp [setParentOf]

/-- Balances have no part in the children of links. -/
@[simp] theorem child_setBalance : (g.setBalance l b).child k t = g.child k t :=
  part_set (Link.child · t) (by cases t <;> rfl) k

/-- Parents have no part in the balances of links. -/
@[simp] theorem balance_setParent : (g.setParent l p).balance k = g.balance k :=
  part_set Link.balance (by rfl) k

@[simp] theorem balance_setParentOf (q : LinkId n) : (g.setParentOf c q).balance k = g.balance k := by
  cases c <;> simp [setParentOf]

/-- Children have no part in the balances of links. -/
@[simp] theorem balance_setChild : (g.setChild l s c).balance k = g.balance k :=
  part_set Link.balance (by cases s <;> rfl) k

/-! No write changes the owner of a link. -/

@[simp] theorem owner_setParent : (g.setParent l p).owner k = g.owner k :=
  part_set Link.owner (by rfl) k

@[simp] theorem owner_setParentOf (q : LinkId n) : (g.setParentOf c q).owner k = g.owner k := by
  cases c <;> simp [setParentOf]

@[simp] theorem owner_setChild : (g.setChild l s c).owner k = g.owner k :=
  part_set Link.owner (by cases s <;> rfl) k

@[simp] theorem owner_setBalance : (g.setBalance l b).owner k = g.owner k :=
  part_set Link.owner (by rfl) k

@[simp] theorem owner_reset : (g.reset l).owner k = g.owner k :=
  part_set Link.owner (by rfl) k

/-! No write changes the tag of a link. -/

@[simp] theorem tag_setParent : (g.setParent l p).tag k = g.tag k :=
  part_set Link.tag (by rfl) k

@[simp] theorem tag_setParentOf (q : LinkId n) : (g.setParentOf c q).tag k = g.tag k := by
  cases c <;> simp [setParentOf]

@[simp] theorem tag_setChild : (g.setChild l s c).tag k = g.tag k :=
  part_set Link.tag (by cases s <;> rfl) k

@[simp] theorem tag_setBalance : (g.setBalance l b).tag k = g.tag k :=
  part_set Link.tag (by rfl) k

@[simp] theorem tag_reset : (g.reset l).tag k = g.tag k :=
  part_set Link.tag (by rfl) k

end Reading

/-- The sum of the magnitudes of the recorded balances. -/
def imbalance (g : Links α n) : Nat :=
  g.cells.foldl (fun sum x => sum + x.balance.magnitude) 0

end Links

end BalancedLinks
