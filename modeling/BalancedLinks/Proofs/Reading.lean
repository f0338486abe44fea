import BalancedLinks.Proofs.Operations
import BalancedLinks.Proofs.Verifier

/-!
# What a question depends on

A question reads links, and goes from link to link along their references. So two worlds that hold the same
links wherever references lead from some of them answer alike, whatever their other links look like.

The main statement is `LinkedTree.Resembles.reply_eq`.
-/

set_option autoImplicit false

namespace BalancedLinks

variable {α : Type} {n : Nat}

namespace Links

variable {g g' : Links α n} {S : LinkId n → Prop} {l : LinkId n} {k : Nat}

/-- Whether two worlds hold the same links in a part of them that no reference leaves. -/
structure Agree (S : LinkId n → Prop) (g g' : Links α n) : Prop where
  get : ∀ l, S l → g'.get l = g.get l
  parent : ∀ l p, S l → g.parent l = some p → S p
  child : ∀ l s c, S l → g.child l s = some c → S c

namespace Agree

/-- A world agrees with itself everywhere. -/
theorem refl (g : Links α n) : Agree (fun _ => True) g g :=
  ⟨fun _ _ => rfl, fun _ _ _ _ => trivial, fun _ _ _ _ _ => trivial⟩

/-- Links of the part have the same parents. -/
theorem parent_eq (h : Agree S g g') (hl : S l) : g'.parent l = g.parent l := by
  rw [Links.parent, h.get l hl, Links.parent]

/-- Links of the part have the same children. -/
theorem child_eq (h : Agree S g g') (hl : S l) (s : Side) : g'.child l s = g.child l s := by
  rw [Links.child, h.get l hl, Links.child]

/-- Links of the part have the same balances. -/
theorem balance_eq (h : Agree S g g') (hl : S l) : g'.balance l = g.balance l := by
  rw [Links.balance, h.get l hl, Links.balance]

/-- Links of the part have the same owners. -/
theorem owner_eq (h : Agree S g g') (hl : S l) : g'.owner l = g.owner l := by
  rw [Links.owner, h.get l hl, Links.owner]

/-- Links of the part have the same tags. -/
theorem tag_eq (h : Agree S g g') (hl : S l) : g'.tag l = g.tag l := by
  rw [Links.tag, h.get l hl, Links.tag]

/-! ## Walks -/

/-- A walk down from the part goes the same way and stays in it. -/
theorem descendWithin_eq (h : Agree S g g') (s : Side) (hl : S l) :
    g'.descendWithin s k l = g.descendWithin s k l ∧ ∀ i, g.descendWithin s k l = some i → S i := by
  induction k generalizing l with
  | zero => simp [descendWithin]
  | succ k ih =>
    simp only [descendWithin, h.child_eq hl]
    cases hc : g.child l s with
    | none => simpa using hl
    | some c => exact ih (h.child l s c hl hc)

/-- The walk down to the outermost link goes the same way and stays in the part. -/
theorem outermost_eq (h : Agree S g g') (s : Side) (hl : S l) :
    g'.outermost l s = g.outermost l s ∧ ∀ i, g.outermost l s = some i → S i :=
  h.descendWithin_eq s hl

/-- A walk up from the part goes the same way and stays in it. -/
theorem ascendWithin_eq (h : Agree S g g') (s : Side) (hl : S l) :
    g'.ascendWithin s k l = g.ascendWithin s k l ∧ ∀ i, g.ascendWithin s k l = some i → S i := by
  induction k generalizing l with
  | zero => simp [ascendWithin]
  | succ k ih =>
    simp only [ascendWithin, h.parent_eq hl]
    cases hp : g.parent l with
    | none => simpa using hl
    | some p =>
      have hnear := h.parent l p hl hp
      simp only [h.child_eq hnear]
      split
      · exact ih hnear
      · simpa using hnear

/-- The walk up to the top goes the same way too. -/
theorem topWithin_eq (h : Agree S g g') (hl : S l) : g'.topWithin k l = g.topWithin k l := by
  induction k generalizing l with
  | zero => rfl
  | succ k ih =>
    simp only [topWithin, h.parent_eq hl]
    cases hp : g.parent l with
    | none => rfl
    | some p => exact ih (h.parent l p hl hp)

/-- A link of the part has the same neighbours, and they are in it. -/
theorem neighbour_eq (h : Agree S g g') (s : Side) (hl : S l) :
    g'.neighbour l s = g.neighbour l s ∧ ∀ i, g.neighbour l s = some i → S i := by
  simp only [neighbour, h.child_eq hl]
  cases hc : g.child l s with
  | none => exact h.ascendWithin_eq s hl
  | some c => exact h.outermost_eq s.other (h.child l s c hl hc)

/-- A step from the part leads to the same link of it. -/
theorem step_eq (h : Agree S g g') (s : Side) (hl : S l) :
    g'.step l s = g.step l s ∧ ∀ i, g.step l s = some i → S i := by
  cases s with
  | left => exact h.neighbour_eq .left hl
  | right =>
    obtain ⟨hneighbour, hnear⟩ := h.neighbour_eq .right hl
    simp only [step]
    unfold successor isOrigin
    rw [h.parent_eq hl, hneighbour]
    refine ⟨rfl, ?_⟩
    -- a link without a parent is its own successor
    intro i hi
    split_ifs at hi
    · exact Option.some.inj hi ▸ hl
    · exact hnear i hi

/-! ## Searches and checks -/

/-- A search from the part asks about the same elements and ends at the same slot. -/
theorem searchWithin_eq {σ : Type} (h : Agree S g g') (c : Comparator σ α) (s : σ) (side : Side) (hl : S l) :
    g'.searchWithin c k s l side = g.searchWithin c k s l side := by
  induction k generalizing l s side with
  | zero =>
    unfold searchWithin
    rw [h.child_eq hl]
  | succ k ih =>
    unfold searchWithin
    rw [h.child_eq hl]
    cases hi : g.child l side with
    | none => rfl
    | some i =>
      have hnear := h.child l side i hl hi
      have hrest := fun s side => ih s side hnear
      simp only [h.owner_eq hnear, hrest]

/-- A slot that leads into the part is measured the same. -/
theorem measureWithin_eq (h : Agree S g g') {tag : String} {origin p : LinkId n} {slot : Option (LinkId n)}
    (hslot : ∀ l, slot = some l → S l) :
    g'.measureWithin tag origin k slot p = g.measureWithin tag origin k slot p := by
  induction k generalizing slot p with
  | zero => cases slot <;> rfl
  | succ k ih =>
    cases slot with
    | none => rfl
    | some l =>
      have hl := hslot l rfl
      simp only [measureWithin, misplaced?, h.parent_eq hl, h.owner_eq hl, h.tag_eq hl, h.child_eq hl,
        h.balance_eq hl, ih (h.child l _ · hl)]

end Agree

end Links

namespace LinkedTree

/--
Whether two trees look the same from one of them: they have the same origin, tag, selector and size, and the
same links wherever references lead from the origin or from a selected link.
-/
structure Resembles (S : LinkId n → Prop) (x y : LinkedTree α n) : Prop where
  agree : Links.Agree S x.links y.links
  origin_near : S x.origin
  owner : y.links.owner = x.links.owner
  linkTag : y.links.tag = x.links.tag
  selected : ∀ a, S (x.tree.linkOf a) ∨ x.links.owner (x.tree.linkOf a) = none
  origin : y.origin = x.origin
  tag : y.tree.tag = x.tree.tag
  linkOf : y.tree.linkOf = x.tree.linkOf
  size : y.tree.size = x.tree.size

namespace Resembles

variable {S : LinkId n → Prop} {x y : LinkedTree α n} {l : LinkId n} {k : Nat}

/-! ## Traversals -/

/-- The first link of a direction is the same, and near. -/
theorem firstLink_eq (h : Resembles S x y) (s : Side) :
    y.firstLink s = x.firstLink s ∧ ∀ i, x.firstLink s = some i → S i := by
  cases s with
  | left =>
    simp only [firstLink, h.origin]
    exact h.agree.neighbour_eq .left h.origin_near
  | right =>
    simp only [firstLink, h.origin]
    exact h.agree.outermost_eq .left h.origin_near

/-- The next link with an element is the same, and near. -/
theorem seekWithin_eq (h : Resembles S x y) (s : Side) (hl : S l) :
    y.seekWithin s k l = x.seekWithin s k l ∧ ∀ a i, x.seekWithin s k l = .ok (some (a, i)) → S i := by
  induction k generalizing l with
  | zero => simp [seekWithin]
  | succ k ih =>
    obtain ⟨hstep, hnear⟩ := h.agree.step_eq s hl
    simp only [seekWithin, h.origin, hstep, h.owner]
    split
    · simp
    cases hnext : x.links.step l s with
    | none => simp
    | some next =>
      cases x.links.owner l with
      | none => exact ih (hnear next hnext)
      | some a =>
        refine ⟨rfl, ?_⟩
        rintro b i ⟨⟩
        exact hnear next hnext

/-- A traversal that goes on from a near link comes to the same, and remains near. -/
theorem advanceFrom_eq (h : Resembles S x y) (s : Side) (hl : S l) :
    y.advanceFrom s l = x.advanceFrom s l ∧
      ∀ a t i, x.advanceFrom s l = .ok (a, t) → t.stage = .pending i → S i := by
  obtain ⟨hseek, hnear⟩ := h.seekWithin_eq s (k := n + 1) hl
  simp only [advanceFrom, hseek]
  refine ⟨trivial, ?_⟩
  intro a t i hadvance hi
  rcases hresult : x.seekWithin s (n + 1) l with e | (_ | ⟨b, after⟩)
  · simp [hresult, Except.map] at hadvance
  · simp only [hresult, Except.map, Except.ok.injEq, Prod.mk.injEq] at hadvance
    rw [← hadvance.2] at hi
    cases hi
  · simp only [hresult, Except.map, Except.ok.injEq, Prod.mk.injEq] at hadvance
    rw [← hadvance.2] at hi
    obtain rfl : after = i := by simpa using hi
    exact hnear b after hresult

/-- A traversal that is near comes to the same, and remains near. -/
theorem advance_eq (h : Resembles S x y) {t : Traversal n} (ht : ∀ l, t.stage = .pending l → S l) :
    y.advance t = x.advance t ∧
      ∀ a t' i, x.advance t = .ok (a, t') → t'.stage = .pending i → S i := by
  unfold advance
  cases hstage : t.stage with
  | finished =>
    refine ⟨rfl, ?_⟩
    rintro a t' i ⟨⟩ hi
    exact ht i hi
  | pending l => exact h.advanceFrom_eq t.towards (ht l hstage)
  | unstarted =>
    obtain ⟨hfirst, hnear⟩ := h.firstLink_eq t.towards
    simp only [hfirst]
    cases hl : x.firstLink t.towards with
    | none => simp
    | some l => exact h.advanceFrom_eq t.towards (hnear l hl)

/-- What a traversal that is near has still to give is the same. -/
theorem takeFrom_eq (h : Resembles S x y) {t : Traversal n} (ht : ∀ l, t.stage = .pending l → S l) :
    y.takeFrom k t = x.takeFrom k t := by
  induction k generalizing t with
  | zero => rfl
  | succ k ih =>
    obtain ⟨hadvance, hnear⟩ := h.advance_eq ht
    simp only [takeFrom, hadvance]
    rcases hresult : x.advance t with e | ⟨_ | a, t'⟩
    · rfl
    · rfl
    · simp only [ih fun l => hnear _ t' l hresult]

/-- Both trees enumerate the same elements in either direction. -/
theorem collect_eq (h : Resembles S x y) (s : Side) : y.collect ⟨s, .unstarted⟩ = x.collect ⟨s, .unstarted⟩ := by
  rw [collect, h.takeFrom_eq (by simp), collect]

/-! ## Lookups -/

/-- A search in both trees is the same. -/
theorem search_eq {σ : Type} (h : Resembles S x y) (c : Comparator σ α) (s : σ) :
    y.links.search c s y.origin = x.links.search c s x.origin := by
  rw [h.origin]
  exact h.agree.searchWithin_eq c s .left h.origin_near

/-- A comparator locates the same link in both trees. -/
theorem locate_eq {σ : Type} (h : Resembles S x y) (c : Comparator σ α) (s : σ) :
    y.locate c s = x.locate c s := by
  simp only [locate, h.search_eq]

/-- Both trees have the same first and the same last element. -/
theorem extreme_eq (h : Resembles S x y) (s : Side) : y.extreme s = x.extreme s := by
  simp only [extreme, root, h.origin, h.agree.child_eq h.origin_near, h.owner]
  cases hr : x.links.child x.origin .left with
  | none => rfl
  | some r => simp only [(h.agree.outermost_eq s (h.agree.child _ _ r h.origin_near hr)).1]

/-- Both trees own the same links, among those that are near or have no owner. -/
theorem owns_eq (h : Resembles S x y) (hl : S l ∨ x.links.owner l = none) : y.owns l = x.owns l := by
  simp only [owns, h.owner, h.origin]
  rcases hl with hl | hl
  · simp only [Links.top, h.agree.topWithin_eq hl]
  · simp only [hl]

/-- What an element's link is refused for. -/
theorem refuses?_eq (h : Resembles S x y) (hl : S l ∨ x.links.owner l = none) :
    y.refuses? l = x.refuses? l := by
  simp only [refuses?, h.tag, h.linkTag, h.owner]
  rcases hl with hl | hl
  · simp only [h.agree.parent_eq hl, h.agree.child_eq hl]
  · simp only [hl, Option.isNone_none, Bool.true_or]

/-! ## Checks and pictures -/

/-- The order of the elements from a near link on is checked the same. -/
theorem increasingWithin_eq (h : Resembles S x y) (order : α → α → Ordering) (previous : Option α) (hl : S l) :
    y.increasingWithin order k l previous = x.increasingWithin order k l previous := by
  induction k generalizing l previous with
  | zero => rfl
  | succ k ih =>
    obtain ⟨hstep, hnear⟩ := h.agree.step_eq .right hl
    change y.links.successor l = x.links.successor l at hstep
    simp only [increasingWithin, h.origin, hstep, h.owner]
    cases hnext : x.links.successor l with
    | none => rfl
    | some next => simp only [ih _ (hnear next hnext)]

/-- The order of all elements is checked the same. -/
theorem checkIncreasing_eq (h : Resembles S x y) (order : α → α → Ordering) :
    y.checkIncreasing order = x.checkIncreasing order := by
  obtain ⟨hfirst, hnear⟩ := h.firstLink_eq .right
  simp only [checkIncreasing, hfirst]
  cases hl : x.firstLink .right with
  | none => rfl
  | some l => exact h.increasingWithin_eq order none (hnear l hl)

/-- The full check comes to the same verdict on both trees. -/
theorem verify_eq (h : Resembles S x y) (order : Option (α → α → Ordering)) :
    y.verify order = x.verify order := by
  have hmeasure : y.links.measure x.tree.tag x.origin = x.links.measure x.tree.tag x.origin := by
    simp only [Links.measure, h.agree.child_eq h.origin_near]
    exact h.agree.measureWithin_eq (h.agree.child _ _ · h.origin_near)
  simp only [LinkedTree.verify_eq, h.owner, h.origin, h.tag, h.size, h.agree.parent_eq h.origin_near,
    h.agree.child_eq h.origin_near, hmeasure, h.checkIncreasing_eq]

/-- A near link is drawn the same. -/
theorem statementsAt_eq (h : Resembles S x y) (label : α → String) (hl : S l) :
    y.statementsAt label l = x.statementsAt label l := by
  simp only [statementsAt, edgeTo, Cursor.value, h.owner, h.agree.child_eq hl, h.agree.balance_eq hl]

/-- What is drawn from a near link on is the same. -/
theorem statementsWithin_eq (h : Resembles S x y) (label : α → String) (hl : S l) :
    y.statementsWithin label k l = x.statementsWithin label k l := by
  induction k generalizing l with
  | zero => rfl
  | succ k ih =>
    obtain ⟨hstep, hnear⟩ := h.agree.step_eq .right hl
    change y.links.successor l = x.links.successor l at hstep
    simp only [statementsWithin, h.origin, h.statementsAt_eq label hl, hstep]
    cases hnext : x.links.successor l with
    | none => rfl
    | some next => simp only [ih (hnear next hnext)]

/-- Both trees are drawn the same. -/
theorem graphviz_eq (h : Resembles S x y) (label : α → String) : y.graphviz label = x.graphviz label := by
  obtain ⟨hfirst, hnear⟩ := h.agree.outermost_eq .left h.origin_near
  simp only [graphviz, h.origin, hfirst]
  cases hl : x.links.outermost x.origin .left with
  | none => rfl
  | some l => simp only [h.statementsWithin_eq label (hnear l hl)]

/-! ## Cursors -/

/-- A cursor stands on an element in both trees or in neither. -/
theorem elementLink_eq (h : Resembles S x y) (c : Cursor n) : c.elementLink y.links = c.elementLink x.links := by
  simp only [Cursor.elementLink, h.owner]

/-- A cursor that is near stands on near links. -/
theorem of_elementLink {c : Cursor n} (hc : ∀ l, c.link = some l → S l)
    (h : c.elementLink x.links = .ok l) : S l := by
  unfold Cursor.elementLink at h
  split at h
  · cases h
  · split at h
    next hlink _ => exact hc l (hlink.trans (congrArg some (Except.ok.inj h)))
    next => cases h

end Resembles

end LinkedTree

/-- Whether an operation goes on only from links of a part of the world. -/
def Operation.Within (S : LinkId n → Prop) : Operation α n → Prop
  | next c | previous c | balance c | child c _ => ∀ l, c.link = some l → S l
  | advance t => ∀ l, t.stage = .pending l → S l
  | _ => True

/-- Whether an operation only looks. -/
def Operation.isQuestion : Operation α n → Bool
  | change _ => false
  | _ => true

/-- A question has the same reply from trees that look the same. -/
theorem LinkedTree.Resembles.reply_eq {S : LinkId n → Prop} {x y : LinkedTree α n} (h : x.Resembles S y)
    {op : Operation α n} (hop : op.isQuestion = true) (hwithin : op.Within S) : op.reply y = op.reply x := by
  cases op with
  | change => cases hop
  | find c s =>
    have hposition : y.positionOf = x.positionOf := by
      funext l
      rw [positionOf, h.origin, positionOf]
    simp only [Operation.reply, find, h.locate_eq, hposition]
  | findElement c s => simp only [Operation.reply, findElement, h.locate_eq, h.owner]
  | contains a => simp only [Operation.reply, contains, h.linkOf, h.owns_eq (h.selected a)]
  | extreme s => simp only [Operation.reply, h.extreme_eq]
  | size => simp only [Operation.reply, h.size]
  | isEmpty => simp only [Operation.reply, isEmpty, h.size]
  | beginCursor =>
    simp only [Operation.reply, beginCursor, h.origin, (h.agree.outermost_eq .left h.origin_near).1]
  | endCursor => simp only [Operation.reply, endCursor, h.origin]
  | listing s => simp only [Operation.reply, h.collect_eq]
  | advance t => simp only [Operation.reply, (h.advance_eq hwithin).1]
  | next c =>
    simp only [Operation.reply, Cursor.next]
    cases hl : c.link with
    | none => rfl
    | some l =>
      have hstep : y.links.successor l = x.links.successor l := (h.agree.step_eq .right (hwithin l hl)).1
      simp only [hstep]
  | previous c =>
    simp only [Operation.reply, Cursor.previous]
    cases hl : c.link with
    | none => rfl
    | some l =>
      have hstep : y.links.predecessor l = x.links.predecessor l :=
        (h.agree.step_eq .left (hwithin l hl)).1
      simp only [hstep]
  | value c => simp only [Operation.reply, Cursor.value, h.owner]
  | balance c =>
    simp only [Operation.reply, Cursor.balance, h.elementLink_eq]
    cases hl : c.elementLink x.links with
    | error cause => rfl
    | ok l => simp only [Except.map, h.agree.balance_eq (of_elementLink hwithin hl)]
  | child c s =>
    simp only [Operation.reply, Cursor.child, h.elementLink_eq]
    cases hl : c.elementLink x.links with
    | error cause => rfl
    | ok l => simp only [Except.map, h.agree.child_eq (of_elementLink hwithin hl)]
  | verify order => simp only [Operation.reply, h.verify_eq]
  | graphviz label => simp only [Operation.reply, h.graphviz_eq]

end BalancedLinks
