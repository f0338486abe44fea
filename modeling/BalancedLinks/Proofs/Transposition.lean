import BalancedLinks.Proofs.Exchange

/-!
# Changing places in trees

A link with two children, wherever it stands in a carried shape, changes places with the next link in the order and
with no other: the shape keeps its form and the balance recorded at every place, and the two names are swapped.
This prepares an erasure, for which the link comes to a place without a left child.

The main statement is `Links.Carries.transposes`.
-/

set_option autoImplicit false

namespace BalancedLinks

/-- A link whose successor is at the left end of its right subshape comes just before it in the order. -/
theorem Shape.inorder_plug_leftmost {n : Nat} (fs : List (Frame n)) {ds : List (Frame n)} (a c : Shape n)
    (l r : LinkId n) (hds : ∀ f ∈ ds, f.side = .left) :
    (Shape.plug fs (.node a l (.plug ds (.node .empty r c)))).inorder =
      (linksBefore fs ++ a.inorder) ++ l :: r :: (c.inorder ++ linksAfter ds ++ linksAfter fs) := by
  simp [inorder_plug, inorder, linksBefore_eq_nil hds]

namespace Links

variable {α : Type} {n : Nat} {g g' : Links α n}

/--
Whether `l` and the link `r` that follows it in the shape `t` have changed places below the origin `o`, and nothing
else has changed.
-/
structure Transposes (g g' : Links α n) (o l r : LinkId n) (t : Shape n) : Prop where
  next : ∃ before after, t.inorder = before ++ l :: r :: after
  successor : g.successor l = some r
  carries : g'.Carries o (t.rename (Equiv.swap l r))
  balance : ∀ k ∈ t.inorder, g'.balance (Equiv.swap l r k) = g.balance k
  child_left : g'.child l .left = none
  child_right : g'.child l .right = g.child r .right
  edit : Edit g g' o .left t.inorder

namespace Carries

variable {o l left right : LinkId n} {t : Shape n}

/-- A link with two children stands above a right subshape at whose left end there is its successor. -/
theorem exists_successor (h : g.Carries o t) (hl : l ∈ t.inorder) (hleft : g.child l .left = some left)
    (hright : g.child l .right = some right) :
    ∃ fs a ds r c, t = .plug fs (.node a l (.plug ds (.node .empty r c))) ∧ a ≠ .empty ∧
      ∀ f ∈ ds, f.side = .left := by
  obtain ⟨fs, a, b, rfl⟩ := Shape.exists_place hl
  obtain ⟨-, -, ha, hb⟩ := h.at_place
  have hfull : ∀ u s, g.Spans (g.child l s) l u → g.child l s ≠ none → u ≠ .empty := by
    rintro u s hu hchild rfl
    exact hchild hu
  obtain ⟨ds, r, c, rfl, hds⟩ := Shape.exists_outermost .left b (hfull b .right hb (by simp [hright]))
  exact ⟨fs, a, ds, r, c, rfl, hfull a .left ha (by simp [hleft]), hds⟩

/-- A link of a carried shape with two children changes places with its successor. -/
theorem transposes (h : g.Carries o t) (hl : l ∈ t.inorder) (hleft : g.child l .left = some left)
    (hright : g.child l .right = some right) :
    ∃ r g', g.exchangeWithSuccessor l left right = .ok g' ∧ g.Transposes g' o l r t := by
  obtain ⟨fs, a, ds, r, c, rfl, ha, hds⟩ := h.exists_successor hl hleft hright
  obtain ⟨left', right', p, rp, hexch⟩ := h.exchangeable ha hds
  obtain rfl : left = left' := Option.some.inj (hleft.symm.trans hexch.child_left)
  obtain rfl : right = right' := Option.some.inj (hright.symm.trans hexch.child_right)
  have hsplit := Shape.inorder_plug_leftmost fs a c l r hds
  -- the link has the children that its successor had
  have hchild := hexch.renames.child r (by simp [hsplit])
  rw [Equiv.swap_apply_right] at hchild
  refine ⟨r, _, hexch.exchange_eq, ?_⟩
  exact
    { next := ⟨_, _, hsplit⟩
      successor := h.successor_eq hsplit
      carries := hexch.renamed
      balance := fun k hk => hexch.renames.balance k (List.mem_cons_of_mem o hk)
      child_left := by rw [hchild, hexch.left_successor, Option.map_none]
      child_right := by rw [hchild, map_swap_eq_self hexch.inner_ne.1 hexch.inner_ne.2]
      edit := hexch.edit }

end Carries

/-- Nine links below an origin, with any balances; the successor of the topmost is three links below it. -/
def spread : Links Nat 10 :=
  ⟨#v[{ owner := none, tag := "", parent := none, left := some 4, right := none, balance := .level },
    { owner := some 1, tag := "", parent := some 2, left := none, right := none, balance := .level },
    { owner := some 2, tag := "", parent := some 4, left := some 1, right := some 3, balance := 6 },
    { owner := some 3, tag := "", parent := some 2, left := none, right := none, balance := .finite (-1) },
    { owner := some 4, tag := "", parent := some 0, left := some 2, right := some 8, balance := 2 },
    { owner := some 5, tag := "", parent := some 7, left := none, right := some 6, balance := 1 },
    { owner := some 6, tag := "", parent := some 5, left := none, right := none, balance := .level },
    { owner := some 7, tag := "", parent := some 8, left := some 5, right := none, balance := .finite (-2) },
    { owner := some 8, tag := "", parent := some 4, left := some 7, right := some 9, balance := .finite (-2) },
    { owner := some 9, tag := "", parent := some 8, left := none, right := none, balance := .level }]⟩

def spreadShape : Shape 10 :=
  .node (.node (.node .empty 1 .empty) 2 (.node .empty 3 .empty)) 4
    (.node (.node (.node .empty 5 (.node .empty 6 .empty)) 7 .empty) 8 (.node .empty 9 .empty))

/-- The topmost link changes places far below, and another one with its own right child. -/
theorem transposes_spread :
    spread.Carries 0 spreadShape ∧
      (∃ g, spread.exchangeWithSuccessor 4 2 8 = .ok g ∧ spread.Transposes g 0 4 5 spreadShape ∧
        g.child 0 .left = some 5 ∧ g.child 7 .left = some 4 ∧ g.child 4 .right = some 6) ∧
      ∃ g, spread.exchangeWithSuccessor 2 1 3 = .ok g ∧ spread.Transposes g 0 2 3 spreadShape ∧
        g.child 3 .right = some 2 ∧ g.child 2 .right = none := by
  have hspans : spread.Spans (spread.child 0 .left) 0 spreadShape :=
    ⟨rfl, rfl, ⟨rfl, rfl, ⟨rfl, rfl, rfl, rfl⟩, ⟨rfl, rfl, rfl, rfl⟩⟩,
      ⟨rfl, rfl, ⟨rfl, rfl, ⟨rfl, rfl, rfl, ⟨rfl, rfl, rfl, rfl⟩⟩, rfl⟩, ⟨rfl, rfl, rfl, rfl⟩⟩⟩
  have hcarries : spread.Carries 0 spreadShape := ⟨hspans, by decide, by decide, rfl, rfl⟩
  have hfive : spread.successor 4 = some 5 := by decide +kernel
  have hthree : spread.successor 2 = some 3 := by decide +kernel
  obtain ⟨r, g, hexchange, h⟩ := hcarries.transposes (l := 4) (by decide) rfl rfl
  obtain rfl : 5 = r := Option.some.inj (hfive.symm.trans h.successor)
  obtain ⟨r, g', hexchange', h'⟩ := hcarries.transposes (l := 2) (by decide) rfl rfl
  obtain rfl : 3 = r := Option.some.inj (hthree.symm.trans h'.successor)
  obtain ⟨hroot, -, -, -, -, ⟨-, -, hslot, -⟩, -⟩ := h.carries.spans
  obtain ⟨-, -, ⟨-, -, -, hlower⟩, -⟩ := h'.carries.spans
  exact ⟨hcarries, ⟨g, hexchange, h, hroot, hslot.1, h.child_right⟩, g', hexchange', h', hlower.1, h'.child_right⟩

end Links

end BalancedLinks
