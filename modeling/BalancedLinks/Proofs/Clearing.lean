import BalancedLinks.Erasure
import BalancedLinks.Proofs.Unlinking
import Mathlib.Algebra.Order.BigOperators.Group.Finset

/-!
# Clearing

A clearing resets one pending link after the other and leaves its children pending. A link has no children
any more once it has been reset, so the child references that are set bound the resets, however the links
refer to each other; in the end exactly the links that could be reached have been reset.

The main statements are `Links.clears_clearBelow` and `Links.Clears.get_eq` for any links at all, and
`Links.Carries.clear` for a shape.
-/

set_option autoImplicit false

namespace BalancedLinks

namespace Links

variable {α : Type} {n : Nat} {g : Links α n}

/-! ## Reaching -/

/-- Whether child references lead from one of the given links to a link. -/
inductive Reaches (g : Links α n) (roots : List (LinkId n)) : LinkId n → Prop
  | root {l : LinkId n} (h : l ∈ roots) : Reaches g roots l
  | child {l c : LinkId n} {s : Side} (h : Reaches g roots l) (hc : g.child l s = some c) : Reaches g roots c

/-- The children of a link are what it refers to on either side. -/
theorem mem_children (l c : LinkId n) : c ∈ g.children l ↔ ∃ s, g.child l s = some c := by
  simp only [children, List.mem_append, Option.mem_toList]
  constructor
  · rintro (h | h)
    · exact ⟨.right, h⟩
    · exact ⟨.left, h⟩
  · rintro ⟨s, h⟩
    cases s
    · exact Or.inr h
    · exact Or.inl h

/-- What a link reaches, once it is reset and its children are pending instead. -/
theorem reaches_cons_iff (l : LinkId n) (pending : List (LinkId n)) (k : LinkId n) :
    Reaches g (l :: pending) k ↔ k = l ∨ Reaches (g.reset l) (g.children l ++ pending) k := by
  constructor
  · intro h
    induction h with
    | root h =>
      rcases List.mem_cons.mp h with rfl | h
      · exact Or.inl rfl
      · exact Or.inr (.root (List.mem_append_right _ h))
    | @child m c s _ hc ih =>
      rcases ih with rfl | ih
      · exact Or.inr (.root (List.mem_append_left _ ((mem_children m c).mpr ⟨s, hc⟩)))
      · by_cases hml : l = m
        · subst hml
          exact Or.inr (.root (List.mem_append_left _ ((mem_children l c).mpr ⟨s, hc⟩)))
        · refine Or.inr (.child (s := s) ih ?_)
          rw [child_reset, if_neg hml, hc]
  · rintro (rfl | h)
    · exact .root (by simp)
    · induction h with
      | @root m h =>
        rcases List.mem_append.mp h with h | h
        · obtain ⟨s, hs⟩ := (mem_children l m).mp h
          exact .child (.root (by simp)) hs
        · exact .root (List.mem_cons_of_mem l h)
      | @child m c s _ hc ih =>
        rw [child_reset] at hc
        split_ifs at hc
        exact .child ih hc

/-! ## Counting -/

/-- The number of child references that are set. -/
def childCount (g : Links α n) : Nat :=
  ∑ l, (g.children l).length

/-- A link has two children at most. -/
theorem length_children_le (l : LinkId n) : (g.children l).length ≤ 2 := by
  simp only [children, List.length_append]
  have hright : (g.child l .right).toList.length ≤ 1 := by cases g.child l .right <;> simp
  have hleft : (g.child l .left).toList.length ≤ 1 := by cases g.child l .left <;> simp
  omega

/-- There are at most two child references for each link. -/
theorem childCount_le : g.childCount ≤ 2 * n := by
  have hsum : g.childCount ≤ ∑ _l : LinkId n, 2 := Finset.sum_le_sum fun l _ => length_children_le l
  rw [Finset.sum_const_nat (fun _ _ => rfl), Finset.card_univ, Fintype.card_fin] at hsum
  omega

/-- A reset takes away the child references of its link and no other. -/
theorem childCount_reset (l : LinkId n) : (g.reset l).childCount + (g.children l).length = g.childCount := by
  have hsame : ∀ k ∈ Finset.univ.erase l, ((g.reset l).children k).length = (g.children k).length := by
    intro k hk
    have hlk : l ≠ k := (Finset.ne_of_mem_erase hk).symm
    simp [children, hlk]
  have hnone : ((g.reset l).children l).length = 0 := by simp [children]
  unfold childCount
  rw [← Finset.add_sum_erase _ _ (Finset.mem_univ l), ← Finset.add_sum_erase _ _ (Finset.mem_univ l),
    Finset.sum_congr rfl hsame, hnone]
  omega

/-! ## Resetting -/

/--
The resets of a clearing, one after the other and as many as it takes: from the pending links, and the links that
they are reset among, to the links in the end.
-/
inductive Clears : List (LinkId n) → Links α n → Links α n → Prop
  | done (g : Links α n) : Clears [] g g
  | reset {l : LinkId n} {pending : List (LinkId n)} {g g' : Links α n}
      (rest : Clears (g.children l ++ pending) (g.reset l) g') : Clears (l :: pending) g g'

/-- The resets come to an end: each leaves as many links pending as it takes child references away. -/
theorem clears_clearWithin {k : Nat} {pending : List (LinkId n)} (h : pending.length + g.childCount ≤ k) :
    Clears pending g (clearWithin k pending g) := by
  induction k generalizing g pending with
  | zero =>
    obtain rfl : pending = [] := List.eq_nil_of_length_eq_zero (by omega)
    exact .done g
  | succ k ih =>
    cases pending with
    | nil => exact .done g
    | cons m pending =>
      have hcount := childCount_reset (g := g) m
      apply Clears.reset
      apply ih
      simp only [List.length_append, List.length_cons] at h ⊢
      omega

/-- Clearing does all the resets that there are to do below a link, within the number of steps it is given. -/
theorem clears_clearBelow (root : Option (LinkId n)) : Clears root.toList g (g.clearBelow root) := by
  apply clears_clearWithin
  have hroot : root.toList.length ≤ 1 := by cases root <;> simp
  have hcount := childCount_le (g := g)
  omega

open Classical in
/-- In the end exactly the links that could be reached have been reset. -/
theorem Clears.get_eq {pending : List (LinkId n)} {g' : Links α n} (h : Clears pending g g') (l : LinkId n) :
    g'.get l = if Reaches g pending l then (g.get l).pristine else g.get l := by
  induction h with
  | done g =>
    have hnil : ¬ Reaches g [] l := by
      intro hreach
      induction hreach with
      | root h => simp at h
      | child _ _ ih => exact ih
    rw [if_neg hnil]
  | @reset m pending g g' _ ih =>
    rw [ih, get_reset]
    simp only [reaches_cons_iff]
    by_cases hml : m = l
    · subst hml
      simp only [if_true, true_or]
      split_ifs <;> rfl
    · simp [hml, Ne.symm hml]

open Classical in
/-- Clearing resets exactly the links that can be reached, whatever the links look like. -/
theorem get_clearBelow (root : Option (LinkId n)) (l : LinkId n) :
    (g.clearBelow root).get l = if Reaches g root.toList l then (g.get l).pristine else g.get l :=
  (clears_clearBelow root).get_eq l

/-! ## Clearing a shape -/

/-- The links of a shape are closed under children. -/
theorem Spans.child_mem {slot : Option (LinkId n)} {p : LinkId n} {t : Shape n} (h : g.Spans slot p t)
    {m c : LinkId n} {s : Side} (hm : m ∈ t.inorder) (hc : g.child m s = some c) : c ∈ t.inorder := by
  induction t generalizing slot p with
  | empty => simp [Shape.inorder] at hm
  | node a l b iha ihb =>
    obtain ⟨-, -, ha, hb⟩ := h
    simp only [Shape.mem_inorder_node] at hm ⊢
    rcases hm with rfl | hm | hm
    · cases s
      · exact Or.inr (Or.inl (Shape.root?_mem (ha.slot_eq.symm.trans hc)))
      · exact Or.inr (Or.inr (Shape.root?_mem (hb.slot_eq.symm.trans hc)))
    · exact Or.inr (Or.inl (iha ha hm))
    · exact Or.inr (Or.inr (ihb hb hm))

/-- Each link of a shape is reached from above. -/
theorem Spans.reaches {roots : List (LinkId n)} {slot : Option (LinkId n)} {p : LinkId n} {t : Shape n}
    (h : g.Spans slot p t) (hslot : ∀ l, slot = some l → Reaches g roots l) {k : LinkId n}
    (hk : k ∈ t.inorder) : Reaches g roots k := by
  induction t generalizing slot p with
  | empty => simp [Shape.inorder] at hk
  | node a l b iha ihb =>
    obtain ⟨hl, -, ha, hb⟩ := h
    have hreach := hslot l hl
    rcases (Shape.mem_inorder_node a l b k).mp hk with rfl | hk | hk
    · exact hreach
    · exact iha ha (fun c hc => .child hreach hc) hk
    · exact ihb hb (fun c hc => .child hreach hc) hk

/-- From a slot that unfolds to a shape, exactly the links of the shape can be reached. -/
theorem Spans.reaches_iff {slot : Option (LinkId n)} {p : LinkId n} {t : Shape n} (h : g.Spans slot p t)
    (k : LinkId n) : Reaches g slot.toList k ↔ k ∈ t.inorder := by
  constructor
  · intro hreach
    induction hreach with
    | root hmem =>
      rw [h.slot_eq, Option.mem_toList] at hmem
      exact Shape.root?_mem hmem
    | child _ hc ih => exact h.child_mem ih hc
  · exact h.reaches fun l hl => .root (by simp [hl])

/--
Clearing below an origin that carries a shape: the origin carries nothing any more, each link of the shape
is as it was before it first joined a tree, and nothing else has changed.
-/
theorem Carries.clear {o : LinkId n} {t : Shape n} (h : g.Carries o t) :
    ((g.clearBelow (g.child o .left)).setChild o .left none).Carries o .empty ∧
      Edit g ((g.clearBelow (g.child o .left)).setChild o .left none) o .left t.inorder ∧
      ∀ k ∈ t.inorder,
        ((g.clearBelow (g.child o .left)).setChild o .left none).get k = (g.get k).pristine := by
  have hreset : ∀ k ∈ t.inorder, (g.clearBelow (g.child o .left)).get k = (g.get k).pristine := by
    intro k hk
    rw [get_clearBelow, if_pos ((h.spans.reaches_iff k).mpr hk)]
  have hkeep : ∀ k, k ∉ t.inorder → (g.clearBelow (g.child o .left)).get k = g.get k := by
    intro k hk
    rw [get_clearBelow, if_neg (fun hreach => hk ((h.spans.reaches_iff k).mp hreach))]
  have horigin := (get_eq_iff o).mp (hkeep o h.fresh)
  have hboth : ∀ k, (g.clearBelow (g.child o .left)).owner k = g.owner k ∧
      (g.clearBelow (g.child o .left)).tag k = g.tag k := by
    intro k
    unfold owner tag
    by_cases hk : k ∈ t.inorder
    · rw [hreset k hk]
      exact ⟨rfl, rfl⟩
    · rw [hkeep k hk]
      exact ⟨rfl, rfl⟩
  refine ⟨⟨?_, by simp [Shape.inorder], by simp [Shape.inorder], ?_, ?_⟩, ⟨?_, ?_, ?_, ?_, ?_, ?_⟩, ?_⟩
  · simp
  · rw [parent_setChild, horigin.2.2.1, h.parent]
  · rw [child_setChild, if_neg (fun hx => Side.noConfusion hx.2), horigin.2.2.2.1, h.right]
  · intro k
    exact by rw [owner_setChild, (hboth k).1]
  · intro k
    exact by rw [tag_setChild, (hboth k).2]
  · intro k hko hk
    rw [get_setChild, if_neg (Ne.symm hko), hkeep k hk]
  · rw [parent_setChild, horigin.2.2.1]
  · rw [Side.other, child_setChild, if_neg (fun hx => Side.noConfusion hx.2), horigin.2.2.2.1]
  · rw [balance_setChild, horigin.2.2.2.2]
  · intro k hk
    have hko : o ≠ k := fun heq => h.fresh (heq ▸ hk)
    rw [get_setChild, if_neg hko, hreset k hk]

end Links

end BalancedLinks
