import BalancedLinks.Erasure
import BalancedLinks.Proofs.Neighbours

/-!
# Changing places with the successor

A link with two children changes places with its successor by a handful of writes. Seen from the shape, the
two links have changed names and nothing else: `Links.Renames` says that one world is another one under
new names, and a spanned shape can be renamed as a whole, whatever its heights.

The main statement is `Links.Carries.exchange`.
-/

set_option autoImplicit false

namespace BalancedLinks

/-! ## New names -/

namespace Shape

variable {n : Nat}

/-- The shape with its links renamed. -/
def rename (π : LinkId n → LinkId n) : Shape n → Shape n
  | .empty => .empty
  | .node a l b => .node (a.rename π) (π l) (b.rename π)

/-- Renaming goes into both subshapes, whichever side comes first. -/
@[simp] theorem rename_fork (π : LinkId n → LinkId n) (s : Side) (a : Shape n) (l : LinkId n) (b : Shape n) :
    (fork s a l b).rename π = fork s (a.rename π) (π l) (b.rename π) := by
  cases s <;> rfl

/-- Names have no part in a height. -/
@[simp] theorem height_rename (π : LinkId n → LinkId n) (t : Shape n) : (t.rename π).height = t.height := by
  induction t with
  | empty => rfl
  | node a l b iha ihb => simp only [rename, height, iha, ihb]

/-- Names have no part in a tilt. -/
@[simp] theorem tilt_rename (π : LinkId n → LinkId n) (t : Shape n) : (t.rename π).tilt = t.tilt := by
  cases t with
  | empty => rfl
  | node a l b => simp only [rename, tilt, height_rename]

/-- The order of the links is that of their old names. -/
@[simp] theorem inorder_rename (π : LinkId n → LinkId n) (t : Shape n) :
    (t.rename π).inorder = t.inorder.map π := by
  induction t with
  | empty => rfl
  | node a l b iha ihb => simp only [rename, inorder, iha, ihb, List.map_append, List.map_cons]

/-- Names have no part in the balance of a shape. -/
theorem balanced_rename (π : LinkId n → LinkId n) (t : Shape n) : (t.rename π).Balanced ↔ t.Balanced := by
  induction t with
  | empty => exact Iff.rfl
  | node a l b iha ihb =>
    have htilt := tilt_rename π (.node a l b)
    simp only [rename] at htilt
    simp only [rename, Balanced, htilt, iha, ihb]

/-- A shape whose links keep their names stays what it is. -/
theorem rename_eq_self {π : LinkId n → LinkId n} {t : Shape n} (h : ∀ k ∈ t.inorder, π k = k) :
    t.rename π = t := by
  induction t with
  | empty => rfl
  | node a l b iha ihb =>
    simp only [mem_inorder_node] at h
    simp only [rename, h l (Or.inl rfl), iha (fun k hk => h k (Or.inr (Or.inl hk))),
      ihb (fun k hk => h k (Or.inr (Or.inr hk)))]

end Shape

/-- The frame with its links renamed. -/
def Frame.rename {n : Nat} (π : LinkId n → LinkId n) (f : Frame n) : Frame n :=
  ⟨f.side, π f.link, f.rest.rename π⟩

namespace Shape

variable {n : Nat}

/-- A place is renamed with the shape that is put there. -/
theorem rename_plug (π : LinkId n → LinkId n) (fs : List (Frame n)) (t : Shape n) :
    (plug fs t).rename π = plug (fs.map (Frame.rename π)) (t.rename π) := by
  induction fs generalizing t with
  | nil => rfl
  | cons f fs ih =>
    rw [plug_cons, ih, List.map_cons, plug_cons]
    simp only [Frame.fill, rename_fork, Frame.rename]

/-- The topmost link of a whole shape is not at the place below a frame. -/
theorem root?_plug_mem {f : Frame n} {fs : List (Frame n)} {t : Shape n} {k : LinkId n}
    (h : (plug (f :: fs) t).root? = some k) : k ∈ around (f :: fs) := by
  induction fs generalizing f t with
  | nil =>
    rw [plug_cons, plug_nil, Frame.root?_fill, Option.some.injEq] at h
    simp [h]
  | cons f' fs ih =>
    rw [mem_around_cons]
    exact Or.inr (Or.inr (ih h))

/-- Nothing comes before a place that is reached to the left throughout. -/
theorem linksBefore_eq_nil {fs : List (Frame n)} (h : ∀ f ∈ fs, f.side = .left) : linksBefore fs = [] := by
  induction fs with
  | nil => rfl
  | cons f fs ih =>
    simp only [List.mem_cons, forall_eq_or_imp] at h
    rw [linksBefore, ih h.2, List.nil_append, Frame.before, h.1]

/-- Frames whose links keep their names stay what they are. -/
theorem map_rename_eq_self {π : LinkId n → LinkId n} {fs : List (Frame n)} (h : ∀ k ∈ around fs, π k = k) :
    fs.map (Frame.rename π) = fs := by
  induction fs with
  | nil => rfl
  | cons f fs ih =>
    simp only [mem_around_cons] at h
    rw [List.map_cons, ih (fun k hk => h k (Or.inr (Or.inr hk)))]
    simp only [Frame.rename, h f.link (Or.inl rfl),
      rename_eq_self (fun k hk => h k (Or.inr (Or.inl hk)))]

end Shape

namespace Links

variable {α : Type} {n : Nat} {g g' : Links α n}

/-- Whether one world is another one under new names, as far as the places of the given links go. -/
structure Renames (g g' : Links α n) (π : LinkId n → LinkId n) (ls : List (LinkId n)) : Prop where
  parent : ∀ k ∈ ls, g'.parent (π k) = (g.parent k).map π
  child : ∀ k ∈ ls, ∀ s, g'.child (π k) s = (g.child k s).map π
  balance : ∀ k ∈ ls, g'.balance (π k) = g.balance k

namespace Renames

variable {π : LinkId n → LinkId n} {ls : List (LinkId n)}

/-- Under new names a slot unfolds to the renamed shape. -/
theorem spans (h : Renames g g' π ls) {slot : Option (LinkId n)} {p : LinkId n} {t : Shape n}
    (hls : ∀ k ∈ t.inorder, k ∈ ls) (ht : g.Spans slot p t) :
    g'.Spans (slot.map π) (π p) (t.rename π) := by
  induction t generalizing slot p with
  | empty =>
    obtain rfl : slot = none := ht
    rfl
  | node a l b iha ihb =>
    obtain ⟨hslot, hparent, ha, hb⟩ := ht
    simp only [Shape.mem_inorder_node] at hls
    have hl := hls l (Or.inl rfl)
    refine ⟨by rw [hslot, Option.map_some], by rw [h.parent l hl, hparent, Option.map_some], ?_, ?_⟩
    · rw [h.child l hl]
      exact iha (fun k hk => hls k (Or.inr (Or.inl hk))) ha
    · rw [h.child l hl]
      exact ihb (fun k hk => hls k (Or.inr (Or.inr hk))) hb

/-- Under new names the same balances are recorded at every place. -/
theorem exact (h : Renames g g' π ls) {t : Shape n} (hls : ∀ k ∈ t.inorder, k ∈ ls) (ht : g.Exact t) :
    g'.Exact (t.rename π) := by
  induction t with
  | empty => trivial
  | node a l b iha ihb =>
    obtain ⟨hbalance, ha, hb⟩ := ht
    have htilt := Shape.tilt_rename π (.node a l b)
    simp only [Shape.rename] at htilt
    simp only [Shape.mem_inorder_node] at hls
    refine ⟨?_, iha (fun k hk => hls k (Or.inr (Or.inl hk))) ha,
      ihb (fun k hk => hls k (Or.inr (Or.inr hk))) hb⟩
    rw [h.balance l (hls l (Or.inl rfl)), hbalance, htilt]

end Renames

/-! ## References within a shape -/

namespace Carries

variable {o : LinkId n} {t : Shape n}

/-- A child of a link within a carried shape is within it, and refers back. -/
theorem child_back (h : g.Carries o t) {k c : LinkId n} {s : Side} (hk : k = o ∨ k ∈ t.inorder)
    (hchild : g.child k s = some c) : c ∈ t.inorder ∧ g.parent c = some k := by
  rcases hk with rfl | hk
  · cases s with
    | right => simp [h.right] at hchild
    | left =>
      have hroot := h.spans.slot_eq.symm.trans hchild
      have hwhole : g.Carries k (.plug [] t) := h
      exact ⟨Shape.root?_mem hroot, hwhole.parent_at hroot⟩
  · obtain ⟨fs, a, b, rfl⟩ := Shape.exists_place hk
    obtain ⟨-, -, ha, hb⟩ := h.at_place
    have hbelow : ∀ u, u = a ∨ u = b → g.Spans (some c) k u →
        c ∈ (Shape.plug fs (.node a k b)).inorder ∧ g.parent c = some k := by
      intro u hu hspans
      have hroot := hspans.slot_eq.symm
      have hc := Shape.root?_mem hroot
      refine ⟨(Shape.mem_inorder_plug fs _ c).mpr (Or.inl ?_), ?_⟩
      · rw [Shape.mem_inorder_node]
        rcases hu with rfl | rfl
        · exact Or.inr (Or.inl hc)
        · exact Or.inr (Or.inr hc)
      · cases u with
        | empty => simp [Shape.root?] at hroot
        | node x m y =>
          simp only [Shape.root?, Option.some.injEq] at hroot
          exact hroot ▸ hspans.2.1
    cases s
    · exact hbelow a (Or.inl rfl) (hchild ▸ ha)
    · exact hbelow b (Or.inr rfl) (hchild ▸ hb)

/-- A link within a carried shape is exactly one child of its parent. -/
theorem parent_forth (h : g.Carries o t) {k : LinkId n} (hk : k ∈ t.inorder) :
    ∃ p, (p = o ∨ p ∈ t.inorder) ∧ p ≠ k ∧ g.parent k = some p ∧ g.child p (g.sideOf k) = some k ∧
      g.child p (g.sideOf k).other ≠ some k := by
  obtain ⟨fs, a, b, rfl⟩ := Shape.exists_place hk
  have hroot : (Shape.node a k b).root? = some k := rfl
  rw [h.sideOf_at hroot]
  refine ⟨(Shape.slotOf o fs).1, ?_, ?_, h.parent_at hroot, h.at_place.slot_eq,
    h.child_other_ne (Shape.root?_mem hroot)⟩
  · exact (Shape.slotOf_mem o fs).imp_right fun hmem => (Shape.mem_inorder_plug fs _ _).mpr (Or.inr hmem)
  · intro heq
    have hnot := h.slotOf_not_mem
    rw [heq] at hnot
    exact hnot (Shape.root?_mem hroot)

/-- A child slot of a link within a carried shape is the one that the child hangs from. -/
theorem slot_of_child (h : g.Carries o t) {k c p : LinkId n} {s : Side} (hk : k = o ∨ k ∈ t.inorder)
    (hchild : g.child k s = some c) (hp : g.parent c = some p) : k = p ∧ s = g.sideOf c := by
  obtain ⟨hc, hback⟩ := h.child_back hk hchild
  obtain ⟨q, -, -, hq, -, hother⟩ := h.parent_forth hc
  obtain rfl : k = q := Option.some.inj (hback.symm.trans hq)
  refine ⟨Option.some.inj (hback.symm.trans hp), ?_⟩
  by_contra hs
  apply hother
  rw [← hchild]
  congr 1
  cases hside : g.sideOf c <;> cases s <;> simp_all [Side.other]

end Carries

/-- Under new names that the origin does not share, it carries the renamed shape. -/
theorem Carries.renamed {o : LinkId n} {t : Shape n} {π : Equiv.Perm (LinkId n)} {ls : List (LinkId n)}
    (h : g.Carries o t) (hnames : Renames g g' π (o :: t.inorder)) (hedit : Edit g g' o .left ls)
    (hfix : π o = o) : g'.Carries o (t.rename π) := by
  refine ⟨?_, ?_, ?_, hedit.parent.trans h.parent, hedit.child.trans h.right⟩
  · have hspans := hnames.spans (fun k hk => List.mem_cons_of_mem o hk) h.spans
    rw [← hnames.child o (by simp), hfix] at hspans
    exact hspans
  · rw [Shape.inorder_rename]
    exact h.nodup.map π.injective
  · rw [Shape.inorder_rename, List.mem_map]
    rintro ⟨k, hk, hko⟩
    exact h.fresh (π.injective (hko.trans hfix.symm) ▸ hk)

/-! ## The exchange -/

section Exchanged

variable {l r p rp left right : LinkId n}

/-- The parents after the writes. Of writes to one reference the last one counts, so that it comes first here. -/
theorem parent_relinkExchanged (k : LinkId n) :
    (g.relinkExchanged l left right r p rp).parent k =
      if g.child r .right = some k then some l
      else if l = k then some (if r = right then r else rp)
      else if r ≠ right ∧ right = k then some r
      else if left = k then some r
      else if r = k then some p else g.parent k := by
  unfold relinkExchanged
  by_cases h : r = right
  · simp [h]
  · simp [h]

/-- The children after the writes, the last write first. -/
theorem child_relinkExchanged (k : LinkId n) (s : Side) :
    (g.relinkExchanged l left right r p rp).child k s =
      if l = k ∧ s = .right then g.child r .right
      else if l = k ∧ s = .left then none
      else if r ≠ right ∧ rp = k ∧ s = .left then some l
      else if r = k ∧ s = .right then some (if r = right then l else right)
      else if r = k ∧ s = .left then some left
      else if p = k ∧ s = g.sideOf l then some r else g.child k s := by
  unfold relinkExchanged
  by_cases h : r = right
  · subst h
    simp [eq_comm]
  · simp [h, eq_comm]

/-- The two balances change places with the links. -/
theorem balance_relinkExchanged (k : LinkId n) :
    (g.relinkExchanged l left right r p rp).balance k =
      if r = k then g.balance l else if l = k then g.balance r else g.balance k := by
  unfold relinkExchanged
  by_cases h : r = right
  · simp [h]
  · simp [h]

end Exchanged

/-- Swapping two names leaves a reference to neither of them alone. -/
theorem map_swap_eq_self {l r : LinkId n} {slot : Option (LinkId n)} (hl : slot ≠ some l)
    (hr : slot ≠ some r) : slot.map (Equiv.swap l r) = slot := by
  cases slot with
  | none => rfl
  | some k =>
    rw [Option.map_some, Equiv.swap_apply_of_ne_of_ne (fun heq => hl (congrArg some heq))
      (fun heq => hr (congrArg some heq))]

/-- A link with two children within a carried shape, and its successor, with the links they hang from. -/
structure Exchangeable (g : Links α n) (o : LinkId n) (t : Shape n) (l left right r p rp : LinkId n) :
    Prop where
  carries : g.Carries o t
  mem : l ∈ t.inorder
  child_left : g.child l .left = some left
  child_right : g.child l .right = some right
  parent : g.parent l = some p
  mem_successor : r ∈ t.inorder
  left_successor : g.child r .left = none
  parent_successor : g.parent r = some rp
  outermost : g.outermost right .left = some r
  ne_successor : l ≠ r
  parent_ne_successor : p ≠ r
  way : (r = right ∧ rp = l) ∨ (r ≠ right ∧ rp ≠ l ∧ g.child rp .left = some r)

namespace Exchangeable

variable {o l left right r p rp : LinkId n} {t : Shape n}

/-- The left child refers back to the link. -/
theorem left_back (h : Exchangeable g o t l left right r p rp) : g.parent left = some l :=
  (h.carries.child_back (Or.inr h.mem) h.child_left).2

/-- The right child refers back to the link. -/
theorem right_back (h : Exchangeable g o t l left right r p rp) : g.parent right = some l :=
  (h.carries.child_back (Or.inr h.mem) h.child_right).2

/-- The only child of the successor refers back to it. -/
theorem inner_back (h : Exchangeable g o t l left right r p rp) {k : LinkId n}
    (hk : g.child r .right = some k) : g.parent k = some r :=
  (h.carries.child_back (Or.inr h.mem_successor) hk).2

/-- The link is held by the slot of its parent on its own side, and is not its own parent. -/
theorem slot (h : Exchangeable g o t l left right r p rp) :
    (p = o ∨ p ∈ t.inorder) ∧ p ≠ l ∧ g.child p (g.sideOf l) = some l := by
  obtain ⟨q, hin, hne, hq, hchild, -⟩ := h.carries.parent_forth h.mem
  obtain rfl : p = q := Option.some.inj (h.parent.symm.trans hq)
  exact ⟨hin, hne, hchild⟩

/-- The successor hangs within the shape or from the origin, and is not its own parent. -/
theorem slot_successor (h : Exchangeable g o t l left right r p rp) :
    (rp = o ∨ rp ∈ t.inorder) ∧ rp ≠ r := by
  obtain ⟨q, hin, hne, hq, -⟩ := h.carries.parent_forth h.mem_successor
  obtain rfl : rp = q := Option.some.inj (h.parent_successor.symm.trans hq)
  exact ⟨hin, hne⟩

/-- The left child is another link than the two that are exchanged. -/
theorem left_ne (h : Exchangeable g o t l left right r p rp) : left ≠ l ∧ left ≠ r := by
  constructor
  · intro hx
    exact h.slot.2.1 (Option.some.inj (h.parent.symm.trans (hx ▸ h.left_back)))
  · intro hx
    have hrp : rp = l := Option.some.inj (h.parent_successor.symm.trans (hx ▸ h.left_back))
    rcases h.way with ⟨hright, -⟩ | ⟨-, hne, -⟩
    · -- the same link would be both children of `l`
      have hleft := h.carries.slot_of_child (Or.inr h.mem) h.child_left h.left_back
      have hback := h.carries.slot_of_child (Or.inr h.mem) (hright.symm ▸ h.child_right) (hx ▸ h.left_back)
      exact Side.noConfusion ((hx ▸ hleft.2).trans hback.2.symm)
    · exact hne hrp

/-- The right child, which may be the successor, is another link than the one above it. -/
theorem right_ne (h : Exchangeable g o t l left right r p rp) : right ≠ l :=
  fun hx => h.slot.2.1 (Option.some.inj (h.parent.symm.trans (hx ▸ h.right_back)))

/-- The only child of the successor is neither of the two. -/
theorem inner_ne (h : Exchangeable g o t l left right r p rp) :
    g.child r .right ≠ some l ∧ g.child r .right ≠ some r :=
  ⟨fun hx => h.parent_ne_successor (Option.some.inj (h.parent.symm.trans (h.inner_back hx))),
    fun hx => h.slot_successor.2 (Option.some.inj (h.parent_successor.symm.trans (h.inner_back hx)))⟩

/-- No other link hangs from one of the two, unless it is a child that they are known to have. -/
theorem parent_ne (h : Exchangeable g o t l left right r p rp) {k : LinkId n} (hk : k = o ∨ k ∈ t.inorder)
    (hinner : g.child r .right ≠ some k) (hright : right ≠ k) (hleft : left ≠ k) :
    g.parent k ≠ some l ∧ g.parent k ≠ some r := by
  rcases hk with rfl | hk
  · simp [h.carries.parent]
  obtain ⟨q, -, -, hq, hchild, -⟩ := h.carries.parent_forth hk
  constructor
  · intro hkp
    obtain rfl : l = q := Option.some.inj (hkp.symm.trans hq)
    cases hside : g.sideOf k with
    | left => exact hleft (Option.some.inj (h.child_left.symm.trans (hside ▸ hchild)))
    | right => exact hright (Option.some.inj (h.child_right.symm.trans (hside ▸ hchild)))
  · intro hkp
    obtain rfl : r = q := Option.some.inj (hkp.symm.trans hq)
    cases hside : g.sideOf k with
    | left => exact Option.some_ne_none k ((hside ▸ hchild).symm.trans h.left_successor)
    | right => exact hinner (hside ▸ hchild)

/-- The parent references after the exchange are those before it, with the two names swapped. -/
theorem parent_swapped (h : Exchangeable g o t l left right r p rp) {k : LinkId n}
    (hk : k = o ∨ k ∈ t.inorder) :
    (g.relinkExchanged l left right r p rp).parent (Equiv.swap l r k) =
      (g.parent k).map (Equiv.swap l r) := by
  rw [parent_relinkExchanged]
  rcases eq_or_ne k l with rfl | hkl
  · rw [Equiv.swap_apply_left, if_neg h.inner_ne.2, if_neg h.ne_successor, if_neg (fun hx => hx.1 hx.2.symm),
      if_neg h.left_ne.2, if_pos rfl, h.parent, Option.map_some,
      Equiv.swap_apply_of_ne_of_ne h.slot.2.1 h.parent_ne_successor]
  rcases eq_or_ne k r with rfl | hkr
  · rw [Equiv.swap_apply_right, if_neg h.inner_ne.1, if_pos rfl, h.parent_successor, Option.map_some]
    rcases h.way with ⟨hx, rfl⟩ | ⟨hx, hy, -⟩
    · rw [if_pos hx, Equiv.swap_apply_left]
    · rw [if_neg hx, Equiv.swap_apply_of_ne_of_ne hy h.slot_successor.2]
  rw [Equiv.swap_apply_of_ne_of_ne hkl hkr, if_neg (Ne.symm hkl), if_neg (Ne.symm hkr)]
  by_cases hinner : g.child r .right = some k
  · rw [if_pos hinner, h.inner_back hinner, Option.map_some, Equiv.swap_apply_right]
  by_cases hright : right = k
  · subst hright
    rw [if_neg hinner, if_pos ⟨Ne.symm hkr, rfl⟩, h.right_back, Option.map_some, Equiv.swap_apply_left]
  by_cases hleft : left = k
  · subst hleft
    rw [if_neg hinner, if_neg (fun hx => hright hx.2), if_pos rfl, h.left_back, Option.map_some,
      Equiv.swap_apply_left]
  -- any other link hangs from neither of the two
  obtain ⟨hpl, hpr⟩ := h.parent_ne hk hinner hright hleft
  rw [if_neg hinner, if_neg (fun hx => hright hx.2), if_neg hleft, map_swap_eq_self hpl hpr]

/-- The child references after the exchange are those before it, with the two names swapped. -/
theorem child_swapped (h : Exchangeable g o t l left right r p rp) {k : LinkId n}
    (hk : k = o ∨ k ∈ t.inorder) (s : Side) :
    (g.relinkExchanged l left right r p rp).child (Equiv.swap l r k) s =
      (g.child k s).map (Equiv.swap l r) := by
  rw [child_relinkExchanged]
  rcases eq_or_ne k l with rfl | hkl
  · rw [Equiv.swap_apply_left, if_neg (fun hx => h.ne_successor hx.1), if_neg (fun hx => h.ne_successor hx.1),
      if_neg (fun hx => h.slot_successor.2 hx.2.1)]
    cases s with
    | left =>
      rw [if_neg (fun hx => Side.noConfusion hx.2), if_pos ⟨rfl, rfl⟩, h.child_left, Option.map_some,
        Equiv.swap_apply_of_ne_of_ne h.left_ne.1 h.left_ne.2]
    | right =>
      rw [if_pos ⟨rfl, rfl⟩, h.child_right, Option.map_some]
      by_cases hx : r = right
      · rw [if_pos hx, ← hx, Equiv.swap_apply_right]
      · rw [if_neg hx, Equiv.swap_apply_of_ne_of_ne h.right_ne (Ne.symm hx)]
  rcases eq_or_ne k r with rfl | hkr
  · rw [Equiv.swap_apply_right]
    cases s with
    | left =>
      rw [if_neg (fun hx => Side.noConfusion hx.2), if_pos ⟨rfl, rfl⟩, h.left_successor, Option.map_none]
    | right => rw [if_pos ⟨rfl, rfl⟩, map_swap_eq_self h.inner_ne.1 h.inner_ne.2]
  rw [Equiv.swap_apply_of_ne_of_ne hkl hkr, if_neg (fun hx => hkl hx.1.symm),
    if_neg (fun hx => hkl hx.1.symm)]
  by_cases hrslot : r ≠ right ∧ rp = k ∧ s = .left
  · rw [if_pos hrslot]
    obtain ⟨hx, rfl, rfl⟩ := hrslot
    rcases h.way with ⟨hy, -⟩ | ⟨-, -, hchild⟩
    · exact absurd hy hx
    · rw [hchild, Option.map_some, Equiv.swap_apply_right]
  rw [if_neg hrslot, if_neg (fun hx => hkr hx.1.symm), if_neg (fun hx => hkr hx.1.symm)]
  by_cases hlslot : p = k ∧ s = g.sideOf l
  · rw [if_pos hlslot]
    obtain ⟨rfl, rfl⟩ := hlslot
    rw [h.slot.2.2, Option.map_some, Equiv.swap_apply_left]
  -- any other slot holds neither of the two
  rw [if_neg hlslot]
  refine (map_swap_eq_self ?_ ?_).symm
  · intro hchild
    obtain ⟨rfl, hside⟩ := h.carries.slot_of_child hk hchild h.parent
    exact hlslot ⟨rfl, hside⟩
  · intro hchild
    obtain ⟨rfl, hside⟩ := h.carries.slot_of_child hk hchild h.parent_successor
    rcases h.way with ⟨-, hy⟩ | ⟨hx, -, hchild'⟩
    · exact hkl hy
    · exact hrslot ⟨hx, rfl, hside.trans (h.carries.slot_of_child hk hchild' h.parent_successor).2.symm⟩

/-- The writes of an exchange swap the names of the two links. -/
theorem renames (h : Exchangeable g o t l left right r p rp) :
    Renames g (g.relinkExchanged l left right r p rp) (Equiv.swap l r) (o :: t.inorder) := by
  refine ⟨fun k hk => h.parent_swapped (List.mem_cons.mp hk),
    fun k hk s => h.child_swapped (List.mem_cons.mp hk) s, ?_⟩
  intro k _
  rw [balance_relinkExchanged]
  rcases eq_or_ne k l with rfl | hkl
  · rw [Equiv.swap_apply_left, if_pos rfl]
  rcases eq_or_ne k r with rfl | hkr
  · rw [Equiv.swap_apply_right, if_neg (Ne.symm h.ne_successor), if_pos rfl]
  · rw [Equiv.swap_apply_of_ne_of_ne hkl hkr, if_neg (Ne.symm hkr), if_neg (Ne.symm hkl)]

/-- The origin is neither of the two links. -/
theorem swap_origin (h : Exchangeable g o t l left right r p rp) : Equiv.swap l r o = o :=
  Equiv.swap_apply_of_ne_of_ne (fun heq => h.carries.fresh (heq ▸ h.mem))
    (fun heq => h.carries.fresh (heq ▸ h.mem_successor))

/-- The writes of an exchange stay within the shape. -/
theorem edit (h : Exchangeable g o t l left right r p rp) :
    Edit g (g.relinkExchanged l left right r p rp) o .left t.inorder := by
  have hfix := h.swap_origin
  have howner : ∀ k, (g.relinkExchanged l left right r p rp).owner k = g.owner k := by
    intro k
    unfold relinkExchanged
    split_ifs <;> simp
  have htag : ∀ k, (g.relinkExchanged l left right r p rp).tag k = g.tag k := by
    intro k
    unfold relinkExchanged
    split_ifs <;> simp
  have hparent := h.parent_swapped (Or.inl rfl)
  have hright := h.child_swapped (Or.inl rfl) .right
  have hbalance := h.renames.balance o (by simp)
  rw [hfix] at hparent hright hbalance
  refine ⟨howner, htag, ?_, ?_, ?_, hbalance⟩
  · intro k hko hk
    have hne : ∀ m, m = o ∨ m ∈ t.inorder → m ≠ k := by
      rintro m (rfl | hm) rfl
      · exact hko rfl
      · exact hk hm
    have hl := hne l (Or.inr h.mem)
    have hr := hne r (Or.inr h.mem_successor)
    have hleft := hne left (Or.inr (h.carries.child_back (Or.inr h.mem) h.child_left).1)
    have hright := hne right (Or.inr (h.carries.child_back (Or.inr h.mem) h.child_right).1)
    have hp := hne p h.slot.1
    have hrp := hne rp h.slot_successor.1
    have hinner : g.child r .right ≠ some k := fun hx =>
      hk (h.carries.child_back (Or.inr h.mem_successor) hx).1
    refine (get_eq_iff k).mpr ⟨howner k, htag k, ?_, ?_, ?_⟩
    · rw [parent_relinkExchanged, if_neg hinner, if_neg hl, if_neg (fun hx => hright hx.2), if_neg hleft,
        if_neg hr]
    · intro s
      rw [child_relinkExchanged, if_neg (fun hx => hl hx.1), if_neg (fun hx => hl hx.1),
        if_neg (fun hx => hrp hx.2.1), if_neg (fun hx => hr hx.1), if_neg (fun hx => hr hx.1),
        if_neg (fun hx => hp hx.1)]
    · rw [balance_relinkExchanged, if_neg hr, if_neg hl]
  · rw [hparent, h.carries.parent, Option.map_none]
  · rw [Side.other, hright, h.carries.right, Option.map_none]

/-- Under swapped names the origin carries the same shape. -/
theorem renamed (h : Exchangeable g o t l left right r p rp) :
    (g.relinkExchanged l left right r p rp).Carries o (t.rename (Equiv.swap l r)) :=
  h.carries.renamed h.renames h.edit h.swap_origin

/-- The exchange succeeds and does these writes. -/
theorem exchange_eq (h : Exchangeable g o t l left right r p rp) :
    g.exchangeWithSuccessor l left right = .ok (g.relinkExchanged l left right r p rp) := by
  simp only [exchangeWithSuccessor, h.outermost, h.parent, h.parent_successor]

end Exchangeable

/-- A link with two children can be exchanged with the link at the left end of its right subshape. -/
theorem Carries.exchangeable {o l r : LinkId n} {fs ds : List (Frame n)} {a c : Shape n}
    (h : g.Carries o (.plug fs (.node a l (.plug ds (.node .empty r c))))) (ha : a ≠ .empty)
    (hds : ∀ f ∈ ds, f.side = .left) :
    ∃ left right p rp, Exchangeable g o (.plug fs (.node a l (.plug ds (.node .empty r c)))) l left right r p rp := by
  obtain ⟨left, hleft⟩ := Shape.exists_root? ha
  have hfull : Shape.plug ds (.node .empty r c) ≠ .empty := by
    intro hempty
    cases (Shape.plug_eq_empty hempty).2
  obtain ⟨right, hright⟩ := Shape.exists_root? hfull
  obtain ⟨hslot, hlp, hspansa, hspansb⟩ := h.at_place
  obtain ⟨hla, hlb, -, hndb, hab⟩ := (Shape.nodup_inorder_fork .left a l _).mp h.nodup_at
  have hrb : r ∈ (Shape.plug ds (.node .empty r c)).inorder :=
    (Shape.mem_inorder_plug ds _ r).mpr (Or.inl (by simp))
  -- the successor stands at a place of its own, below the right child of `l`
  have hr : g.Carries o (.plug (ds ++ ⟨.right, l, a⟩ :: fs) (.node .empty r c)) :=
    Shape.plug_node_plug fs ds a l _ ▸ h
  have hspansr := hr.at_place
  have hway : (r = right ∧ (Shape.slotOf o (ds ++ ⟨.right, l, a⟩ :: fs)).1 = l) ∨
      (r ≠ right ∧ (Shape.slotOf o (ds ++ ⟨.right, l, a⟩ :: fs)).1 ≠ l ∧
        g.child (Shape.slotOf o (ds ++ ⟨.right, l, a⟩ :: fs)).1 .left = some r) := by
    cases ds with
    | nil => exact Or.inl ⟨Option.some.inj hright, rfl⟩
    | cons d ds =>
      have hd := hds d (by simp)
      refine Or.inr ⟨?_, ?_, ?_⟩
      · rintro rfl
        exact ((Shape.nodup_inorder_plug (d :: ds) _).mp hndb).2.2 r (by simp)
          (Shape.root?_plug_mem hright)
      · intro heq
        exact hlb (heq ▸ (Shape.mem_inorder_plug (d :: ds) _ d.link).mpr (Or.inr (by simp)))
      · exact hd ▸ hspansr.1
  have hout : g.outermost right .left = some r := by
    have hheight := (Shape.height_le_length _).trans (Shape.length_inorder_le hndb)
    have hdown := descendWithin_eq (s := .left) hspansb hright hheight
    rw [Side.other, Shape.linksTowards, Shape.inorder_plug, Shape.linksBefore_eq_nil hds] at hdown
    exact hdown
  have hrl : r ∈ (Shape.node a l (.plug ds (.node .empty r c))).inorder := by simp [hrb]
  refine ⟨left, right, (Shape.slotOf o fs).1, (Shape.slotOf o (ds ++ ⟨.right, l, a⟩ :: fs)).1, ?_⟩
  exact
    { carries := h
      mem := Shape.link_mem_inorder_plug fs a l _
      child_left := hspansa.slot_eq.trans hleft
      child_right := hspansb.slot_eq.trans hright
      parent := hlp
      mem_successor := (Shape.mem_inorder_plug fs _ r).mpr (Or.inl hrl)
      left_successor := hspansr.2.2.1
      parent_successor := hspansr.2.1
      outermost := hout
      ne_successor := fun heq => hlb (heq ▸ hrb)
      parent_ne_successor := (ne_of_mem_of_not_mem hrl h.slotOf_not_mem).symm
      way := hway }

/--
A link with two children changes places with its successor, the next link in the order: the shape that the
origin carries afterwards is the same under swapped names, with the same balance recorded at every place.
-/
theorem Carries.exchange {o l r : LinkId n} {fs ds : List (Frame n)} {a c : Shape n}
    (h : g.Carries o (.plug fs (.node a l (.plug ds (.node .empty r c))))) (ha : a ≠ .empty)
    (hds : ∀ f ∈ ds, f.side = .left) :
    ∃ g', g.exposed l = .ok g' ∧
      Renames g g' (Equiv.swap l r)
        (o :: (Shape.plug fs (.node a l (.plug ds (.node .empty r c)))).inorder) ∧
      g'.Carries o ((Shape.plug fs (.node a l (.plug ds (.node .empty r c)))).rename (Equiv.swap l r)) ∧
      Edit g g' o .left (Shape.plug fs (.node a l (.plug ds (.node .empty r c)))).inorder := by
  obtain ⟨left, right, p, rp, hexch⟩ := h.exchangeable ha hds
  refine ⟨_, ?_, hexch.renames, hexch.renamed, hexch.edit⟩
  simp only [exposed, hexch.child_left, hexch.child_right, hexch.exchange_eq]

end Links

end BalancedLinks
