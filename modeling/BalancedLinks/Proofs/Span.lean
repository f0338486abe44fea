import BalancedLinks.Proofs.Mending

/-!
# Links that span a shape

`Links.Spans` says that a child slot unfolds to a shape whose links refer back to the links they hang from,
`Links.Exact` that the balances recorded in it are its differences of heights, and `Links.Carries` that
an origin carries a whole shape. `Links.Edit` bounds what a change to the links below one slot may touch.

The main statements are `Links.Carries.edit`: after a change at a place that stays within such bounds, the
origin carries the shape with the place filled anew; and `Links.Spans.nodup`: where the links of a shape refer
back to their parents, a link can occur twice only as both children of one.
-/

set_option autoImplicit false

namespace BalancedLinks

/-- The slot above a place: the link that holds it, and the side. -/
def Shape.slotOf {n : Nat} (o : LinkId n) : List (Frame n) → LinkId n × Side
  | [] => (o, .left)
  | f :: _ => (f.link, f.side)

/-- The slot of a place belongs to the origin or to a link above the place. -/
theorem Shape.slotOf_mem {n : Nat} (o : LinkId n) (fs : List (Frame n)) :
    (slotOf o fs).1 = o ∨ (slotOf o fs).1 ∈ around fs := by
  cases fs with
  | nil => exact Or.inl rfl
  | cons f fs => exact Or.inr (by simp [slotOf])

namespace Links

variable {α : Type} {n : Nat} {g g' g'' : Links α n}

/-! ## Shapes -/

/-- Whether a slot of `parent` unfolds to the shape, every link in it referring back to its parent. -/
def Spans (g : Links α n) : Option (LinkId n) → LinkId n → Shape n → Prop
  | slot, _, .empty => slot = none
  | slot, parent, .node a l b =>
    slot = some l ∧ g.parent l = some parent ∧
      g.Spans (g.child l .left) l a ∧ g.Spans (g.child l .right) l b

/-- A slot unfolds to the empty shape exactly if it is vacant. -/
@[simp] theorem spans_empty (slot : Option (LinkId n)) (p : LinkId n) :
    g.Spans slot p .empty ↔ slot = none :=
  Iff.rfl

/-- A slot unfolds to a fork exactly if it holds the link, and the link's slots unfold to the sides. -/
theorem spans_fork (s : Side) (slot : Option (LinkId n)) (p l : LinkId n) (a b : Shape n) :
    g.Spans slot p (.fork s a l b) ↔
      slot = some l ∧ g.parent l = some p ∧
        g.Spans (g.child l s) l a ∧ g.Spans (g.child l s.other) l b := by
  cases s
  · exact Iff.rfl
  · simp only [Shape.fork, Spans, Side.other]
    tauto

/-- A slot holds the root of the shape that it unfolds to. -/
theorem Spans.slot_eq {slot : Option (LinkId n)} {p : LinkId n} {t : Shape n} (h : g.Spans slot p t) :
    slot = t.root? := by
  cases t with
  | empty => exact h
  | node a l b => exact h.1

/-- A slot unfolds to one shape at most. -/
theorem Spans.unique {slot : Option (LinkId n)} {p q : LinkId n} {t u : Shape n} (h : g.Spans slot p t)
    (h' : g.Spans slot q u) : t = u := by
  induction t generalizing slot p q u with
  | empty =>
    obtain rfl : slot = none := h
    exact ((Shape.root?_eq_none_iff u).mp h'.slot_eq.symm).symm
  | node a l b iha ihb =>
    obtain ⟨rfl, -, ha, hb⟩ := h
    cases u with
    | empty => cases h'
    | node c k d =>
      obtain ⟨hkl, -, hc, hd⟩ := h'
      obtain rfl := Option.some.inj hkl
      rw [iha ha hc, ihb hb hd]

/-- A slot unfolds to the same shape where parents and children of the shape's links are the same. -/
theorem Spans.congr {slot : Option (LinkId n)} {p : LinkId n} {t : Shape n} (h : g.Spans slot p t)
    (hparent : ∀ k ∈ t.inorder, g'.parent k = g.parent k)
    (hchild : ∀ k ∈ t.inorder, ∀ s, g'.child k s = g.child k s) : g'.Spans slot p t := by
  induction t generalizing slot p with
  | empty => exact h
  | node a l b iha ihb =>
    obtain ⟨hslot, hl, ha, hb⟩ := h
    simp only [Shape.mem_inorder_node] at hparent hchild
    refine ⟨hslot, (hparent l (Or.inl rfl)).trans hl, ?_, ?_⟩
    · rw [hchild l (Or.inl rfl)]
      exact iha ha (fun k hk => hparent k (Or.inr (Or.inl hk))) (fun k hk => hchild k (Or.inr (Or.inl hk)))
    · rw [hchild l (Or.inl rfl)]
      exact ihb hb (fun k hk => hparent k (Or.inr (Or.inr hk))) (fun k hk => hchild k (Or.inr (Or.inr hk)))

/-- Where a shape hangs below one link in two worlds, the shape's links have the same references. -/
theorem Spans.references_eq {slot slot' : Option (LinkId n)} {p l : LinkId n} {t : Shape n}
    (h : g.Spans slot p t) (h' : g'.Spans slot' p t) (hl : l ∈ t.inorder) :
    g'.parent l = g.parent l ∧ ∀ s, g'.child l s = g.child l s := by
  induction t generalizing slot slot' p with
  | empty => simp [Shape.inorder] at hl
  | node a k b iha ihb =>
    obtain ⟨-, hparent, ha, hb⟩ := h
    obtain ⟨-, hparent', ha', hb'⟩ := h'
    rcases (Shape.mem_inorder_node a k b l).mp hl with rfl | hl | hl
    · refine ⟨hparent'.trans hparent.symm, fun s => ?_⟩
      cases s with
      | left => exact ha'.slot_eq.trans ha.slot_eq.symm
      | right => exact hb'.slot_eq.trans hb.slot_eq.symm
    · exact iha ha ha' hl
    · exact ihb hb hb' hl

/-- A slot unfolds to the same shape below another parent once the topmost link refers to that parent. -/
theorem Spans.move {slot : Option (LinkId n)} {p p' : LinkId n} {t : Shape n} (h : g.Spans slot p t)
    (hnodup : t.inorder.Nodup)
    (hparent : ∀ k ∈ t.inorder, g'.parent k = if slot = some k then some p' else g.parent k)
    (hchild : ∀ k ∈ t.inorder, ∀ s, g'.child k s = g.child k s) : g'.Spans slot p' t := by
  cases t with
  | empty => exact h
  | node a l b =>
    obtain ⟨hslot, -, ha, hb⟩ := h
    obtain ⟨hla, hlb, -⟩ := (Shape.nodup_inorder_fork .left a l b).mp hnodup
    simp only [Shape.mem_inorder_node] at hparent hchild
    have hbelow : ∀ k, k ≠ l → (k ∈ a.inorder ∨ k ∈ b.inorder) → g'.parent k = g.parent k := by
      intro k hkl hk
      rw [hparent k (Or.inr hk), if_neg]
      rw [hslot]
      intro heq
      exact hkl (Option.some.inj heq).symm
    refine ⟨hslot, by rw [hparent l (Or.inl rfl), if_pos hslot], ?_, ?_⟩
    · rw [hchild l (Or.inl rfl)]
      exact ha.congr (fun k hk => hbelow k (fun heq => hla (heq ▸ hk)) (Or.inl hk))
        (fun k hk => hchild k (Or.inr (Or.inl hk)))
    · rw [hchild l (Or.inl rfl)]
      exact hb.congr (fun k hk => hbelow k (fun heq => hlb (heq ▸ hk)) (Or.inr hk))
        (fun k hk => hchild k (Or.inr (Or.inr hk)))

/-! ## What references to parents keep apart -/

section Apart

variable {slot slot' : Option (LinkId n)} {p q l k : LinkId n} {s s' : Side} {t u a b : Shape n}

/-- The link in a slot has the slot's link for a parent. -/
theorem Spans.parent_eq (h : g.Spans slot p t) (hslot : slot = some l) : g.parent l = some p := by
  cases t with
  | empty => cases hslot.symm.trans h
  | node a k b =>
    obtain rfl := Option.some.inj (hslot.symm.trans h.1)
    exact h.2.1

/-- Each link of a shape stands at the top of a subshape. -/
theorem Spans.exists_at (h : g.Spans slot p t) (hk : k ∈ t.inorder) :
    ∃ q x y, g.Spans (some k) q (.node x k y) ∧ (Shape.node x k y).height ≤ t.height := by
  induction t generalizing slot p with
  | empty => simp [Shape.inorder] at hk
  | node a l b iha ihb =>
    obtain ⟨rfl, hl, ha, hb⟩ := h
    have hle : a.height ≤ (Shape.node a l b).height ∧ b.height ≤ (Shape.node a l b).height := by
      simp only [Shape.height]
      omega
    rcases (Shape.mem_inorder_node a l b k).mp hk with rfl | hk | hk
    · exact ⟨p, a, b, ⟨rfl, hl, ha, hb⟩, Nat.le_refl _⟩
    · obtain ⟨q, x, y, hspans, hxy⟩ := iha ha hk
      exact ⟨q, x, y, hspans, hxy.trans hle.1⟩
    · obtain ⟨q, x, y, hspans, hxy⟩ := ihb hb hk
      exact ⟨q, x, y, hspans, hxy.trans hle.2⟩

/-- A link is not in a shape that hangs from it: the shape would be a part of itself. -/
theorem Spans.not_mem (h : g.Spans (g.child l s) q t) : l ∉ t.inorder := by
  intro hl
  obtain ⟨p, x, y, ⟨-, -, hx, hy⟩, hle⟩ := h.exists_at hl
  simp only [Shape.height] at hle
  cases s with
  | left =>
    obtain rfl := hx.unique h
    omega
  | right =>
    obtain rfl := hy.unique h
    omega

/-- The parent of a link in a shape is in the shape as well, unless the link is at the top. -/
theorem Spans.parent_mem (h : g.Spans slot p t) (hk : k ∈ t.inorder) (hparent : g.parent k = some q) :
    (slot = some k ∧ q = p) ∨ q ∈ t.inorder := by
  induction t generalizing slot p with
  | empty => simp [Shape.inorder] at hk
  | node a l b iha ihb =>
    obtain ⟨hslot, hl, ha, hb⟩ := h
    rw [Shape.mem_inorder_node]
    rcases (Shape.mem_inorder_node a l b k).mp hk with rfl | hk | hk
    · exact Or.inl ⟨hslot, Option.some.inj (hparent.symm.trans hl)⟩
    · rcases iha ha hk with ⟨-, rfl⟩ | hq
      · exact Or.inr (Or.inl rfl)
      · exact Or.inr (Or.inr (Or.inl hq))
    · rcases ihb hb hk with ⟨-, rfl⟩ | hq
      · exact Or.inr (Or.inl rfl)
      · exact Or.inr (Or.inr (Or.inr hq))

/-- Where two shapes have a link in common, the topmost link of the one is in the other, if what the other hangs
from is not in the one: the way up from the common link leaves the first shape no later than the second. -/
theorem Spans.root_mem (h : g.Spans slot p t) (hu : g.Spans slot' q u) (hq : q ∉ t.inorder)
    (hkt : k ∈ t.inorder) (hku : k ∈ u.inorder) : ∃ r, slot = some r ∧ r ∈ u.inorder := by
  induction t generalizing slot p with
  | empty => simp [Shape.inorder] at hkt
  | node a l b iha ihb =>
    obtain ⟨hslot, -, ha, hb⟩ := h
    simp only [Shape.mem_inorder_node, not_or] at hq
    have hup : ∀ {s v}, g.Spans (g.child l s) l v → (∃ r, g.child l s = some r ∧ r ∈ u.inorder) →
        l ∈ u.inorder := by
      rintro s v hv ⟨r, hr, hru⟩
      rcases hu.parent_mem hru (hv.parent_eq hr) with ⟨-, rfl⟩ | hl
      · exact absurd rfl hq.1
      · exact hl
    rcases (Shape.mem_inorder_node a l b k).mp hkt with rfl | hk | hk
    · exact ⟨k, hslot, hku⟩
    · exact ⟨l, hslot, hup ha (iha ha hq.2.1 hk)⟩
    · exact ⟨l, hslot, hup hb (ihb hb hq.2.2 hk)⟩

/-- Two shapes that hang from one link and have a link in common hang from one and the same child. -/
theorem Spans.child_eq_of_mem (ha : g.Spans (g.child l s) l a) (hb : g.Spans (g.child l s') l b)
    (hka : k ∈ a.inorder) (hkb : k ∈ b.inorder) : g.child l s = g.child l s' := by
  obtain ⟨r, hr, hrb⟩ := ha.root_mem hb ha.not_mem hka hkb
  rcases hb.parent_mem hrb (ha.parent_eq hr) with ⟨hslot, -⟩ | hl
  · exact hr.trans hslot.symm
  · exact absurd hl hb.not_mem

/-- Where no link is both children of one parent, no link occurs twice. -/
theorem Spans.nodup (h : g.Spans slot p t)
    (hshare : ∀ l ∈ t.inorder, ∀ c, g.child l .left = some c → g.child l .right ≠ some c) :
    t.inorder.Nodup := by
  induction t generalizing slot p with
  | empty => simp [Shape.inorder]
  | node a l b iha ihb =>
    obtain ⟨-, -, ha, hb⟩ := h
    simp only [Shape.mem_inorder_node] at hshare
    rw [Shape.node_eq_fork, Shape.nodup_inorder_fork]
    refine ⟨ha.not_mem, hb.not_mem, iha ha (fun k hk => hshare k (Or.inr (Or.inl hk))),
      ihb hb (fun k hk => hshare k (Or.inr (Or.inr hk))), ?_⟩
    intro k hka hkb
    obtain ⟨c, hc, -⟩ := ha.root_mem hb ha.not_mem hka hkb
    exact hshare l (Or.inl rfl) c hc ((ha.child_eq_of_mem hb hka hkb).symm.trans hc)

end Apart
/-! ## Balances -/

/-- Whether every link of the shape records how much higher its right subshape is. -/
def Exact (g : Links α n) : Shape n → Prop
  | .empty => True
  | .node a l b => g.balance l = .finite (Shape.node a l b).tilt ∧ g.Exact a ∧ g.Exact b

/-- The balances of a fork are exact exactly if that of its link and those of its sides are. -/
theorem exact_fork (s : Side) (a : Shape n) (l : LinkId n) (b : Shape n) :
    g.Exact (.fork s a l b) ↔
      g.balance l = .finite (Shape.fork s a l b).tilt ∧ g.Exact a ∧ g.Exact b := by
  cases s
  · exact Iff.rfl
  · simp only [Shape.fork, Exact]
    tauto

/-- Whether balances are exact depends on those of the shape's links alone. -/
theorem Exact.congr {t : Shape n} (h : g.Exact t)
    (hbalance : ∀ k ∈ t.inorder, g'.balance k = g.balance k) : g'.Exact t := by
  induction t with
  | empty => trivial
  | node a l b iha ihb =>
    obtain ⟨hl, ha, hb⟩ := h
    simp only [Shape.mem_inorder_node] at hbalance
    exact ⟨(hbalance l (Or.inl rfl)).trans hl, iha ha (fun k hk => hbalance k (Or.inr (Or.inl hk))),
      ihb hb (fun k hk => hbalance k (Or.inr (Or.inr hk)))⟩

/-- Where two worlds record exact balances of one shape, they record the same. -/
theorem Exact.balance_eq {t : Shape n} (h : g.Exact t) (h' : g'.Exact t) {l : LinkId n} (hl : l ∈ t.inorder) :
    g'.balance l = g.balance l := by
  induction t with
  | empty => simp [Shape.inorder] at hl
  | node a k b iha ihb =>
    rcases (Shape.mem_inorder_node a k b l).mp hl with rfl | hl | hl
    · exact h'.1.trans h.1.symm
    · exact iha h.2.1 h'.2.1 hl
    · exact ihb h.2.2 h'.2.2 hl

/-! ## Edits -/

/-- Links are the same where all their parts are. -/
theorem get_eq_iff (l : LinkId n) :
    g'.get l = g.get l ↔
      g'.owner l = g.owner l ∧ g'.tag l = g.tag l ∧ g'.parent l = g.parent l ∧
        (∀ s, g'.child l s = g.child l s) ∧ g'.balance l = g.balance l := by
  unfold owner tag parent child balance
  constructor
  · intro h
    simp [h]
  · rintro ⟨ho, ht, hp, hc, hb⟩
    have hleft := hc .left
    have hright := hc .right
    simp only [Link.child] at hleft hright
    cases hx : g'.get l
    cases hy : g.get l
    simp_all

/-- A link that is as it was before it first joined a tree hangs nowhere, and nothing hangs from it. -/
theorem parts_of_pristine {l : LinkId n} (h : g.get l = (g.get l).pristine) :
    g.parent l = none ∧ (∀ s, g.child l s = none) ∧ g.balance l = .level := by
  unfold parent child balance
  rw [h]
  refine ⟨rfl, ?_, rfl⟩
  intro s
  cases s <;> rfl

/--
Whether one world comes from another by a change to the links named and to one child slot of a further
link. Owners and tags are never changed.
-/
structure Edit (g g' : Links α n) (p : LinkId n) (s : Side) (ls : List (LinkId n)) : Prop where
  owner : ∀ k, g'.owner k = g.owner k
  tag : ∀ k, g'.tag k = g.tag k
  outside : ∀ k, k ≠ p → k ∉ ls → g'.get k = g.get k
  parent : g'.parent p = g.parent p
  child : g'.child p s.other = g.child p s.other
  balance : g'.balance p = g.balance p

namespace Edit

variable {p q : LinkId n} {s s' : Side} {ls ls' : List (LinkId n)}

/-- No change at all is such a change. -/
theorem refl (g : Links α n) (p : LinkId n) (s : Side) (ls : List (LinkId n)) : Edit g g p s ls :=
  ⟨fun _ => rfl, fun _ => rfl, fun _ _ _ => rfl, rfl, rfl, rfl⟩

/-- Two such changes, one after the other, are one. -/
theorem trans (h : Edit g g' p s ls) (h' : Edit g' g'' p s ls) : Edit g g'' p s ls :=
  ⟨fun k => (h'.owner k).trans (h.owner k), fun k => (h'.tag k).trans (h.tag k),
    fun k hp hk => (h'.outside k hp hk).trans (h.outside k hp hk), h'.parent.trans h.parent,
    h'.child.trans h.child, h'.balance.trans h.balance⟩

/-- A change to some links is one to more links. -/
theorem mono (h : Edit g g' p s ls) (hls : ∀ k ∈ ls, k ∈ ls') : Edit g g' p s ls' :=
  ⟨h.owner, h.tag, fun k hp hk => h.outside k hp (fun hk' => hk (hls k hk')), h.parent, h.child, h.balance⟩

/-- Before it first joined a tree, a link was what it was before the change. -/
theorem pristine (h : Edit g g' p s ls) (k : LinkId n) : (g'.get k).pristine = (g.get k).pristine := by
  have howner := h.owner k
  have htag := h.tag k
  unfold Links.owner at howner
  unfold Links.tag at htag
  rw [Link.pristine, howner, htag, ← Link.pristine]

/-- The parents of all other links remain. -/
theorem outside_parent (h : Edit g g' p s ls) {k : LinkId n} (hk : k ∉ ls) : g'.parent k = g.parent k := by
  by_cases hkp : k = p
  · exact hkp ▸ h.parent
  · exact ((get_eq_iff k).mp (h.outside k hkp hk)).2.2.1

/-- The balances of all other links remain. -/
theorem outside_balance (h : Edit g g' p s ls) {k : LinkId n} (hk : k ∉ ls) :
    g'.balance k = g.balance k := by
  by_cases hkp : k = p
  · exact hkp ▸ h.balance
  · exact ((get_eq_iff k).mp (h.outside k hkp hk)).2.2.2.2

/-- All other child slots remain. -/
theorem outside_child (h : Edit g g' p s ls) {k : LinkId n} (hkp : k ≠ p) (hk : k ∉ ls) (t : Side) :
    g'.child k t = g.child k t :=
  ((get_eq_iff k).mp (h.outside k hkp hk)).2.2.2.1 t

/-- A change below a link that is itself among those that may change leaves the slot further up alone. -/
theorem widen (h : Edit g g' q s' ls) (hq : q ∈ ls') (hls : ∀ k ∈ ls, k ∈ ls') (hp : p ∉ ls') :
    Edit g g' p s ls' := by
  have hpq : p ≠ q := fun heq => hp (heq ▸ hq)
  have hpls : p ∉ ls := fun hk => hp (hls p hk)
  exact ⟨h.owner, h.tag, fun k _ hk => h.outside k (fun heq => hk (heq ▸ hq)) (fun hk' => hk (hls k hk')),
    h.outside_parent hpls, h.outside_child hpq hpls s.other, h.outside_balance hpls⟩

/-- A slot outside a change unfolds to the same shape. -/
theorem spans (h : Edit g g' p s ls) {slot : Option (LinkId n)} {q : LinkId n} {t : Shape n}
    (ht : g.Spans slot q t) (hp : p ∉ t.inorder) (hls : ∀ k ∈ ls, k ∉ t.inorder) : g'.Spans slot q t :=
  ht.congr (fun k hk => h.outside_parent (fun hk' => hls k hk' hk))
    (fun k hk => h.outside_child (fun heq => hp (heq ▸ hk)) (fun hk' => hls k hk' hk))

/-- Balances of a shape that is not touched remain exact. -/
theorem exact (h : Edit g g' p s ls) {t : Shape n} (ht : g.Exact t) (hls : ∀ k ∈ ls, k ∉ t.inorder) :
    g'.Exact t :=
  ht.congr (fun k hk => h.outside_balance (fun hk' => hls k hk' hk))

end Edit

/-- Setting the balance of a link is a change to that link. -/
theorem edit_setBalance {p l : LinkId n} {s : Side} {ls : List (LinkId n)} (b : Balance) (hl : l ∈ ls)
    (hp : p ∉ ls) : Edit g (g.setBalance l b) p s ls := by
  have hlp : l ≠ p := fun heq => hp (heq ▸ hl)
  refine ⟨by simp, by simp, ?_, by simp, by simp, by simp [hlp]⟩
  intro k _ hk
  rw [get_setBalance, if_neg]
  intro heq
  exact hk (heq ▸ hl)

/-! ## Places -/

/-- The link at a place, read from the slot above it. -/
def slotAt (g : Links α n) (o : LinkId n) (fs : List (Frame n)) : Option (LinkId n) :=
  g.child (Shape.slotOf o fs).1 (Shape.slotOf o fs).2

/-- Whether the frames above a place are there: their links, and the subshapes beside the way. -/
def SpansAbove (g : Links α n) (o : LinkId n) : List (Frame n) → Prop
  | [] => True
  | f :: fs =>
    g.slotAt o fs = some f.link ∧ g.parent f.link = some (Shape.slotOf o fs).1 ∧
      g.Spans (g.child f.link f.side.other) f.link f.rest ∧ g.SpansAbove o fs

/-- A whole shape is there exactly when the frames above a place are, and the subshape at the place is. -/
theorem spans_plug (o : LinkId n) (fs : List (Frame n)) (t : Shape n) :
    g.Spans (g.child o .left) o (.plug fs t) ↔
      g.SpansAbove o fs ∧ g.Spans (g.slotAt o fs) (Shape.slotOf o fs).1 t := by
  induction fs generalizing t with
  | nil => simp [SpansAbove, slotAt, Shape.slotOf]
  | cons f fs ih =>
    rw [Shape.plug_cons, ih, Frame.fill, spans_fork]
    simp only [SpansAbove, slotAt, Shape.slotOf]
    tauto

/-- Whether the frames above a place record exact balances when the place has the given height. -/
def ExactAbove (g : Links α n) : List (Frame n) → Nat → Prop
  | [], _ => True
  | f :: fs, h =>
    g.balance f.link = .finite (f.tiltOver h) ∧ g.Exact f.rest ∧ g.ExactAbove fs (f.heightOver h)

/-- The balances of a whole are exact exactly if those at a place and those above it are. -/
theorem exact_plug (fs : List (Frame n)) (t : Shape n) :
    g.Exact (.plug fs t) ↔ g.Exact t ∧ g.ExactAbove fs t.height := by
  induction fs generalizing t with
  | nil => simp [ExactAbove]
  | cons f fs ih =>
    rw [Shape.plug_cons, ih, Frame.fill, exact_fork, ← Frame.fill, Frame.tilt_fill, Frame.height_fill]
    simp only [ExactAbove]
    tauto

/-- Whether the balances above a place are exact depends on the links around it alone. -/
theorem ExactAbove.congr {fs : List (Frame n)} {h : Nat} (hx : g.ExactAbove fs h)
    (hbalance : ∀ k ∈ Shape.around fs, g'.balance k = g.balance k) : g'.ExactAbove fs h := by
  induction fs generalizing h with
  | nil => trivial
  | cons f fs ih =>
    obtain ⟨hf, hrest, hfs⟩ := hx
    simp only [Shape.mem_around_cons] at hbalance
    exact ⟨(hbalance f.link (Or.inl rfl)).trans hf,
      hrest.congr (fun k hk => hbalance k (Or.inr (Or.inl hk))),
      ih hfs (fun k hk => hbalance k (Or.inr (Or.inr hk)))⟩

/-- Whether links hang together above a place depends on the links around it and on the origin alone. -/
theorem SpansAbove.congr {o : LinkId n} {fs : List (Frame n)} (h : g.SpansAbove o fs)
    (hget : ∀ k, k = o ∨ k ∈ Shape.around fs → g'.get k = g.get k) : g'.SpansAbove o fs := by
  induction fs with
  | nil => trivial
  | cons f fs ih =>
    obtain ⟨hslot, hparent, hrest, hfs⟩ := h
    simp only [Shape.mem_around_cons] at hget
    have hpart := fun k hk => (get_eq_iff k).mp (hget k hk)
    have hanchor := Shape.slotOf_mem o fs
    refine ⟨?_, (hpart f.link (Or.inr (Or.inl rfl))).2.2.1.trans hparent, ?_, ih hfs ?_⟩
    · unfold slotAt
      rw [(hpart _ (hanchor.imp_right fun hk => Or.inr (Or.inr hk))).2.2.2.1]
      exact hslot
    · rw [(hpart f.link (Or.inr (Or.inl rfl))).2.2.2.1]
      exact hrest.congr (fun k hk => (hpart k (Or.inr (Or.inr (Or.inl hk)))).2.2.1)
        (fun k hk => (hpart k (Or.inr (Or.inr (Or.inl hk)))).2.2.2.1)
    · intro k hk
      exact hget k (hk.imp_right fun hk => Or.inr (Or.inr hk))

/-- A change at a place, seen from the origin, stays within the shape and the origin's slot. -/
theorem Edit.widen_place {o : LinkId n} {fs : List (Frame n)} {t : Shape n} {ls : List (LinkId n)}
    (e : Edit g g' (Shape.slotOf o fs).1 (Shape.slotOf o fs).2 ls) (hfresh : o ∉ (Shape.plug fs t).inorder)
    (hls : ∀ k ∈ ls, k ∈ t.inorder) : Edit g g' o .left (Shape.plug fs t).inorder := by
  have hmem : ∀ k ∈ ls, k ∈ (Shape.plug fs t).inorder :=
    fun k hk => (Shape.mem_inorder_plug fs t k).mpr (Or.inl (hls k hk))
  cases fs with
  | nil => exact e.mono hmem
  | cons f fs =>
    refine e.widen ?_ hmem hfresh
    exact (Shape.mem_inorder_plug _ t f.link).mpr (Or.inr (by simp))

/-! ## Whole shapes -/

/-- Whether exactly the given shape hangs below an origin. -/
structure Carries (g : Links α n) (o : LinkId n) (t : Shape n) : Prop where
  spans : g.Spans (g.child o .left) o t
  nodup : t.inorder.Nodup
  fresh : o ∉ t.inorder
  parent : g.parent o = none
  right : g.child o .right = none

namespace Carries

variable {o : LinkId n} {f : Frame n} {fs : List (Frame n)} {t t' : Shape n}

/-- Where one origin carries a shape in two worlds, it and the shape's links have the same references. -/
theorem references_eq (h : g.Carries o t) (h' : g'.Carries o t) {k : LinkId n} (hk : k = o ∨ k ∈ t.inorder) :
    g'.parent k = g.parent k ∧ ∀ s, g'.child k s = g.child k s := by
  rcases hk with rfl | hk
  · refine ⟨h'.parent.trans h.parent.symm, fun s => ?_⟩
    cases s with
    | left => exact h'.spans.slot_eq.trans h.spans.slot_eq.symm
    | right => exact h'.right.trans h.right.symm
  · exact h.spans.references_eq h'.spans hk

/-- The links above the place hang together. -/
theorem above (h : g.Carries o (.plug fs t)) : g.SpansAbove o fs :=
  ((spans_plug o fs t).mp h.spans).1

/-- The slot of the place unfolds to the subshape there. -/
theorem at_place (h : g.Carries o (.plug fs t)) : g.Spans (g.slotAt o fs) (Shape.slotOf o fs).1 t :=
  ((spans_plug o fs t).mp h.spans).2

/-- No link is at the place twice. -/
theorem nodup_at (h : g.Carries o (.plug fs t)) : t.inorder.Nodup :=
  ((Shape.nodup_inorder_plug fs t).mp h.nodup).1

/-- No link at the place is the origin or above the place. -/
theorem apart (h : g.Carries o (.plug fs t)) {k : LinkId n} (hk : k ∈ t.inorder) :
    k ≠ o ∧ k ∉ Shape.around fs :=
  ⟨fun heq => h.fresh (heq ▸ (Shape.mem_inorder_plug fs t k).mpr (Or.inl hk)),
    ((Shape.nodup_inorder_plug fs t).mp h.nodup).2.2 k hk⟩

/-- The links of the innermost frame are apart from each other and from those further up. -/
theorem frame_apart (h : g.Carries o (.plug (f :: fs) t)) :
    f.link ∉ t.inorder ∧ f.link ∉ f.rest.inorder ∧ (∀ k ∈ t.inorder, k ∉ f.rest.inorder) ∧
      (∀ k, k = f.link ∨ k ∈ f.rest.inorder → k ≠ o ∧ k ∉ Shape.around fs) := by
  have hfilled : g.Carries o (.plug fs (f.fill t)) := h
  obtain ⟨hlt, hlr, -, -, hdis⟩ := (Shape.nodup_inorder_fork f.side t f.link f.rest).mp
    hfilled.nodup_at
  refine ⟨hlt, hlr, hdis, fun k hk => hfilled.apart ?_⟩
  rw [Frame.fill, Shape.mem_inorder_fork]
  exact hk.imp_right Or.inr

/-- The link that holds the slot above a place is not at the place. -/
theorem slotOf_not_mem (h : g.Carries o (.plug fs t)) : (Shape.slotOf o fs).1 ∉ t.inorder := by
  intro hk
  rcases Shape.slotOf_mem o fs with hanchor | hanchor
  · exact (h.apart hk).1 hanchor
  · exact (h.apart hk).2 hanchor

/-- No link at a place is also the other child of the link that holds the slot above the place. -/
theorem child_other_ne (h : g.Carries o (.plug fs t)) {k : LinkId n} (hk : k ∈ t.inorder) :
    g.child (Shape.slotOf o fs).1 (Shape.slotOf o fs).2.other ≠ some k := by
  cases fs with
  | nil =>
    simp only [Shape.slotOf, Side.other]
    rw [h.right]
    intro heq
    cases heq
  | cons f fs =>
    obtain ⟨-, -, hrest, -⟩ := h.above
    simp only [Shape.slotOf]
    rw [hrest.slot_eq]
    intro heq
    exact h.frame_apart.2.2.1 k hk (Shape.root?_mem heq)

/-- After a change at a place and below, the frames above the place are still there. -/
theorem above_edit (h : g.Carries o (.plug fs t)) {ls : List (LinkId n)}
    (e : Edit g g' (Shape.slotOf o fs).1 (Shape.slotOf o fs).2 ls)
    (hls : ∀ k ∈ ls, k ≠ o ∧ k ∉ Shape.around fs) : g'.SpansAbove o fs := by
  cases fs with
  | nil => trivial
  | cons f fs =>
    obtain ⟨hslot, hparent, hrest, hfs⟩ := h.above
    obtain ⟨-, hfrest, -, hup⟩ := h.frame_apart
    simp only [Shape.slotOf] at e
    have hls' : ∀ k ∈ ls, k ≠ f.link ∧ k ∉ f.rest.inorder ∧ k ∉ Shape.around fs := by
      intro k hk
      have hk' := (hls k hk).2
      simpa only [Shape.mem_around_cons, not_or] using hk'
    have hfar : ∀ k, k = o ∨ k ∈ Shape.around fs → g'.get k = g.get k := by
      rintro k (rfl | hk)
      · exact e.outside k (fun heq => (hup f.link (Or.inl rfl)).1 heq.symm) (fun hk => (hls k hk).1 rfl)
      · exact e.outside k (fun heq => (hup f.link (Or.inl rfl)).2 (heq ▸ hk))
          (fun hk' => (hls' k hk').2.2 hk)
    refine ⟨?_, e.parent.trans hparent, ?_, hfs.congr hfar⟩
    · unfold slotAt
      rw [((get_eq_iff _).mp (hfar _ (Shape.slotOf_mem o fs))).2.2.2.1]
      exact hslot
    · rw [e.child]
      exact e.spans hrest hfrest (fun k hk => (hls' k hk).2.1)

/--
After a change at a place and below, the origin carries the shape with the place filled anew, provided that
the new links there are distinct and were not elsewhere in the shape.
-/
theorem edit (h : g.Carries o (.plug fs t)) {ls : List (LinkId n)}
    (e : Edit g g' (Shape.slotOf o fs).1 (Shape.slotOf o fs).2 ls)
    (hls : ∀ k ∈ ls, k ≠ o ∧ k ∉ Shape.around fs)
    (hspans : g'.Spans (g'.slotAt o fs) (Shape.slotOf o fs).1 t') (hnodup : t'.inorder.Nodup)
    (hnew : ∀ k ∈ t'.inorder, k ≠ o ∧ k ∉ Shape.around fs) : g'.Carries o (.plug fs t') := by
  have hols : o ∉ ls := fun hk => (hls o hk).1 rfl
  refine ⟨(spans_plug o fs t').mpr ⟨h.above_edit e hls, hspans⟩, ?_, ?_, ?_, ?_⟩
  · exact (Shape.nodup_inorder_plug fs t').mpr
      ⟨hnodup, ((Shape.nodup_inorder_plug fs t).mp h.nodup).2.1, fun k hk => (hnew k hk).2⟩
  · rw [Shape.mem_inorder_plug]
    rintro (hk | hk)
    · exact (hnew o hk).1 rfl
    · exact h.fresh ((Shape.mem_inorder_plug fs t o).mpr (Or.inr hk))
  · exact (e.outside_parent hols).trans h.parent
  · cases fs with
    | nil => exact e.child.trans h.right
    | cons f fs =>
      have hof : o ≠ f.link := fun heq => (h.frame_apart.2.2.2 f.link (Or.inl rfl)).1 heq.symm
      exact (e.outside_child hof hols .right).trans h.right

/-- A change at a place seen from the top: it stays within the shape and the origin's slot. -/
theorem widen (h : g.Carries o (.plug fs t)) {ls : List (LinkId n)}
    (e : Edit g g' (Shape.slotOf o fs).1 (Shape.slotOf o fs).2 ls) (hls : ∀ k ∈ ls, k ∈ t.inorder) :
    Edit g g' o .left (Shape.plug fs t).inorder :=
  e.widen_place h.fresh hls

/-- A place further up, seen from the place: the frames that remain and the subshape there. -/
theorem exactAbove_edit (h : g.Carries o (.plug fs t)) {ls : List (LinkId n)} {m : Nat}
    (hx : g.ExactAbove fs m) (e : Edit g g' (Shape.slotOf o fs).1 (Shape.slotOf o fs).2 ls)
    (hls : ∀ k ∈ ls, k ∈ t.inorder) : g'.ExactAbove fs m :=
  hx.congr fun _ hk => e.outside_balance fun hk' => (h.apart (hls _ hk')).2 hk

end Carries

end Links

end BalancedLinks
