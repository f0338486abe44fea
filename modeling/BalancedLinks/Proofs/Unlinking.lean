import BalancedLinks.Proofs.Exchange

/-!
# Taking a link out of a shape

An erasure exposes the link, puts its only child in its place and settles the balances above. On shapes: the
link ends at a place with at most one child, the place is filled with that child, and the walk of
`Shape.shrunk` follows. The order of the other links stays what it was.

The main statement is `LinkedTree.unlink_eq`.
-/

set_option autoImplicit false

namespace BalancedLinks

/--
Whether a link of the shape, once it is exposed, stands below these frames and above this one child: where it
is if a child is absent there, and otherwise where its successor was.
-/
inductive Shape.Exposed {n : Nat} (t : Shape n) (l : LinkId n) : List (Frame n) → Shape n → Prop
  | noLeft {fs : List (Frame n)} {b : Shape n} (place : t = .plug fs (.node .empty l b)) : Exposed t l fs b
  | noRight {fs : List (Frame n)} {a : Shape n} (place : t = .plug fs (.node a l .empty)) : Exposed t l fs a
  | both {fs ds : List (Frame n)} {a c : Shape n} {r : LinkId n}
      (place : t = .plug fs (.node a l (.plug ds (.node .empty r c)))) (left : a ≠ .empty)
      (way : ∀ f ∈ ds, f.side = .left) : Exposed t l (ds ++ ⟨.right, r, a⟩ :: fs) c

/-- Each link of a shape can be exposed. -/
theorem Shape.exists_exposed {n : Nat} {l : LinkId n} {t : Shape n} (h : l ∈ t.inorder) :
    ∃ fs d, t.Exposed l fs d := by
  obtain ⟨fs, a, b, rfl⟩ := Shape.exists_place h
  by_cases ha : a = .empty
  · exact ⟨fs, b, .noLeft (by rw [ha])⟩
  by_cases hb : b = .empty
  · exact ⟨fs, a, .noRight (by rw [hb])⟩
  obtain ⟨ds, r, c, rfl, hds⟩ := Shape.exists_outermost .left b hb
  exact ⟨_, c, .both rfl ha hds⟩

/-- The order of the links without the one at a place. -/
theorem Shape.inorder_erase {n : Nat} {fs : List (Frame n)} {a b : Shape n} {l : LinkId n}
    (h : (Shape.plug fs (.node a l b)).inorder.Nodup) :
    (Shape.plug fs (.node a l b)).inorder.erase l =
      Shape.linksBefore fs ++ a.inorder ++ (b.inorder ++ Shape.linksAfter fs) := by
  have hcut : (Shape.plug fs (.node a l b)).inorder =
      (Shape.linksBefore fs ++ a.inorder) ++ l :: (b.inorder ++ Shape.linksAfter fs) := by
    simp [Shape.inorder_plug, Shape.inorder]
  rw [hcut] at h ⊢
  have hbefore : l ∉ Shape.linksBefore fs ++ a.inorder := fun hmem =>
    (List.nodup_append.mp h).2.2 l hmem l (by simp) rfl
  rw [List.erase_append_right _ hbefore, List.erase_cons_head]

/-- An exposed link is one of the shape. -/
theorem Shape.Exposed.mem {n : Nat} {t d : Shape n} {l : LinkId n} {fs : List (Frame n)}
    (h : t.Exposed l fs d) : l ∈ t.inorder := by
  cases h with
  | noLeft hplace | noRight hplace | both hplace => simp [hplace, Shape.mem_inorder_plug]

/-- An exposed link's place filled with its child has the other links in the order that they had. -/
theorem Shape.Exposed.inorder {n : Nat} {t d : Shape n} {l : LinkId n} {fs : List (Frame n)}
    (h : t.Exposed l fs d) (hnodup : t.inorder.Nodup) : (Shape.plug fs d).inorder = t.inorder.erase l := by
  cases h with
  | noLeft hplace =>
    subst hplace
    rw [Shape.inorder_erase hnodup, Shape.inorder_plug]
    simp [Shape.inorder]
  | noRight hplace =>
    subst hplace
    rw [Shape.inorder_erase hnodup, Shape.inorder_plug]
    simp [Shape.inorder]
  | both hplace _ hds =>
    subst hplace
    rw [Shape.inorder_erase hnodup]
    simp [Shape.inorder_plug, Shape.linksBefore, Shape.linksAfter, Shape.linksBefore_eq_nil hds, Frame.before,
      Frame.after, Shape.inorder]

/-- A link and its successor have swapped names where each stands in the other's place. -/
theorem Shape.rename_swap {n : Nat} {fs ds : List (Frame n)} {a c : Shape n} {l r : LinkId n}
    (h : (Shape.plug fs (.node a l (.plug ds (.node .empty r c)))).inorder.Nodup) :
    (Shape.plug fs (.node a l (.plug ds (.node .empty r c)))).rename (Equiv.swap l r) =
      .plug (ds ++ ⟨.right, r, a⟩ :: fs) (.fork .right c l .empty) := by
  obtain ⟨hnode, -, haround⟩ := (Shape.nodup_inorder_plug fs _).mp h
  obtain ⟨hla, hlb, -, hndb, hab⟩ := (Shape.nodup_inorder_fork .left a l _).mp hnode
  obtain ⟨hndr, -, hrds⟩ := (Shape.nodup_inorder_plug ds _).mp hndb
  obtain ⟨-, hrc, -, -, -⟩ := (Shape.nodup_inorder_fork .left .empty r c).mp hndr
  have hr : r ∈ (Shape.plug ds (.node .empty r c)).inorder :=
    (Shape.mem_inorder_plug ds _ r).mpr (Or.inl (by simp))
  have hkeep : ∀ k, k ≠ l → k ≠ r → Equiv.swap l r k = k := fun k => Equiv.swap_apply_of_ne_of_ne
  have hfs : ∀ k ∈ Shape.around fs, Equiv.swap l r k = k := fun k hk =>
    hkeep k (fun heq => haround l (by simp) (heq ▸ hk))
      (fun heq => haround r ((Shape.mem_inorder_node _ _ _ r).mpr (Or.inr (Or.inr hr))) (heq ▸ hk))
  have ha : ∀ k ∈ a.inorder, Equiv.swap l r k = k := fun k hk =>
    hkeep k (fun heq => hla (heq ▸ hk)) (fun heq => hab k hk (heq ▸ hr))
  have hds : ∀ k ∈ Shape.around ds, Equiv.swap l r k = k := fun k hk =>
    hkeep k (fun heq => hlb (heq ▸ (Shape.mem_inorder_plug ds _ k).mpr (Or.inr hk)))
      (fun heq => hrds r (by simp) (heq ▸ hk))
  have hc : ∀ k ∈ c.inorder, Equiv.swap l r k = k := fun k hk =>
    hkeep k (fun heq => hlb (heq ▸ (Shape.mem_inorder_plug ds _ k).mpr (Or.inl (by simp [hk]))))
      (fun heq => hrc (heq ▸ hk))
  rw [Shape.rename_plug, Shape.map_rename_eq_self hfs, Shape.rename, Shape.rename_eq_self ha,
    Equiv.swap_apply_left, Shape.rename_plug, Shape.map_rename_eq_self hds, Shape.rename, Shape.rename,
    Equiv.swap_apply_right, Shape.rename_eq_self hc, Shape.plug_append]
  rfl

namespace Links

variable {α : Type} {n : Nat} {g g' : Links α n}

/-! ## At a place with at most one child -/

section Cut

variable {l p : LinkId n} {c : Option (LinkId n)}

/-- Cutting a link out makes its child one of the link above. -/
theorem parent_cutOut (hc : (g.child l .left).or (g.child l .right) = c) (k : LinkId n) :
    (g.cutOut l p).parent k = if l = k then none else if c = some k then some p else g.parent k := by
  simp [cutOut, hc]

/-- The slot above holds the child, and no slot of the link holds anything. -/
theorem child_cutOut (hc : (g.child l .left).or (g.child l .right) = c) (k : LinkId n) (s : Side) :
    (g.cutOut l p).child k s =
      if l = k then none else if p = k ∧ g.sideOf l = s then c else g.child k s := by
  simp [cutOut, hc]

/-- The link is level again; no other balance is written. -/
theorem balance_cutOut (k : LinkId n) :
    (g.cutOut l p).balance k = if l = k then .level else g.balance k := by
  simp [cutOut]

/-- The link is as it was before it first joined a tree. -/
theorem get_cutOut_self : (g.cutOut l p).get l = (g.get l).pristine := by
  have howner : (g.cutOut l p).owner l = g.owner l := by simp [cutOut]
  have htag : (g.cutOut l p).tag l = g.tag l := by simp [cutOut]
  unfold owner at howner
  unfold tag at htag
  rw [Link.pristine, ← howner, ← htag]
  unfold cutOut
  rw [get_reset, if_pos rfl]
  rfl

end Cut

/-- Cutting out a link with at most one child fills its place with that child. -/
theorem Carries.cutOut {o l : LinkId n} {s : Side} {fs : List (Frame n)} {d : Shape n}
    (h : g.Carries o (.plug fs (.fork s d l .empty))) :
    (g.cutOut l (Shape.slotOf o fs).1).Carries o (.plug fs d) ∧
      Edit g (g.cutOut l (Shape.slotOf o fs).1) (Shape.slotOf o fs).1 (Shape.slotOf o fs).2
        (Shape.fork s d l .empty).inorder := by
  obtain ⟨hslot, hparent, hd, hnone⟩ := (spans_fork s _ _ l d .empty).mp h.at_place
  obtain ⟨hld, -, hnd, -, -⟩ := (Shape.nodup_inorder_fork s d l .empty).mp h.nodup_at
  have hside := h.sideOf_at (Shape.root?_fork s d l .empty)
  have hp := h.slotOf_not_mem
  simp only [Shape.mem_inorder_fork, not_or] at hp
  obtain ⟨hpl, hpd, -⟩ := hp
  have hc : (g.child l .left).or (g.child l .right) = d.root? := by
    have hslotd := hd.slot_eq
    have hslotn := hnone.slot_eq
    cases s <;> simp only [Side.other] at hslotn <;> simp [hslotd, hslotn, Shape.root?]
  have hedit : Edit g (g.cutOut l (Shape.slotOf o fs).1) (Shape.slotOf o fs).1 (Shape.slotOf o fs).2
      (Shape.fork s d l .empty).inorder := by
    refine ⟨by simp [Links.cutOut], by simp [Links.cutOut], ?_, ?_, ?_, ?_⟩
    · intro k hkp hk
      simp only [Shape.mem_inorder_fork, not_or] at hk
      have hkl : l ≠ k := Ne.symm hk.1
      have hkd : d.root? ≠ some k := fun heq => hk.2.1 (Shape.root?_mem heq)
      refine (get_eq_iff k).mpr ⟨by simp [Links.cutOut], by simp [Links.cutOut], ?_, ?_, ?_⟩
      · rw [parent_cutOut hc, if_neg hkl, if_neg hkd]
      · intro t
        rw [child_cutOut hc, if_neg hkl, if_neg (fun hx => hkp hx.1.symm)]
      · rw [balance_cutOut, if_neg hkl]
    · rw [parent_cutOut hc, if_neg (Ne.symm hpl), if_neg (fun heq => hpd (Shape.root?_mem heq))]
    · rw [child_cutOut hc, if_neg (Ne.symm hpl), hside, if_neg (fun hx => Side.ne_other _ hx.2)]
    · rw [balance_cutOut, if_neg (Ne.symm hpl)]
  have hmem : ∀ k ∈ d.inorder, k ∈ (Shape.fork s d l .empty).inorder := fun k hk => by simp [hk]
  refine ⟨h.edit hedit (fun k hk => h.apart hk) ?_ hnd (fun k hk => h.apart (hmem k hk)), hedit⟩
  rw [slotAt, child_cutOut hc, if_neg (Ne.symm hpl), if_pos ⟨rfl, hside⟩, ← hd.slot_eq]
  apply hd.move hnd
  · intro k hk
    have hkl : l ≠ k := fun heq => hld (heq ▸ hk)
    rw [parent_cutOut hc, if_neg hkl, ← hd.slot_eq]
  · intro k hk t
    have hkl : l ≠ k := fun heq => hld (heq ▸ hk)
    have hkp : (Shape.slotOf o fs).1 ≠ k := fun heq => hpd (heq ▸ hk)
    rw [child_cutOut hc, if_neg hkl, if_neg (fun hx => hkp hx.1)]

/-! ## At any place -/

/-- Swapping two members of a list leaves its members what they are. -/
theorem mem_map_swap {l r : LinkId n} {ls : List (LinkId n)} (hl : l ∈ ls) (hr : r ∈ ls) (k : LinkId n) :
    k ∈ ls.map (Equiv.swap l r) ↔ k ∈ ls := by
  rw [List.mem_map]
  constructor
  · rintro ⟨m, hm, rfl⟩
    rcases eq_or_ne m l with rfl | hml
    · rwa [Equiv.swap_apply_left]
    rcases eq_or_ne m r with rfl | hmr
    · rwa [Equiv.swap_apply_right]
    · rwa [Equiv.swap_apply_of_ne_of_ne hml hmr]
  · intro hk
    rcases eq_or_ne k l with rfl | hkl
    · exact ⟨r, hr, Equiv.swap_apply_right k r⟩
    rcases eq_or_ne k r with rfl | hkr
    · exact ⟨l, hl, Equiv.swap_apply_left l k⟩
    · exact ⟨k, hk, Equiv.swap_apply_of_ne_of_ne hkl hkr⟩

/--
Exposing a link of a balanced shape leaves it at a place with at most one child. The place filled with that
child has the links in the order that they had, without the exposed one.
-/
theorem Carries.exposed {o l : LinkId n} {t d : Shape n} {fs : List (Frame n)} (h : g.Carries o t)
    (hx : g.Exact t) (ht : t.Balanced) (hplace : t.Exposed l fs d) :
    ∃ s g', g.exposed l = .ok g' ∧ g'.Carries o (.plug fs (.fork s d l .empty)) ∧
      g'.Exact (.plug fs (.fork s d l .empty)) ∧ (Shape.plug fs (.fork s d l .empty)).Balanced ∧
      (∀ k, k ∈ (Shape.plug fs (.fork s d l .empty)).inorder ↔ k ∈ t.inorder) ∧
      Edit g g' o .left t.inorder := by
  cases hplace with
  | noLeft hplace =>
    subst hplace
    obtain ⟨-, -, hleft, -⟩ := h.at_place
    refine ⟨.right, g, ?_, h, hx, ht, fun k => Iff.rfl, Edit.refl g o .left _⟩
    simp only [Links.exposed, hleft.slot_eq, Shape.root?]
  | noRight hplace =>
    subst hplace
    obtain ⟨-, -, -, hright⟩ := h.at_place
    refine ⟨.left, g, ?_, h, hx, ht, fun k => Iff.rfl, Edit.refl g o .left _⟩
    simp only [Links.exposed, hright.slot_eq, Shape.root?]
    cases g.child l .left <;> rfl
  | @both fs ds a _ r hplace ha hds =>
    subst hplace
    obtain ⟨g', hexposed, hnames, hcarries, hedit⟩ := h.exchange ha hds
    have hl : l ∈ (Shape.plug fs (.node a l (.plug ds (.node .empty r d)))).inorder := by
      simp [Shape.mem_inorder_plug]
    have hr : r ∈ (Shape.plug fs (.node a l (.plug ds (.node .empty r d)))).inorder := by
      simp [Shape.mem_inorder_plug]
    have hinorder := Shape.inorder_rename (Equiv.swap l r)
      (.plug fs (.node a l (.plug ds (.node .empty r d))))
    have hexact := hnames.exact (fun k hk => List.mem_cons_of_mem o hk) hx
    have hbalanced := (Shape.balanced_rename (Equiv.swap l r) _).mpr ht
    rw [Shape.rename_swap h.nodup] at hcarries hexact hbalanced hinorder
    refine ⟨.right, g', hexposed, hcarries, hexact, hbalanced, ?_, hedit⟩
    intro k
    rw [hinorder]
    exact mem_map_swap hl hr k

end Links

namespace LinkedTree

variable {α : Type} {n : Nat}

/--
Taking a link out of a balanced, exactly recorded shape ends with the place filled and the shape shrunk from
there: balanced and exactly recorded again, with the other links in the order that they had. The link taken
out is as it was before it first joined a tree, and nothing outside the shape has changed.
-/
theorem unlink_eq {x : LinkedTree α n} {l : LinkId n} {t d : Shape n} {fs : List (Frame n)}
    (h : x.links.Carries x.origin t) (hx : x.links.Exact t) (ht : t.Balanced) (hplace : t.Exposed l fs d) :
    ∃ g', x.unlink l = ⟨x.resized g' (-1), (Shape.shrunk fs d).1, .ok ()⟩ ∧
      (Shape.plug fs d).inorder = t.inorder.erase l ∧ (Shape.shrunk fs d).2.Balanced ∧
      g'.Carries x.origin (Shape.shrunk fs d).2 ∧ g'.Exact (Shape.shrunk fs d).2 ∧
      Links.Edit x.links g' x.origin .left t.inorder ∧ g'.get l = (x.links.get l).pristine := by
  obtain ⟨s, g₁, hexposed, hc₁, hx₁, hb₁, hmem, hedit₁⟩ := h.exposed hx ht hplace
  have herase := hplace.inorder h.nodup
  have hl := hplace.mem
  have hroot := Shape.root?_fork s d l .empty
  have hld : l ∉ d.inorder := ((Shape.nodup_inorder_fork s d l .empty).mp hc₁.nodup_at).1
  obtain ⟨hc₂, hedit₂⟩ := hc₁.cutOut
  obtain ⟨hxfork, hxup⟩ := (Links.exact_plug fs _).mp hx₁
  obtain ⟨hbfork, hbup⟩ := (Shape.balanced_plug fs _).mp hb₁
  obtain ⟨-, hxd, -⟩ := (Links.exact_fork s d l .empty).mp hxfork
  obtain ⟨-, hbd, -⟩ := (Shape.balanced_fork s d l .empty).mp hbfork
  have hheight : (Shape.fork s d l .empty).height = d.height + 1 := by
    rw [Shape.height_fork, Shape.height]
    omega
  rw [hheight] at hxup hbup
  have hxd₂ : (g₁.cutOut l (Shape.slotOf x.origin fs).1).Exact d := hxd.congr fun k hk => by
    have hlk : l ≠ k := fun heq => hld (heq ▸ hk)
    rw [Links.balance_cutOut, if_neg hlk]
  have hxup₂ := hc₁.exactAbove_edit hxup hedit₂ (fun k hk => hk)
  obtain ⟨g₂, hsettle, hc₃, hx₃, hedit₃⟩ := Links.settleShrinkage_eq hc₂ hxd₂ hbd hxup₂ hbup
  have hmem₂ : ∀ k ∈ (Shape.plug fs d).inorder, k ∈ t.inorder := fun k hk =>
    List.mem_of_mem_erase (herase ▸ hk)
  refine ⟨g₂, ?_, herase, Shape.balanced_shrunk rfl hbd hbup, hc₃, hx₃, ?_, ?_⟩
  · simp only [unlink, hexposed, hc₁.parent_at hroot, hc₁.sideOf_at hroot, resized, hsettle, Outcome.within]
  · have hwide := (hc₁.widen hedit₂ (fun k hk => hk)).mono (fun k hk => (hmem k).mp hk)
    exact (hedit₁.trans hwide).trans (hedit₃.mono hmem₂)
  · have hlo : l ≠ x.origin := fun heq => h.fresh (heq ▸ hl)
    have hlout : l ∉ (Shape.plug fs d).inorder := herase ▸ h.nodup.not_mem_erase
    rw [hedit₃.outside l hlo hlout, Links.get_cutOut_self, hedit₁.pristine]

end LinkedTree

end BalancedLinks
