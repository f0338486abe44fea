import BalancedLinks.Proofs.Turning

/-!
# Repairs and walks that restore balance

What a repair promises of a link in any world, wherever its parent hangs, and what the walks up a carried shape
promise after a leaf was hung in or a place lost one of its height: they come to an end, keep the links in order,
and leave exact balances of at most one at every link.

The main statements are `Links.Heavy.repairs`, `Links.settleGrowth_restores` and `Links.settleShrinkage_restores`.
-/

set_option autoImplicit false

namespace BalancedLinks

namespace Links

variable {α : Type} {n : Nat} {g g' : Links α n}

/-! ## One link -/

/--
Whether a link is heavy by two over two balanced and exactly recorded trees, and has a parent that is not in them,
as none is that holds the link as a child.
-/
structure Heavy (g : Links α n) (p l : LinkId n) (a b : Shape n) : Prop where
  parent : g.parent l = some p
  apart : p ∉ (Shape.node a l b).inorder
  left : g.Spans (g.child l .left) l a
  right : g.Spans (g.child l .right) l b
  nodup_left : a.inorder.Nodup
  nodup_right : b.inorder.Nodup
  balanced_left : a.Balanced
  balanced_right : b.Balanced
  exact : g.Exact (.node a l b)
  heavy : g.balance l = .finite 2 ∨ g.balance l = .finite (-2)

/-- The rotations of a repair by its kind: one of the link, and before it one of its heavy child where it is double. -/
def TurnsBy (g : Links α n) (l c : LinkId n) (heavy : Side) (g' : Links α n) (top : LinkId n) : RotationKind → Prop
  | .single => g.rotate l heavy.other = .ok (top, g')
  | .double => ∃ r g₁, g.rotate c heavy = .ok (r, g₁) ∧ g₁.rotate l heavy.other = .ok (top, g')

/-- A repair that succeeds is one rotation, with a report of the balance that it leaves at the top. -/
theorem of_repairBy_eq_ok {l top : LinkId n} {heavy : Side} {kind : RotationKind} {log : List Event}
    (h : g.repairBy l heavy kind = ⟨g', log, .ok top⟩) :
    g.rotate l heavy.other = .ok (top, g') ∧ log = [.rotated kind (g'.balance top)] := by
  unfold repairBy at h
  cases hrot : g.rotate l heavy.other with
  | error cause => simp [hrot, Outcome.fail] at h
  | ok r =>
    simp only [hrot, Outcome.mk.injEq, Except.ok.injEq] at h
    obtain ⟨rfl, rfl, rfl⟩ := h
    exact ⟨rfl, rfl⟩

/-- All that a repair can have done when it succeeds. -/
theorem of_repair_eq_ok {l top : LinkId n} {log : List Event} (h : g.repair l = ⟨g', log, .ok top⟩) :
    ∃ c kind, g.child l (heavySide (g.balance l)) = some c ∧
      g.TurnsBy l c (heavySide (g.balance l)) g' top kind ∧ log = [.rotated kind (g'.balance top)] ∧
      (kind = .double ↔ leansAwayFrom (heavySide (g.balance l)) (g.balance c) = true) := by
  unfold repair at h
  cases hchild : g.child l (heavySide (g.balance l)) with
  | none => simp [hchild, Outcome.fail] at h
  | some c =>
    simp only [hchild] at h
    split_ifs at h with hleans
    · cases hrot : g.rotate c (heavySide (g.balance l)) with
      | error cause => simp [hrot, Outcome.fail] at h
      | ok r =>
        simp only [hrot] at h
        obtain ⟨hturn, hlog⟩ := of_repairBy_eq_ok h
        exact ⟨c, .double, rfl, ⟨r.1, r.2, hrot, hturn⟩, hlog, by simp [hleans]⟩
    · obtain ⟨hturn, hlog⟩ := of_repairBy_eq_ok h
      exact ⟨c, .single, rfl, hturn, hlog, by simp [hleans]⟩

namespace Heavy

variable {p l : LinkId n} {a b : Shape n}

/-- A heavy subtree is two levels higher on one side than on the other. -/
theorem tilt_eq (h : g.Heavy p l a b) : (Shape.node a l b).tilt = 2 ∨ (Shape.node a l b).tilt = -2 := by
  have hl := h.exact.1
  rcases h.heavy with htwo | htwo
  · exact Or.inl (Balance.finite.inj (hl.symm.trans htwo))
  · exact Or.inr (Balance.finite.inj (hl.symm.trans htwo))

/-- The two trees have no link in common, since their heights differ. -/
theorem nodup (h : g.Heavy p l a b) : (Shape.node a l b).inorder.Nodup := by
  rw [Shape.node_eq_fork, Shape.nodup_inorder_fork]
  refine ⟨h.left.not_mem, h.right.not_mem, h.nodup_left, h.nodup_right, ?_⟩
  intro k hka hkb
  have hsame : g.Spans (g.child l .left) l b := by
    rw [h.left.child_eq_of_mem h.right hka hkb]
    exact h.right
  obtain rfl := h.left.unique hsame
  have htilt := h.tilt_eq
  simp only [Shape.tilt] at htilt
  omega

/-- The side on which the link is heavy, with the child there. -/
theorem exists_fork (h : g.Heavy p l a b) :
    ∃ s x c y z, Shape.node a l b = .fork s (.fork s x c y) l z ∧ (Shape.node a l b).lead s = 2 ∧
      (Shape.fork s x c y).Balanced ∧ z.Balanced := by
  obtain ⟨s, u, z, hfork, hlead, hu, hz⟩ : ∃ s u z, Shape.node a l b = .fork s u l z ∧
      (Shape.node a l b).lead s = 2 ∧ u.Balanced ∧ z.Balanced := by
    rcases h.tilt_eq with htwo | htwo
    · exact ⟨.right, b, a, rfl, htwo, h.balanced_right, h.balanced_left⟩
    · refine ⟨.left, a, b, rfl, ?_, h.balanced_left, h.balanced_right⟩
      show -(Shape.node a l b).tilt = 2
      omega
  rcases Shape.eq_empty_or_fork s u with rfl | ⟨x, c, y, rfl⟩
  · rw [hfork, Shape.lead_fork, Shape.height] at hlead
    omega
  · exact ⟨s, x, c, y, z, hfork, hlead, hu, hz⟩

end Heavy

/--
What a repair leaves of a link over the shape `t`, where `c` is its heavy child: a shape `t'` in the slot where
the link hung, with the same links in order, all of them balanced and exactly recorded, and nothing else changed. It
is as high as before exactly if the heavy child was level, which its topmost link then is not.
-/
structure Repairs (g g' : Links α n) (p l c top : LinkId n) (kind : RotationKind) (t t' : Shape n) : Prop where
  spans : g'.Spans (g'.child p (g.sideOf l)) p t'
  root : t'.root? = some top
  inorder : t'.inorder = t.inorder
  exact : g'.Exact t'
  balanced : t'.Balanced
  edit : Edit g g' p (g.sideOf l) t.inorder
  height_eq_iff : t'.height = t.height ↔ g.balance c = .level
  height_eq_iff_top : t'.height = t.height ↔ g'.balance top ≠ .level
  height_of_ne : t'.height ≠ t.height → t'.height + 1 = t.height
  turns : g.TurnsBy l c t.heavy g' top kind
  double_iff : kind = .double ↔ (t.childOn t.heavy).lead t.heavy < 0

/-- A link that is heavy by two is repaired, in whatever world it stands. -/
theorem Heavy.repairs {p l : LinkId n} {a b : Shape n} (h : g.Heavy p l a b) :
    ∃ c g' top kind t', g.child l (Shape.node a l b).heavy = some c ∧
      g.repair l = ⟨g', [.rotated kind (g'.balance top)], .ok top⟩ ∧
      g.Repairs g' p l c top kind (.node a l b) t' := by
  obtain ⟨s, x, c, y, z, hfork, hlead, hx, hz⟩ := h.exists_fork
  have hnodup := h.nodup
  have hfresh := h.apart
  have hexact := h.exact
  have hspans : g.Spans (some l) p (.node a l b) := ⟨rfl, h.parent, h.left, h.right⟩
  have hside : (Shape.node a l b).heavy = s := Shape.heavy_eq_of_lead (by omega)
  rw [hfork] at hnodup hfresh hexact hspans hside hlead ⊢
  obtain ⟨hheavy, hc, hbalance, hlean⟩ := reads_heavy hspans hexact hlead
  obtain ⟨g', top, hrep, htop, hedit, hspans', hexact'⟩ :=
    repair_eq hspans rfl hnodup hfresh hexact hlead hx
  obtain ⟨c', kind, hchild, hturns, hlog, hleans⟩ := of_repair_eq_ok hrep
  rw [hheavy] at hchild hturns hleans
  -- the child that the repair takes is the one in the shape
  obtain rfl : c = c' := Option.some.inj (hc.symm.trans hchild)
  obtain ⟨hkept, hkeptTop, hlower⟩ := Shape.height_mended hlead hx hz
  rw [hside]
  refine ⟨c, g', top, kind, (Shape.fork s (.fork s x c y) l z).mended.2, hchild, by rw [← hlog, hrep], ?_⟩
  refine
    { spans := hspans', root := htop, inorder := Shape.inorder_mended _, exact := hexact'
      balanced := (Shape.balanced_mended hlead hx hz).1, edit := hedit, height_eq_iff := ?_
      height_eq_iff_top := ?_, height_of_ne := hlower, turns := ?_, double_iff := ?_ }
  · rw [hkept, hbalance, Balance.finite_eq_level_iff]
  · rw [hkeptTop, hexact'.balance_root htop, ne_eq, ne_eq, Balance.finite_eq_level_iff]
  · rw [hside]
    exact hturns
  · rw [hside, Shape.childOn_fork, hleans, hlean]

/-- Seven links below an origin; the topmost is heavy on its left and has a child there that leans to the right. -/
def overhanging : Links Nat 8 :=
  ⟨#v[{ owner := none, tag := "", parent := none, left := none, right := some 6, balance := .level },
    { owner := some 1, tag := "", parent := some 2, left := none, right := none, balance := .level },
    { owner := some 2, tag := "", parent := some 6, left := some 1, right := some 4, balance := 1 },
    { owner := some 3, tag := "", parent := some 4, left := none, right := none, balance := .level },
    { owner := some 4, tag := "", parent := some 2, left := some 3, right := some 5, balance := .level },
    { owner := some 5, tag := "", parent := some 4, left := none, right := none, balance := .level },
    { owner := some 6, tag := "", parent := some 0, left := some 2, right := some 7, balance := -2 },
    { owner := some 7, tag := "", parent := some 6, left := none, right := none, balance := .level }]⟩

/-- A double rotation lifts the fourth link over the second and the sixth. -/
theorem repairs_overhanging :
    ∃ a b g' t', overhanging.Heavy 0 6 a b ∧
      overhanging.repair 6 = ⟨g', [.rotated .double .level], .ok 4⟩ ∧
      overhanging.Repairs g' 0 6 2 4 .double (.node a 6 b) t' ∧ t'.inorder = [1, 2, 3, 4, 5, 6, 7] := by
  let a : Shape 8 :=
    .node (.node .empty 1 .empty) 2 (.node (.node .empty 3 .empty) 4 (.node .empty 5 .empty))
  let b : Shape 8 := .node .empty 7 .empty
  have hheavy : overhanging.Heavy 0 6 a b :=
    { parent := rfl, apart := by decide
      left := ⟨rfl, rfl, ⟨rfl, rfl, rfl, rfl⟩, ⟨rfl, rfl, ⟨rfl, rfl, rfl, rfl⟩, ⟨rfl, rfl, rfl, rfl⟩⟩⟩
      right := ⟨rfl, rfl, rfl, rfl⟩
      nodup_left := by decide, nodup_right := by decide
      balanced_left := by simp [a, Shape.Balanced, Shape.tilt, Shape.height]
      balanced_right := by simp [b, Shape.Balanced, Shape.tilt]
      exact := ⟨rfl, ⟨rfl, ⟨rfl, trivial, trivial⟩, rfl, ⟨rfl, trivial, trivial⟩, rfl, trivial, trivial⟩,
        rfl, trivial, trivial⟩
      heavy := Or.inr rfl }
  obtain ⟨c, g', top, kind, t', hchild, hrep, h⟩ := hheavy.repairs
  have hrun : ((overhanging.repair 6).log, (overhanging.repair 6).result) = ([.rotated .double .level], .ok 4) := by
    decide +kernel
  rw [hrep] at hrun
  simp only [Prod.mk.injEq, List.cons.injEq, Event.rotated.injEq, and_true, Except.ok.injEq] at hrun
  obtain ⟨⟨rfl, hlevel⟩, rfl⟩ := hrun
  obtain rfl : 2 = c := Option.some.inj hchild
  exact ⟨a, b, g', t', hheavy, hlevel ▸ hrep, h, h.inorder⟩

/-! ## The walks up -/

/--
Whether the origin carries `t'` after a walk where it carried `t`: the same links in order, all of them balanced
and exactly recorded, and nothing else changed.
-/
structure Restores (g g' : Links α n) (o : LinkId n) (t t' : Shape n) : Prop where
  carries : g'.Carries o t'
  inorder : t'.inorder = t.inorder
  exact : g'.Exact t'
  balanced : t'.Balanced
  edit : Edit g g' o .left t.inorder

/--
The walk up from a leaf that was hung in at a vacant place of a balanced and exactly recorded shape. The records are
those of the shape without the leaf.
-/
theorem settleGrowth_restores {o l : LinkId n} {fs : List (Frame n)}
    (h : g.Carries o (.plug fs (.node .empty l .empty))) (hleaf : g.balance l = .level)
    (hexact : g.Exact (.plug fs .empty)) (hbalanced : (Shape.plug fs .empty).Balanced) :
    ∃ g' log t', g.settleGrowth l = ⟨g', log, .ok ()⟩ ∧
      g.Restores g' o (.plug fs (.node .empty l .empty)) t' := by
  have habove : g.ExactAbove fs 0 := ((exact_plug fs .empty).mp hexact).2
  have hbalancedAbove : Shape.BalancedAbove fs 0 := ((Shape.balanced_plug fs .empty).mp hbalanced).2
  obtain ⟨g', hrun, hcarries, hexact', hedit⟩ :=
    settleGrowth_eq h ⟨hleaf, trivial, trivial⟩ habove hbalancedAbove
  have hleafBalanced : (Shape.node .empty l .empty).Balanced := by
    simp [Shape.Balanced, Shape.tilt]
  exact ⟨g', _, _, hrun, hcarries, Shape.inorder_grown fs _, hexact',
    Shape.balanced_grown rfl hleafBalanced (fun _ => rfl) hbalancedAbove, hedit⟩

/-- Seven links below an origin; the sixth is a leaf of which the balances above do not know yet. -/
def outgrown : Links Nat 8 :=
  ⟨#v[{ owner := none, tag := "", parent := none, left := some 4, right := none, balance := .level },
    { owner := some 1, tag := "", parent := some 2, left := none, right := none, balance := .level },
    { owner := some 2, tag := "", parent := some 4, left := some 1, right := some 3, balance := .level },
    { owner := some 3, tag := "", parent := some 2, left := none, right := none, balance := .level },
    { owner := some 4, tag := "", parent := some 0, left := some 2, right := some 5, balance := .level },
    { owner := some 5, tag := "", parent := some 4, left := none, right := some 7, balance := 1 },
    { owner := some 6, tag := "", parent := some 7, left := none, right := none, balance := .level },
    { owner := some 7, tag := "", parent := some 5, left := some 6, right := none, balance := .level }]⟩

/-- A double rotation brings the leaf itself over the two links above it; then it hangs under the fourth. -/
theorem settleGrowth_restores_outgrown :
    ∃ g' log t t', outgrown.Carries 0 t ∧ outgrown.settleGrowth 6 = ⟨g', log, .ok ()⟩ ∧
      outgrown.Restores g' 0 t t' ∧ t'.inorder = [1, 2, 3, 4, 5, 6, 7] ∧ g'.child 4 .right = some 6 := by
  let leaf : Shape 8 := .node .empty 6 .empty
  let fs : List (Frame 8) :=
    [⟨.left, 7, .empty⟩, ⟨.right, 5, .empty⟩, ⟨.right, 4, .node (.node .empty 1 .empty) 2 (.node .empty 3 .empty)⟩]
  have hcarries : outgrown.Carries 0 (.plug fs leaf) :=
    { spans := ⟨rfl, rfl, ⟨rfl, rfl, ⟨rfl, rfl, rfl, rfl⟩, ⟨rfl, rfl, rfl, rfl⟩⟩,
        ⟨rfl, rfl, rfl, ⟨rfl, rfl, ⟨rfl, rfl, rfl, rfl⟩, rfl⟩⟩⟩
      nodup := by decide, fresh := by decide, parent := rfl, right := rfl }
  have hexact : outgrown.Exact (.plug fs .empty) :=
    ⟨rfl, ⟨rfl, ⟨rfl, trivial, trivial⟩, rfl, trivial, trivial⟩, rfl, trivial, rfl, trivial, trivial⟩
  have hbalanced : (Shape.plug fs .empty).Balanced := by
    simp [fs, Shape.plug, Frame.fill, Shape.Balanced, Shape.tilt, Shape.height]
  obtain ⟨g', log, t', hrun, h⟩ := settleGrowth_restores hcarries rfl hexact hbalanced
  refine ⟨g', log, .plug fs leaf, t', hcarries, hrun, h, h.inorder, ?_⟩
  have hturned : (outgrown.settleGrowth 6).state.child 4 .right = some 6 := by
    decide +kernel
  rw [hrun] at hturned
  exact hturned

/--
Whether the links above a place have not taken notice that it lost one of its height: all balances are at most one and
exact, but above the place they are those of the height that it had.
-/
structure Lags (g : Links α n) (o : LinkId n) (fs : List (Frame n)) (t : Shape n) : Prop where
  carries : g.Carries o (.plug fs t)
  exact : g.Exact t
  balanced : t.Balanced
  exactAbove : g.ExactAbove fs (t.height + 1)
  balancedAbove : Shape.BalancedAbove fs (t.height + 1)

/-- The walk up from a link of which the subshape on one side lost one of its height. From an origin it goes nowhere. -/
theorem settleShrinkage_restores (g : Links α n) (l : LinkId n) (s : Side) :
    (g.isOrigin l = true → g.settleShrinkage l s = .pure g ()) ∧
      ∀ o fs rest t, g.Lags o (⟨s, l, rest⟩ :: fs) t →
        ∃ g' log t', g.settleShrinkage l s = ⟨g', log, .ok ()⟩ ∧
          g.Restores g' o (.plug (⟨s, l, rest⟩ :: fs) t) t' := by
  constructor
  · intro horigin
    show settleShrinkageWithin (g.imbalance + n + 1) g l s = .pure g ()
    rw [settleShrinkageWithin, if_pos horigin]
  · intro o fs rest t h
    obtain ⟨g', hrun, hcarries, hexact, hedit⟩ :=
      settleShrinkage_eq h.carries h.exact h.balanced h.exactAbove h.balancedAbove
    exact ⟨g', _, _, hrun, hcarries, Shape.inorder_shrunk _ t, hexact,
      Shape.balanced_shrunk rfl h.balanced h.balancedAbove, hedit⟩

/-- Six links below an origin; the least of them has lost its left child, to which nothing refers any more. -/
def undercut : Links Nat 8 :=
  ⟨#v[{ owner := none, tag := "", parent := none, left := some 3, right := none, balance := .level },
    { owner := some 1, tag := "", parent := none, left := none, right := none, balance := .level },
    { owner := some 2, tag := "", parent := some 3, left := none, right := none, balance := -1 },
    { owner := some 3, tag := "", parent := some 0, left := some 2, right := some 6, balance := 1 },
    { owner := some 4, tag := "", parent := some 5, left := none, right := none, balance := .level },
    { owner := some 5, tag := "", parent := some 6, left := some 4, right := none, balance := -1 },
    { owner := some 6, tag := "", parent := some 3, left := some 5, right := some 7, balance := -1 },
    { owner := some 7, tag := "", parent := some 6, left := none, right := none, balance := .level }]⟩

/-- At the origin nothing happens; at the second link a double rotation brings the fifth to the top. -/
theorem settleShrinkage_restores_undercut :
    undercut.settleShrinkage 0 .left = .pure undercut () ∧
      ∃ g' log fs t', undercut.Lags 0 (⟨.left, 2, .empty⟩ :: fs) .empty ∧
        undercut.settleShrinkage 2 .left = ⟨g', log, .ok ()⟩ ∧
        undercut.Restores g' 0 (.plug (⟨.left, 2, .empty⟩ :: fs) .empty) t' ∧
        t'.inorder = [2, 3, 4, 5, 6, 7] ∧ t'.root? = some 5 := by
  let fs : List (Frame 8) :=
    [⟨.left, 3, .node (.node (.node .empty 4 .empty) 5 .empty) 6 (.node .empty 7 .empty)⟩]
  have hlags : undercut.Lags 0 (⟨.left, 2, .empty⟩ :: fs) .empty :=
    { carries :=
        { spans := ⟨rfl, rfl, ⟨rfl, rfl, rfl, rfl⟩,
            ⟨rfl, rfl, ⟨rfl, rfl, ⟨rfl, rfl, rfl, rfl⟩, rfl⟩, ⟨rfl, rfl, rfl, rfl⟩⟩⟩
          nodup := by decide, fresh := by decide, parent := rfl, right := rfl }
      exact := trivial, balanced := trivial
      exactAbove := ⟨rfl, trivial, rfl, ⟨rfl, ⟨rfl, ⟨rfl, trivial, trivial⟩, trivial⟩, rfl, trivial, trivial⟩, trivial⟩
      balancedAbove := by
        simp [fs, Shape.BalancedAbove, Frame.leadOver, Frame.heightOver, Shape.Balanced, Shape.tilt, Shape.height] }
  obtain ⟨g', log, t', hrun, h⟩ := (settleShrinkage_restores undercut 2 .left).2 0 fs .empty .empty hlags
  refine ⟨(settleShrinkage_restores undercut 0 .left).1 rfl, g', log, fs, t', hlags, hrun, h, h.inorder, ?_⟩
  have htop : (undercut.settleShrinkage 2 .left).state.child 0 .left = some 5 := by
    decide +kernel
  rw [hrun] at htop
  exact h.carries.spans.slot_eq.symm.trans htop

end Links

end BalancedLinks
