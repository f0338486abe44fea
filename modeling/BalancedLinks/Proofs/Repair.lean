import BalancedLinks.Repair
import BalancedLinks.Proofs.Rotation

/-!
# Repairs on shapes

A repair of a link whose subshapes differ in height by two, both of them balanced and all balances exact,
mends the shape as `Shape.mended` does, in one rotation or two. It never fails.

The main statement is `Links.repair_eq`.
-/

set_option autoImplicit false

namespace BalancedLinks

/-! ## Reading the balance -/

/-- The side that an exact balance points to is the heavy one. -/
theorem heavySide_tilt {n : Nat} (t : Shape n) : heavySide (.finite t.tilt) = t.heavy := by
  simp only [heavySide, Balance.isRightHeavy, Balance.exceeds, Shape.heavy, decide_eq_true_eq]

/-- An exact balance leans away from a side exactly if the other side leads. -/
theorem leansAwayFrom_tilt {n : Nat} (s : Side) (t : Shape n) :
    leansAwayFrom s (.finite t.tilt) = true ↔ t.lead s < 0 := by
  cases s
  · simp only [leansAwayFrom, Balance.isRightHeavy, Balance.exceeds, Shape.lead, decide_eq_true_eq]
    omega
  · have hneg : (-(.finite t.tilt) : Balance) = .finite (-t.tilt) := rfl
    simp only [leansAwayFrom, Balance.isLeftHeavy, Balance.fallsBelow, hneg, Balance.exceeds, Shape.lead,
      decide_eq_true_eq]
    omega

/-- The balances that rotations compute with are small enough to be exact. -/
theorem four_lt_exactLimit : 4 < Number.exactLimit := by
  decide

namespace Links

variable {α : Type} {n : Nat} {g g' : Links α n}

/-- A fork with one subshape changed still hangs where it hung. -/
theorem Spans.refork {s : Side} {slot : Option (LinkId n)} {p l : LinkId n} {x x' c : Shape n}
    (h : g.Spans slot p (.fork s x l c)) (hnodup : (Shape.fork s x l c).inorder.Nodup)
    (e : Edit g g' l s x.inorder) (hx' : g'.Spans (g'.child l s) l x') :
    g'.Spans slot p (.fork s x' l c) := by
  obtain ⟨hslot, hl, -, hc⟩ := (spans_fork s slot p l x c).mp h
  obtain ⟨-, hlc, -, -, hxc⟩ := (Shape.nodup_inorder_fork s x l c).mp hnodup
  refine (spans_fork s slot p l x' c).mpr ⟨hslot, e.parent.trans hl, hx', ?_⟩
  rw [e.child]
  exact e.spans hc hlc hxc

/-- What a repair reads of a heavy link: the heavy side, the child there, and whether that child leans away from it. -/
theorem reads_heavy {s : Side} {p q l : LinkId n} {a b c : Shape n}
    (h : g.Spans (some l) p (.fork s (.fork s a q b) l c)) (hexact : g.Exact (.fork s (.fork s a q b) l c))
    (hlead : (Shape.fork s (.fork s a q b) l c).lead s = 2) :
    heavySide (g.balance l) = s ∧ g.child l s = some q ∧
      g.balance q = .finite (Shape.fork s a q b).tilt ∧
      (leansAwayFrom s (g.balance q) = true ↔ (Shape.fork s a q b).lead s < 0) := by
  obtain ⟨hl, hx, -⟩ := (exact_fork s _ l c).mp hexact
  obtain ⟨hq, -⟩ := (exact_fork s a q b).mp hx
  obtain ⟨-, -, hchild, -⟩ := (spans_fork s _ p l _ c).mp h
  refine ⟨?_, hchild.slot_eq.trans (Shape.root?_fork s a q b), hq, ?_⟩
  · rw [hl, heavySide_tilt]
    exact Shape.heavy_eq_of_lead (by omega)
  · rw [hq, leansAwayFrom_tilt]

/-- The last rotation of a repair: the report tells the balance of the new topmost link. -/
theorem repairBy_eq {s : Side} {l q : LinkId n} {a b c : Shape n} (kind : RotationKind)
    (hrot : g.rotate l s.other = .ok (q, g')) (hexact : g'.Exact (.fork s a q (.fork s b l c))) :
    g.repairBy l s kind =
      ⟨g', [.rotated kind (.finite (Shape.fork s a q (.fork s b l c)).tilt)], .ok q⟩ := by
  unfold repairBy
  rw [hrot]
  simp only [((exact_fork s a q _).mp hexact).1]

/-- A repair of a link with a level or outward heavy child, in one rotation. -/
theorem repair_single {s s' : Side} {p q l : LinkId n} {a b c : Shape n}
    (h : g.Spans (some l) p (.fork s (.fork s a q b) l c)) (hside : g.sideOf l = s')
    (hnodup : (Shape.fork s (.fork s a q b) l c).inorder.Nodup)
    (hp : p ∉ (Shape.fork s (.fork s a q b) l c).inorder)
    (hexact : g.Exact (.fork s (.fork s a q b) l c))
    (hlead : (Shape.fork s (.fork s a q b) l c).lead s = 2) (hab : ((a.height : Int) - b.height).natAbs ≤ 1)
    (hout : b.height ≤ a.height) :
    ∃ g', g.repair l = ⟨g', [(Shape.fork s (.fork s a q b) l c).mendedEvent], .ok q⟩ ∧
      Edit g g' p s' (Shape.fork s (.fork s a q b) l c).inorder ∧
      g'.Spans (g'.child p s') p (.fork s a q (.fork s b l c)) ∧
      g'.Exact (.fork s a q (.fork s b l c)) := by
  have hlimit := four_lt_exactLimit
  have hheights := hlead
  rw [Shape.lead_fork, Shape.height_fork] at hheights
  obtain ⟨g', hrot, hedit, hspans, hexact'⟩ := exact_of_rotate_fork h hside hnodup hp hexact
    ⟨by omega, by omega, by omega⟩
  refine ⟨g', ?_, hedit, hspans, hexact'⟩
  obtain ⟨hheavy, hchild, -, hleans⟩ := reads_heavy h hexact hlead
  have houtward : ¬ (Shape.fork s a q b).lead s < 0 := by
    rw [Shape.lead_fork]
    omega
  simp only [repair, hheavy, hchild, hleans]
  rw [if_neg houtward, repairBy_eq .single hrot hexact', Shape.mendedEvent,
    Shape.mended_single hlead hout]

/-- The inner rotation of a repair: the inward heavy child is turned, and the link is as heavy as before. -/
theorem rotate_inner {s s' : Side} {p q r l : LinkId n} {a d e c : Shape n}
    (h : g.Spans (some l) p (.fork s (.fork s a q (.fork s d r e)) l c))
    (hnodup : (Shape.fork s (.fork s a q (.fork s d r e)) l c).inorder.Nodup)
    (hp : p ∉ (Shape.fork s (.fork s a q (.fork s d r e)) l c).inorder)
    (hexact : g.Exact (.fork s (.fork s a q (.fork s d r e)) l c))
    (had : a.height = max d.height e.height) (hde : ((d.height : Int) - e.height).natAbs ≤ 1) :
    ∃ g', g.rotate q s = .ok (r, g') ∧
      Edit g g' p s' (Shape.fork s (.fork s a q (.fork s d r e)) l c).inorder ∧ g'.sideOf l = g.sideOf l ∧
      g'.Spans (some l) p (.fork s (.fork s (.fork s a q d) r e) l c) ∧
      g'.Exact (.fork s (.fork s (.fork s a q d) r e) l c) := by
  have hlimit := four_lt_exactLimit
  have hturn : Shape.fork s a q (.fork s d r e) = .fork s.other (.fork s.other e r d) q a := by
    rw [Shape.fork_other, Shape.fork_other]
  obtain ⟨-, -, hx, hc⟩ := (spans_fork s _ p l _ c).mp h
  obtain ⟨hl, hxx, hxc⟩ := (exact_fork s _ l c).mp hexact
  obtain ⟨hlx, -, hndx, -, hxdis⟩ := (Shape.nodup_inorder_fork s _ l c).mp hnodup
  have hslot : g.child l s = some q := hx.slot_eq.trans (Shape.root?_fork s a q _)
  have hother : g.child l s.other ≠ some q := by
    rw [hc.slot_eq]
    intro heq
    exact hxdis q (by simp) (Shape.root?_mem heq)
  rw [hslot] at hx
  have hside : g.sideOf q = s := sideOf_eq ((spans_fork s _ l q a _).mp hx).2.1 hslot hother
  have hpx : p ≠ l ∧ p ∉ (Shape.fork s a q (.fork s d r e)).inorder := by
    rw [Shape.mem_inorder_fork, not_or, not_or] at hp
    exact ⟨hp.1, hp.2.1⟩
  rw [hturn] at hx hxx hlx hndx
  obtain ⟨g', hrot, hedit, hspans, hexact'⟩ := exact_of_rotate_fork hx hside hndx hlx hxx
    ⟨by omega, by omega, by omega⟩
  rw [← hturn] at hedit
  rw [Shape.fork_other, Shape.fork_other] at hspans hexact'
  rw [Side.other_other] at hrot
  refine ⟨g', hrot, hedit.widen (by simp) ?_ hp, ?_, h.refork hnodup hedit hspans, ?_⟩
  · intro k hk
    rw [Shape.mem_inorder_fork]
    exact Or.inr (Or.inl hk)
  · have hlp : g.parent l = some p := ((spans_fork s _ p l _ c).mp h).2.1
    have hright : g'.child p .right = g.child p .right := hedit.outside_child hpx.1 hpx.2 .right
    simp only [sideOf, isChild, hedit.parent, hlp, hright]
  · have htilt : (Shape.fork s (.fork s (.fork s a q d) r e) l c).tilt =
        (Shape.fork s (.fork s a q (.fork s d r e)) l c).tilt := by
      have hheight : (Shape.fork s (.fork s a q d) r e).height =
          (Shape.fork s a q (.fork s d r e)).height := by
        simp only [Shape.height_fork]
        omega
      cases s <;> simp only [Shape.fork, Shape.tilt] at hheight ⊢ <;> rw [hheight]
    exact (exact_fork s _ l c).mpr
      ⟨by rw [htilt, hedit.balance, hl], hexact', hedit.exact hxc hxdis⟩

/-- A repair of a link with an inward heavy child, in two rotations. -/
theorem repair_double {s s' : Side} {p q r l : LinkId n} {a d e c : Shape n}
    (h : g.Spans (some l) p (.fork s (.fork s a q (.fork s d r e)) l c)) (hside : g.sideOf l = s')
    (hnodup : (Shape.fork s (.fork s a q (.fork s d r e)) l c).inorder.Nodup)
    (hp : p ∉ (Shape.fork s (.fork s a q (.fork s d r e)) l c).inorder)
    (hexact : g.Exact (.fork s (.fork s a q (.fork s d r e)) l c))
    (hlead : (Shape.fork s (.fork s a q (.fork s d r e)) l c).lead s = 2)
    (had : a.height = max d.height e.height) (hde : ((d.height : Int) - e.height).natAbs ≤ 1) :
    ∃ g', g.repair l = ⟨g', [(Shape.fork s (.fork s a q (.fork s d r e)) l c).mendedEvent], .ok r⟩ ∧
      Edit g g' p s' (Shape.fork s (.fork s a q (.fork s d r e)) l c).inorder ∧
      g'.Spans (g'.child p s') p (.fork s (.fork s a q d) r (.fork s e l c)) ∧
      g'.Exact (.fork s (.fork s a q d) r (.fork s e l c)) := by
  have hlimit := four_lt_exactLimit
  have hheights := hlead
  simp only [Shape.lead_fork, Shape.height_fork] at hheights
  have hinorder : (Shape.fork s (.fork s (.fork s a q d) r e) l c).inorder =
      (Shape.fork s (.fork s a q (.fork s d r e)) l c).inorder := by
    cases s <;> simp [Shape.fork, Shape.inorder]
  obtain ⟨g₁, hrot₁, hedit₁, hside₁, hspans₁, hexact₁⟩ := rotate_inner h hnodup hp hexact had hde
  rw [← hinorder] at hnodup hp
  obtain ⟨g₂, hrot₂, hedit₂, hspans₂, hexact₂⟩ := exact_of_rotate_fork hspans₁ (hside₁.trans hside) hnodup
    hp hexact₁ ⟨by simp only [Shape.height_fork]; omega, by omega, by simp only [Shape.height_fork]; omega⟩
  rw [hinorder] at hedit₂
  refine ⟨g₂, ?_, hedit₁.trans hedit₂, hspans₂, hexact₂⟩
  obtain ⟨hheavy, hchild, -, hleans⟩ := reads_heavy h hexact hlead
  have hinward : (Shape.fork s a q (.fork s d r e)).lead s < 0 := by
    rw [Shape.lead_fork, Shape.height_fork]
    omega
  simp only [repair, hheavy, hchild, hleans]
  rw [if_pos hinward, hrot₁]
  simp only [repairBy_eq .double hrot₂ hexact₂]
  rw [Shape.mendedEvent, Shape.mended_double hlead (by rw [Shape.height_fork]; omega)]

/--
A repair of a link that is heavy by two over balanced subshapes mends the shape below the slot that holds
it, reports so, and answers with the link that stands there afterwards.
-/
theorem repair_eq {s s' : Side} {p l : LinkId n} {a c : Shape n}
    (h : g.Spans (some l) p (.fork s a l c)) (hside : g.sideOf l = s')
    (hnodup : (Shape.fork s a l c).inorder.Nodup) (hp : p ∉ (Shape.fork s a l c).inorder)
    (hexact : g.Exact (.fork s a l c)) (hlead : (Shape.fork s a l c).lead s = 2) (ha : a.Balanced) :
    ∃ g' top, g.repair l = ⟨g', [(Shape.fork s a l c).mendedEvent], .ok top⟩ ∧
      (Shape.fork s a l c).mended.2.root? = some top ∧
      Edit g g' p s' (Shape.fork s a l c).inorder ∧
      g'.Spans (g'.child p s') p (Shape.fork s a l c).mended.2 ∧
      g'.Exact (Shape.fork s a l c).mended.2 := by
  rcases Shape.eq_empty_or_fork s a with rfl | ⟨a, q, b, rfl⟩
  · simp only [Shape.lead_fork, Shape.height] at hlead
    omega
  obtain ⟨hab, -, hb⟩ := (Shape.balanced_fork s a q b).mp ha
  by_cases hout : b.height ≤ a.height
  · obtain ⟨g', hrep, hedit, hspans, hexact'⟩ := repair_single h hside hnodup hp hexact hlead hab hout
    rw [Shape.mended_single hlead hout]
    exact ⟨g', q, hrep, Shape.root?_fork s a q _, hedit, hspans, hexact'⟩
  · rcases Shape.eq_empty_or_fork s b with rfl | ⟨d, r, e, rfl⟩
    · simp only [Shape.height] at hout
      omega
    · obtain ⟨hde, -⟩ := (Shape.balanced_fork s d r e).mp hb
      rw [Shape.height_fork] at hab hout
      obtain ⟨g', hrep, hedit, hspans, hexact'⟩ := repair_double h hside hnodup hp hexact hlead
        (by omega) hde
      rw [Shape.mended_double hlead (by rw [Shape.height_fork]; omega)]
      exact ⟨g', r, hrep, Shape.root?_fork s _ r _, hedit, hspans, hexact'⟩

end Links

end BalancedLinks
