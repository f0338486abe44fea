import BalancedLinks.Proofs.Repair

/-!
# Settling balances on shapes

The walks that bring balance back after one place of a carried shape grew or shrank by one. Both end without
a failure, report what `Shape.grown` and `Shape.shrunk` report, and leave the origin carrying the shape that
these arrive at, with exact balances.

The main statements are `Links.settleGrowth_eq` and `Links.settleShrinkage_eq`.
-/

set_option autoImplicit false

namespace BalancedLinks

namespace Balance

/-- One is a finite balance. -/
theorem one_eq : (1 : Balance) = .finite 1 :=
  rfl

/-- A finite balance is level exactly if it is zero. -/
@[simp] theorem finite_eq_level_iff (i : Int) : (.finite i : Balance) = .level ↔ i = 0 := by
  simp [level]

/-- A finite balance is out of bounds exactly if it is two or more, of either sign. -/
@[simp] theorem isUnbalanced_finite (i : Int) : (.finite i : Balance).isUnbalanced = true ↔ 1 < i.natAbs := by
  have hneg : (-(.finite i) : Balance) = .finite (-i) := rfl
  simp only [isUnbalanced, fallsBelow, hneg, exceeds, Bool.or_eq_true, decide_eq_true_eq]
  omega

end Balance

namespace Frame

variable {n : Nat}

/-- The balance of a frame's link, counted on after the side of the place grew. -/
theorem balance_grown (f : Frame n) {h : Nat} (hlead : (f.leadOver h).natAbs ≤ 1) :
    (f.side = .right → (.finite (f.tiltOver h) + 1 : Balance) = .finite (f.tiltOver (h + 1))) ∧
      (f.side = .left → (.finite (f.tiltOver h) - 1 : Balance) = .finite (f.tiltOver (h + 1))) := by
  have hlimit := four_lt_exactLimit
  simp only [leadOver] at hlead
  constructor
  · intro hs
    simp only [tiltOver, leadOver, hs, Balance.one_eq]
    exact Balance.finite_add_eq (by omega) (by omega)
  · intro hs
    simp only [tiltOver, leadOver, hs, Balance.one_eq]
    exact Balance.finite_sub_eq (by omega) (by omega)

/-- The balance of a frame's link, counted on after the side of the place shrank. -/
theorem balance_shrunk (f : Frame n) {h : Nat} (hlead : (f.leadOver (h + 1)).natAbs ≤ 1) :
    (f.side = .right → (.finite (f.tiltOver (h + 1)) - 1 : Balance) = .finite (f.tiltOver h)) ∧
      (f.side = .left → (.finite (f.tiltOver (h + 1)) + 1 : Balance) = .finite (f.tiltOver h)) := by
  have hlimit := four_lt_exactLimit
  simp only [leadOver] at hlead
  constructor
  · intro hs
    simp only [tiltOver, leadOver, hs, Balance.one_eq]
    exact Balance.finite_sub_eq (by omega) (by omega)
  · intro hs
    simp only [tiltOver, leadOver, hs, Balance.one_eq]
    exact Balance.finite_add_eq (by omega) (by omega)

end Frame

namespace Links

variable {α : Type} {n : Nat} {g g' : Links α n}

namespace Carries

variable {o : LinkId n} {f : Frame n} {fs : List (Frame n)} {t : Shape n}

/-- A place that is carried has fewer links above it than there are. -/
theorem length_frames_lt (h : g.Carries o (.plug fs t)) : fs.length < n := by
  have hlt := Shape.length_inorder_lt h.nodup h.fresh
  rw [Shape.length_inorder_plug] at hlt
  have hle := Shape.length_le_around fs
  omega

/-- The link at a place, with the link that holds the slot above the place. -/
theorem spans_at (h : g.Carries o (.plug fs t)) {l : LinkId n} (hl : t.root? = some l) :
    g.Spans (some l) (Shape.slotOf o fs).1 t := by
  rw [← hl, ← h.at_place.slot_eq]
  exact h.at_place

/-- The parent of a link at a place is the one that its slot belongs to. -/
theorem parent_at (h : g.Carries o (.plug fs t)) {l : LinkId n} (hl : t.root? = some l) :
    g.parent l = some (Shape.slotOf o fs).1 := by
  cases t with
  | empty => simp [Shape.root?] at hl
  | node a k b =>
    simp only [Shape.root?, Option.some.injEq] at hl
    exact hl ▸ h.at_place.2.1

/-- The side on which the link at a place hangs. -/
theorem sideOf_at (h : g.Carries o (.plug fs t)) {l : LinkId n} (hl : t.root? = some l) :
    g.sideOf l = (Shape.slotOf o fs).2 :=
  sideOf_eq (h.parent_at hl) (h.at_place.slot_eq.trans hl) (h.child_other_ne (Shape.root?_mem hl))

/-- No link above a place is an origin. -/
theorem not_isOrigin_frame (h : g.Carries o (.plug (f :: fs) t)) : ¬ g.isOrigin f.link = true := by
  simp [isOrigin, h.above.2.1]

/-- What carries a shape is an origin. -/
theorem isOrigin_origin (h : g.Carries o t) : g.isOrigin o = true := by
  simp [isOrigin, h.parent]

/-- Writing a balance within the shape does not change what is carried. -/
theorem setBalance (h : g.Carries o t) {l : LinkId n} (hl : l ∈ t.inorder) (b : Balance) :
    (g.setBalance l b).Carries o t ∧ Edit g (g.setBalance l b) o .left t.inorder := by
  refine ⟨⟨?_, h.nodup, h.fresh, by simp [h.parent], by simp [h.right]⟩,
    edit_setBalance b hl h.fresh⟩
  rw [child_setBalance]
  exact h.spans.congr (by simp) (by simp)

/-- The frame's balance written anew: exact again, where the place has the height that it now has. -/
theorem exact_setBalance (h : g.Carries o (.plug (f :: fs) t)) (hx : g.Exact t) (hrest : g.Exact f.rest) :
    (g.setBalance f.link (.finite (f.fill t).tilt)).Exact (f.fill t) := by
  obtain ⟨hlt, hlr, -, -⟩ := h.frame_apart
  refine (exact_fork f.side t f.link f.rest).mpr ⟨?_, hx.congr ?_, hrest.congr ?_⟩
  · rw [balance_setBalance, if_pos rfl]
    rfl
  · intro k hk
    have hlk : f.link ≠ k := fun heq => hlt (heq ▸ hk)
    rw [balance_setBalance, if_neg hlk]
  · intro k hk
    have hlk : f.link ≠ k := fun heq => hlr (heq ▸ hk)
    rw [balance_setBalance, if_neg hlk]

/-- The frames further up record the same balances after that. -/
theorem exactAbove_setBalance (h : g.Carries o (.plug (f :: fs) t)) {m : Nat} (hx : g.ExactAbove fs m)
    (b : Balance) : (g.setBalance f.link b).ExactAbove fs m := by
  apply hx.congr
  intro k hk
  have hlk : f.link ≠ k := fun heq => (h.frame_apart.2.2.2 f.link (Or.inl rfl)).2 (heq ▸ hk)
  rw [balance_setBalance, if_neg hlk]

/-- A repair at a place of a carried shape mends the shape there. -/
theorem repair (h : g.Carries o (.plug fs t)) {s : Side} {a c : Shape n} {l : LinkId n}
    (ht : t = .fork s a l c) (hx : g.Exact t) (hlead : t.lead s = 2) (ha : a.Balanced) :
    ∃ g' top, g.repair l = ⟨g', [t.mendedEvent], .ok top⟩ ∧ t.mended.2.root? = some top ∧
      g'.Carries o (.plug fs t.mended.2) ∧ g'.Exact t.mended.2 ∧
      (∀ m, g.ExactAbove fs m → g'.ExactAbove fs m) ∧
      Edit g g' o .left (Shape.plug fs t).inorder := by
  subst ht
  have hroot : (Shape.fork s a l c).root? = some l := Shape.root?_fork s a l c
  obtain ⟨g', top, hrep, htop, hedit, hspans, hexact⟩ :=
    repair_eq (h.spans_at hroot) (h.sideOf_at hroot) h.nodup_at h.slotOf_not_mem hx hlead ha
  have hinorder := Shape.inorder_mended (Shape.fork s a l c)
  refine ⟨g', top, hrep, htop, ?_, hexact, fun m hm => h.exactAbove_edit hm hedit (fun k hk => hk),
    h.widen hedit (fun k hk => hk)⟩
  exact h.edit hedit (fun k hk => h.apart hk) hspans (hinorder ▸ h.nodup_at)
    (fun k hk => h.apart (hinorder ▸ hk))

end Carries

/-- The topmost link of an exactly recorded shape records its tilt. -/
theorem Exact.balance_root {t : Shape n} (h : g.Exact t) {l : LinkId n} (hl : t.root? = some l) :
    g.balance l = .finite t.tilt := by
  cases t with
  | empty => simp [Shape.root?] at hl
  | node a k b =>
    simp only [Shape.root?, Option.some.injEq] at hl
    exact hl ▸ h.1

/-! ## After growth -/

/-- A link at a place is a right child exactly if the frame above it says so. -/
theorem isChild_right_at {o l : LinkId n} {f : Frame n} {fs : List (Frame n)} {t : Shape n}
    (h : g.Carries o (.plug (f :: fs) t)) (hl : t.root? = some l) :
    g.isChild l .right = true ↔ f.side = .right := by
  have hside := h.sideOf_at hl
  simp only [sideOf, Shape.slotOf] at hside
  by_cases hright : g.isChild l .right = true
  · rw [if_pos hright] at hside
    simp [hright, hside.symm]
  · rw [if_neg hright] at hside
    simp [hright, hside.symm]

/-- The walk after growth of a place follows the shapes. -/
theorem settleGrowthWithin_eq {o l : LinkId n} {fs : List (Frame n)} {t : Shape n} {h k : Nat}
    (hk : fs.length < k) (hc : g.Carries o (.plug fs t)) (hl : t.root? = some l) (hx : g.Exact t)
    (ht : t.Balanced) (hheight : t.height = h + 1) (hlevel : t.tilt = 0 → h = 0) (hup : g.ExactAbove fs h)
    (hbal : Shape.BalancedAbove fs h) :
    ∃ g', settleGrowthWithin k g l = ⟨g', (Shape.grown fs t).1, .ok ()⟩ ∧
      g'.Carries o (Shape.grown fs t).2 ∧ g'.Exact (Shape.grown fs t).2 ∧
      Edit g g' o .left (Shape.plug fs t).inorder := by
  induction fs generalizing g l t h k with
  | nil =>
    obtain ⟨k, rfl⟩ : ∃ m, k = m + 1 := ⟨k - 1, by simp only [List.length_nil] at hk; omega⟩
    refine ⟨g, ?_, hc, hx, Edit.refl g o .left _⟩
    have hparent : g.parent l = some o := hc.parent_at hl
    simp only [settleGrowthWithin, hparent]
    rw [if_pos hc.isOrigin_origin]
    rfl
  | cons f fs ih =>
    obtain ⟨k, rfl⟩ : ∃ m, k = m + 1 := ⟨k - 1, by simp only [List.length_cons] at hk; omega⟩
    obtain ⟨hbalance, hxrest, hup⟩ := hup
    obtain ⟨hlead, hrest, hbal⟩ := hbal
    obtain ⟨hzero, htwo, hone⟩ := Shape.fill_of_growth hheight ht hlevel hlead hrest
    have hparent : g.parent l = some f.link := hc.parent_at hl
    have hnew : (if g.isChild l .right = true then g.balance f.link + 1 else g.balance f.link - 1) =
        .finite (f.fill t).tilt := by
      rw [hbalance, f.tilt_fill, hheight]
      cases hside : f.side
      · rw [if_neg (fun hr => Side.noConfusion (((isChild_right_at hc hl).mp hr).symm.trans hside))]
        exact (f.balance_grown hlead).2 hside
      · rw [if_pos ((isChild_right_at hc hl).mpr hside)]
        exact (f.balance_grown hlead).1 hside
    obtain ⟨hc₁, hedit₁⟩ := hc.setBalance (l := f.link)
      ((Shape.mem_inorder_plug _ t f.link).mpr (Or.inr (by simp))) (.finite (f.fill t).tilt)
    have hx₁ := hc.exact_setBalance hx hxrest
    have hup₁ := hc.exactAbove_setBalance hup (.finite (f.fill t).tilt)
    simp only [settleGrowthWithin, hparent]
    rw [if_neg hc.not_isOrigin_frame, hnew]
    simp only [Balance.finite_eq_level_iff, Balance.isUnbalanced_finite, Shape.grown]
    rw [Shape.plug_cons] at hc₁ hedit₁
    split_ifs with h0 h2
    · exact ⟨_, rfl, hc₁, (exact_plug fs _).mpr ⟨hx₁, (hzero h0).1 ▸ hup₁⟩, hedit₁⟩
    · obtain ⟨g', top, hrep, -, hc₂, hx₂, hup₂, hedit₂⟩ := hc₁.repair rfl hx₁ (htwo h2).1 ht
      refine ⟨g', ?_, hc₂, (exact_plug fs _).mpr ⟨hx₂, hup₂ _ ((htwo h2).2.1 ▸ hup₁)⟩, hedit₁.trans hedit₂⟩
      rw [hrep]
      rfl
    · obtain ⟨g', hrun, hc₂, hx₂, hedit₂⟩ := ih (by simpa using hk) hc₁ (f.root?_fill t) hx₁
        (hone h0 h2).2 (hone h0 h2).1 (fun h => absurd h h0) hup₁ hbal
      exact ⟨g', hrun, hc₂, hx₂, hedit₁.trans hedit₂⟩

/--
After a leaf has been hung in at a place of a balanced shape, settling the balances above it leads to the
shape grown at that place.
-/
theorem settleGrowth_eq {o l : LinkId n} {fs : List (Frame n)}
    (hc : g.Carries o (.plug fs (.node .empty l .empty))) (hx : g.Exact (.node .empty l .empty))
    (hup : g.ExactAbove fs 0) (hbal : Shape.BalancedAbove fs 0) :
    ∃ g', g.settleGrowth l = ⟨g', (Shape.grown fs (.node .empty l .empty)).1, .ok ()⟩ ∧
      g'.Carries o (Shape.grown fs (.node .empty l .empty)).2 ∧
      g'.Exact (Shape.grown fs (.node .empty l .empty)).2 ∧
      Edit g g' o .left (Shape.plug fs (.node .empty l .empty)).inorder := by
  have hlt := hc.length_frames_lt
  exact settleGrowthWithin_eq (by omega) hc rfl hx (by simp [Shape.Balanced, Shape.tilt]) rfl (fun _ => rfl)
    hup hbal

/-! ## After shrinkage -/

/-- Where a walk goes on from a place: at the slot above it. -/
theorem Carries.parentSide_at {o l : LinkId n} {fs : List (Frame n)} {t : Shape n}
    (h : g.Carries o (.plug fs t)) (hl : t.root? = some l) :
    g.parentSide l = some (Shape.slotOf o fs) := by
  simp only [parentSide, h.parent_at hl, h.sideOf_at hl, Option.map_some]

/-- One step up, given the balance that the link records afterwards. -/
theorem shrinkageStep_eq {l : LinkId n} {side : Side} {b : Balance}
    (hright : side = .right → g.balance l - 1 = b) (hleft : side = .left → g.balance l + 1 = b) :
    g.shrinkageStep l side =
      if b.isUnbalanced then
        ((g.setBalance l b).repair l).andThen fun g top =>
          .pure g (if g.balance top = .level then g.parentSide top else none)
      else .pure (g.setBalance l b) (if b = .level then (g.setBalance l b).parentSide l else none) := by
  cases side
  · simp only [shrinkageStep, hleft rfl]
  · simp only [shrinkageStep, hright rfl]

/-- The walk after shrinkage at a place follows the shapes. -/
theorem settleShrinkageWithin_eq {o : LinkId n} {fs : List (Frame n)} {t : Shape n} {h k : Nat}
    (hk : fs.length < k) (hc : g.Carries o (.plug fs t)) (hx : g.Exact t) (ht : t.Balanced)
    (hheight : t.height = h) (hup : g.ExactAbove fs (h + 1)) (hbal : Shape.BalancedAbove fs (h + 1)) :
    ∃ g', settleShrinkageWithin k g (Shape.slotOf o fs).1 (Shape.slotOf o fs).2 =
        ⟨g', (Shape.shrunk fs t).1, .ok ()⟩ ∧
      g'.Carries o (Shape.shrunk fs t).2 ∧ g'.Exact (Shape.shrunk fs t).2 ∧
      Edit g g' o .left (Shape.plug fs t).inorder := by
  induction fs generalizing g t h k with
  | nil =>
    obtain ⟨k, rfl⟩ : ∃ m, k = m + 1 := ⟨k - 1, by simp only [List.length_nil] at hk; omega⟩
    refine ⟨g, ?_, hc, hx, Edit.refl g o .left _⟩
    show settleShrinkageWithin (k + 1) g o .left = _
    simp only [settleShrinkageWithin]
    rw [if_pos hc.isOrigin_origin]
    rfl
  | cons f fs ih =>
    obtain ⟨k, rfl⟩ : ∃ m, k = m + 1 := ⟨k - 1, by simp only [List.length_cons] at hk; omega⟩
    have hk' : fs.length < k := by simpa using hk
    obtain ⟨hbalance, hxrest, hup⟩ := hup
    obtain ⟨hlead, hrest, hbal⟩ := hbal
    obtain ⟨htwo, hzero, hone⟩ := Shape.fill_of_shrinkage hheight ht hlead hrest
    have hstep := shrinkageStep_eq (g := g) (l := f.link) (b := .finite (f.fill t).tilt)
      (fun hs => by rw [hbalance, f.tilt_fill, hheight]; exact (f.balance_shrunk hlead).1 hs)
      (fun hs => by rw [hbalance, f.tilt_fill, hheight]; exact (f.balance_shrunk hlead).2 hs)
    obtain ⟨hc₁, hedit₁⟩ := hc.setBalance (l := f.link)
      ((Shape.mem_inorder_plug _ t f.link).mpr (Or.inr (by simp))) (.finite (f.fill t).tilt)
    have hx₁ := hc.exact_setBalance hx hxrest
    have hup₁ := hc.exactAbove_setBalance hup (.finite (f.fill t).tilt)
    show ∃ g', settleShrinkageWithin (k + 1) g f.link f.side = _ ∧ _
    simp only [settleShrinkageWithin]
    rw [if_neg hc.not_isOrigin_frame, hstep]
    simp only [Balance.finite_eq_level_iff, Balance.isUnbalanced_finite, Shape.shrunk]
    rw [Shape.plug_cons] at hc₁ hedit₁
    by_cases h2 : 1 < (f.fill t).tilt.natAbs
    · obtain ⟨htwice, hmbal, hlow, hsame⟩ := htwo h2
      have hswap : f.fill t = .fork f.side.other f.rest f.link t :=
        (Shape.fork_other f.side f.rest f.link t).symm
      obtain ⟨g₂, top, hrep, htop, hc₂, hx₂, hup₂, hedit₂⟩ := hc₁.repair hswap hx₁ htwice hrest
      have htopBalance : g₂.balance top = .finite (f.fill t).mended.2.tilt := hx₂.balance_root htop
      rw [if_pos h2, if_pos h2, hrep]
      simp only [Outcome.andThen_ok, Outcome.pure, htopBalance, Balance.finite_eq_level_iff]
      by_cases hm : (f.fill t).mended.2.tilt = 0
      · obtain ⟨g', hrun, hc₃, hx₃, hedit₃⟩ := ih hk' hc₂ hx₂ hmbal rfl ((hlow hm).symm ▸ hup₂ _ hup₁)
          ((hlow hm).symm ▸ hbal)
        rw [if_pos hm, if_pos hm, hc₂.parentSide_at htop]
        simp only [hrun]
        rw [Shape.inorder_plug_congr fs (Shape.inorder_mended _)] at hedit₃
        exact ⟨g', by simp, hc₃, hx₃, (hedit₁.trans hedit₂).trans hedit₃⟩
      · rw [if_neg hm, if_neg hm]
        exact ⟨g₂, rfl, hc₂, (exact_plug fs _).mpr ⟨hx₂, hup₂ _ ((hsame hm).symm ▸ hup₁)⟩,
          hedit₁.trans hedit₂⟩
    · rw [if_neg h2, if_neg h2]
      by_cases h0 : (f.fill t).tilt = 0
      · rw [if_pos h0, if_pos h0, hc₁.parentSide_at (f.root?_fill t)]
        obtain ⟨g', hrun, hc₂, hx₂, hedit₂⟩ := ih hk' hc₁ hx₁ (hzero h0).2 rfl ((hzero h0).1.symm ▸ hup₁)
          ((hzero h0).1.symm ▸ hbal)
        simp only [Outcome.pure, Outcome.andThen_ok, hrun, List.nil_append]
        exact ⟨g', rfl, hc₂, hx₂, hedit₁.trans hedit₂⟩
      · rw [if_neg h0, if_neg h0]
        exact ⟨_, rfl, hc₁, (exact_plug fs _).mpr ⟨hx₁, (hone h0 h2).1.symm ▸ hup₁⟩, hedit₁⟩

/--
After the subshape at a place of a balanced shape lost one of its height, settling the balances from the
slot above it leads to the shape shrunk at that place.
-/
theorem settleShrinkage_eq {o : LinkId n} {fs : List (Frame n)} {t : Shape n}
    (hc : g.Carries o (.plug fs t)) (hx : g.Exact t) (ht : t.Balanced)
    (hup : g.ExactAbove fs (t.height + 1)) (hbal : Shape.BalancedAbove fs (t.height + 1)) :
    ∃ g', g.settleShrinkage (Shape.slotOf o fs).1 (Shape.slotOf o fs).2 =
        ⟨g', (Shape.shrunk fs t).1, .ok ()⟩ ∧
      g'.Carries o (Shape.shrunk fs t).2 ∧ g'.Exact (Shape.shrunk fs t).2 ∧
      Edit g g' o .left (Shape.plug fs t).inorder := by
  have hlt := hc.length_frames_lt
  exact settleShrinkageWithin_eq (by omega) hc hx ht rfl hup hbal

end Links

end BalancedLinks
