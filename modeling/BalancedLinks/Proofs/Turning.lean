import BalancedLinks.Proofs.Settling

/-!
# Rotations in trees

A rotation may stand anywhere in a carried shape of any heights. It writes the two links that it turns, one
reference to a parent and one child slot, and from exact balances of the two links follow exact ones,
however far from level they are. Without a child to lift, or a parent to hang it from, it writes nothing.

The main statement is `Links.rotates`.
-/

set_option autoImplicit false

namespace BalancedLinks

/-- In a world of as many links as balances can count, all differences of heights can be recorded. -/
theorem Shape.recordable_of_nodup {n : Nat} {s : Side} {a b c : Shape n} {q l : LinkId n}
    (hnodup : (Shape.fork s (.fork s a q b) l c).inorder.Nodup) (hn : n ≤ Number.exactLimit) :
    Shape.Recordable a b c := by
  -- one of the links is in none of the three subshapes, so each of them is lower than the number of links
  have hlower : ∀ t : Shape n, t.inorder.Nodup → l ∉ t.inorder → t.height < n := by
    intro t ht hl
    have hheight := height_le_length t
    have hlength := length_inorder_lt ht hl
    omega
  obtain ⟨hlq, hlc, hndq, hndc, -⟩ := (nodup_inorder_fork s _ l c).mp hnodup
  obtain ⟨-, -, hnda, hndb, -⟩ := (nodup_inorder_fork s a q b).mp hndq
  simp only [mem_inorder_fork, not_or] at hlq
  have ha := hlower a hnda hlq.2.1
  have hb := hlower b hndb hlq.2.2
  have hc := hlower c hndc hlc
  exact ⟨by omega, by omega, by omega⟩

namespace Links

variable {α : Type} {n : Nat} {g g' : Links α n}

/-! ## What is written -/

/--
Whether a rotation of `l`, which hangs from `p`, has written no more than it needs to: the link and its child
`q`, of which owners and tags are kept; the reference of the inner subtree, which hangs from `l` now; and the
slot of `p` that held `l`.
-/
structure Rewires (g g' : Links α n) (p l q : LinkId n) (towards : Side) : Prop where
  owner : ∀ k, g'.owner k = g.owner k
  tag : ∀ k, g'.tag k = g.tag k
  parent : ∀ k, k ≠ l → k ≠ q →
    g'.parent k = if g.child q towards = some k then some l else g.parent k
  child : ∀ k s, k ≠ l → k ≠ q →
    g'.child k s = if p = k ∧ g.sideOf l = s then some q else g.child k s
  balance : ∀ k, k ≠ l → k ≠ q → g'.balance k = g.balance k

/-- All that a rotation can have done when it succeeds. -/
theorem of_rotate_eq_ok {l q : LinkId n} {towards : Side} (h : g.rotate l towards = .ok (q, g')) :
    g.child l towards.other = some q ∧ ∃ p, g.parent l = some p ∧
      g' = (g.relinkRotated l q p towards).rebalanceRotated l q towards := by
  unfold rotate at h
  cases hchild : g.child l towards.other with
  | none => simp [hchild] at h
  | some pivot =>
    cases hparent : g.parent l with
    | none => simp [hchild, hparent] at h
    | some p =>
      simp only [hchild, hparent, Except.ok.injEq, Prod.mk.injEq] at h
      obtain ⟨rfl, rfl⟩ := h
      exact ⟨rfl, p, rfl, rfl⟩

/-- A rotation rewires links in this way whatever they look like. -/
theorem rewires_of_rotate {p l q : LinkId n} {towards : Side} (h : g.rotate l towards = .ok (q, g'))
    (hparent : g.parent l = some p) : g.Rewires g' p l q towards := by
  obtain ⟨-, p', hp', rfl⟩ := of_rotate_eq_ok h
  obtain rfl := Option.some.inj (hp'.symm.trans hparent)
  refine ⟨?_, ?_, ?_, ?_, ?_⟩
  · intro k
    simp [rebalanceRotated, relinkRotated]
  · intro k
    simp [rebalanceRotated, relinkRotated]
  · intro k hkl hkq
    rw [parent_rebalanceRotated, parent_relinkRotated, if_neg hkq.symm, if_neg hkl.symm]
  · intro k s hkl hkq
    have hq : ¬ (q = k ∧ towards = s) := fun heq => hkq heq.1.symm
    have hl : ¬ (l = k ∧ towards.other = s) := fun heq => hkl heq.1.symm
    rw [child_rebalanceRotated, child_relinkRotated rfl, if_neg hq, if_neg hl]
  · intro k hkl hkq
    rw [balance_rebalanceRotated_of_ne hkl hkq, balance_relinkRotated]

/-! ## Rotations of carried links -/

namespace Carries

variable {o l q : LinkId n} {fs : List (Frame n)} {t : Shape n} {s : Side}

/-- A link with a child on one side stands at a place where that child can be lifted. -/
theorem exists_fork_fork (h : g.Carries o t) (hl : l ∈ t.inorder) (hq : g.child l s = some q) :
    ∃ fs a b c, t = .plug fs (.fork s (.fork s a q b) l c) := by
  obtain ⟨fs, x, y, rfl⟩ := Shape.exists_place hl
  obtain ⟨u, c, hfork⟩ : ∃ u c, Shape.node x l y = .fork s u l c := by
    cases s
    · exact ⟨x, y, rfl⟩
    · exact ⟨y, x, rfl⟩
  rw [hfork] at h ⊢
  obtain ⟨-, -, hu, -⟩ := (spans_fork s _ _ l u c).mp h.at_place
  have hroot : u.root? = some q := hu.slot_eq.symm.trans hq
  rcases Shape.eq_empty_or_fork s u with rfl | ⟨a, k, b, rfl⟩
  · cases hroot
  · rw [Shape.root?_fork, Option.some.injEq] at hroot
    exact ⟨fs, a, b, c, by rw [hroot]⟩

/-- A rotation away from a side turns the subshape at a place of a carried shape, and the balances of two links. -/
theorem turn {a b c : Shape n} (h : g.Carries o (.plug fs (.fork s (.fork s a q b) l c))) :
    ∃ g', g.rotate l s.other = .ok (q, g') ∧ g'.Carries o (.plug fs (.fork s a q (.fork s b l c))) ∧
      Edit g g' o .left (Shape.plug fs (.fork s (.fork s a q b) l c)).inorder ∧
      (g'.balance l, g'.balance q) = rotatedBalances s.other (g.balance l) (g.balance q) ∧
      ∀ k, k ≠ l → k ≠ q → g'.balance k = g.balance k := by
  have hroot : (Shape.fork s (.fork s a q b) l c).root? = some l := Shape.root?_fork _ _ l c
  have hinorder := Shape.inorder_fork_lifted s a b c q l
  obtain ⟨g', hrot, hedit, hspans, hpair, hrest⟩ :=
    rotate_fork (h.spans_at hroot) (h.sideOf_at hroot) h.nodup_at h.slotOf_not_mem
  refine ⟨g', hrot, ?_, h.widen hedit (fun k hk => hk), hpair, hrest⟩
  exact h.edit hedit (fun k hk => h.apart hk) hspans (hinorder ▸ h.nodup_at) (fun k hk => h.apart (hinorder ▸ hk))

end Carries

/--
Whether a rotation has lifted `q` above `l` at a place of a carried shape, between the outer subshape `a`, the
inner one `b` and the far one `c`.
-/
structure Lifts (g g' : Links α n) (o l q : LinkId n) (towards : Side) (fs : List (Frame n))
    (a b c : Shape n) : Prop where
  carries : g'.Carries o (.plug fs (.fork towards.other a q (.fork towards.other b l c)))
  inorder : (Shape.plug fs (.fork towards.other a q (.fork towards.other b l c))).inorder =
    (Shape.plug fs (.fork towards.other (.fork towards.other a q b) l c)).inorder
  rewires : ∃ p, g.parent l = some p ∧ g.child p (g.sideOf l) = some l ∧ g.Rewires g' p l q towards
  /-- The two balances stay exact, if balances can hold the differences of heights. -/
  exact : Shape.Recordable a b c →
    g.balance l = .finite (Shape.fork towards.other (.fork towards.other a q b) l c).tilt →
    g.balance q = .finite (Shape.fork towards.other a q b).tilt →
    g'.balance l = .finite (Shape.fork towards.other b l c).tilt ∧
      g'.balance q = .finite (Shape.fork towards.other a q (.fork towards.other b l c)).tilt
  recordable : n ≤ Number.exactLimit → Shape.Recordable a b c

/-- A rotation of a link at a place of a carried shape, with a child to lift. -/
theorem Carries.rotate {o l q : LinkId n} {towards : Side} {fs : List (Frame n)} {a b c : Shape n}
    (h : g.Carries o (.plug fs (.fork towards.other (.fork towards.other a q b) l c))) :
    ∃ g', g.rotate l towards = .ok (q, g') ∧ g.Lifts g' o l q towards fs a b c := by
  have hroot : (Shape.fork towards.other (.fork towards.other a q b) l c).root? = some l :=
    Shape.root?_fork _ _ l c
  have hslot : g.child (Shape.slotOf o fs).1 (g.sideOf l) = some l := by
    rw [h.sideOf_at hroot]
    exact h.at_place.slot_eq.trans hroot
  obtain ⟨g', hrot, hcarries, -, hpair, -⟩ := h.turn
  rw [Side.other_other] at hrot hpair
  refine ⟨g', hrot, hcarries, Shape.inorder_plug_congr fs (Shape.inorder_fork_lifted _ a b c q l),
    ⟨_, h.parent_at hroot, hslot, rewires_of_rotate hrot (h.parent_at hroot)⟩, ?_,
    Shape.recordable_of_nodup h.nodup_at⟩
  intro hrec hl hq
  have hbalances := rotatedBalances_eq (s := towards.other) (p := q) (l := l) hrec
  rw [Side.other_other, ← hl, ← hq, ← hpair, Prod.mk.injEq] at hbalances
  exact hbalances

/--
What a rotation of a link comes to. It stops before it has written anything where there is no child to lift or no
parent to hang it from, and it lifts the child wherever the link stands in a tree of any shape.
-/
structure Rotates (g : Links α n) (l : LinkId n) (towards : Side) : Prop where
  childless : g.child l towards.other = none → g.rotate l towards = .error .noRisingChild
  parentless : ∀ q, g.child l towards.other = some q → g.parent l = none →
    g.rotate l towards = .error .rotateWithoutParent
  lifts : ∀ o t q, g.Carries o t → l ∈ t.inorder → g.child l towards.other = some q →
    ∃ fs a b c g', t = .plug fs (.fork towards.other (.fork towards.other a q b) l c) ∧
      g.rotate l towards = .ok (q, g') ∧ g.Lifts g' o l q towards fs a b c

/-- Every link rotates so to either side, in any world. -/
theorem rotates (g : Links α n) (l : LinkId n) (towards : Side) : g.Rotates l towards where
  childless hchild := by
    unfold rotate
    rw [hchild]
  parentless q hchild hparent := by
    unfold rotate
    rw [hchild, hparent]
  lifts o t q h hl hq := by
    obtain ⟨fs, a, b, c, rfl⟩ := h.exists_fork_fork hl hq
    obtain ⟨g', hrot, hlifts⟩ := h.rotate
    exact ⟨fs, a, b, c, g', rfl, hrot, hlifts⟩

/-- Six links below an origin, far from balanced, each of which records how far. -/
def leaning : Links Nat 7 :=
  ⟨#v[{ owner := none, tag := "", parent := none, left := some 1, right := none, balance := .level },
    { owner := some 1, tag := "", parent := some 0, left := none, right := some 2, balance := 4 },
    { owner := some 2, tag := "", parent := some 1, left := none, right := some 4, balance := 3 },
    { owner := some 3, tag := "", parent := some 4, left := none, right := none, balance := .level },
    { owner := some 4, tag := "", parent := some 2, left := some 3, right := some 5, balance := 1 },
    { owner := some 5, tag := "", parent := some 4, left := none, right := some 6, balance := 1 },
    { owner := some 6, tag := "", parent := some 5, left := none, right := none, balance := .level }]⟩

def leaningShape : Shape 7 :=
  .node .empty 1 (.node .empty 2 (.node (.node .empty 3 .empty) 4 (.node .empty 5 (.node .empty 6 .empty))))

/-- The origin of `leaning` carries its six links. -/
theorem leaning_carries : leaning.Carries 0 leaningShape := by
  have hspans : leaning.Spans (leaning.child 0 .left) 0 leaningShape :=
    ⟨rfl, rfl, rfl, rfl, rfl, rfl, ⟨rfl, rfl, ⟨rfl, rfl, rfl, rfl⟩, ⟨rfl, rfl, rfl, rfl, rfl, rfl, rfl⟩⟩⟩
  exact ⟨hspans, by decide, by decide, rfl, rfl⟩

/-- The links of `leaning` with other balances at a link and at its child. -/
def leaningWith (x y : Balance) : Links Nat 7 :=
  (leaning.setBalance 2 x).setBalance 4 y

/-- The origin carries these links whatever the two balances are. -/
theorem leaningWith_carries (x y : Balance) : (leaningWith x y).Carries 0 leaningShape :=
  ((leaning_carries.setBalance (by decide) x).1.setBalance (by decide) y).1

/-- The second link rotates with exact balances; a leaf has no child to lift, and the origin no parent. -/
theorem rotates_leaning :
    leaning.rotate 3 .left = .error .noRisingChild ∧ leaning.rotate 0 .right = .error .rotateWithoutParent ∧
      ∃ fs a b c g', leaningShape = .plug fs (.fork .right (.fork .right a 4 b) 2 c) ∧
        leaning.rotate 2 .left = .ok (4, g') ∧ leaning.Lifts g' 0 2 4 .left fs a b c ∧
        (g'.balance 2, g'.balance 4) = (1, 0) ∧ (Shape.fork .right b 2 c).tilt = 1 ∧
        (Shape.fork .right a 4 (.fork .right b 2 c)).tilt = 0 := by
  refine ⟨(rotates leaning 3 .left).childless rfl, (rotates leaning 0 .right).parentless 1 rfl rfl, ?_⟩
  obtain ⟨fs, a, b, c, g', hshape, hrot, hlifts⟩ :=
    (rotates leaning 2 .left).lifts 0 leaningShape 4 leaning_carries (by decide) rfl
  have hrun : (leaning.rotate 2 .left).map (fun r => (r.2.balance 2, r.2.balance 4)) = .ok (1, 0) := by
    decide +kernel
  rw [hrot] at hrun
  have hnew : (g'.balance 2, g'.balance 4) = (1, 0) := Except.ok.inj hrun
  -- all balances are exact beforehand, so those of the two links are
  have hexact : leaning.Exact leaningShape :=
    ⟨rfl, trivial, rfl, trivial, rfl, ⟨rfl, trivial, trivial⟩, rfl, trivial, rfl, trivial, trivial⟩
  rw [hshape] at hexact
  obtain ⟨hl, hq, -⟩ := (exact_fork _ _ 2 c).mp ((exact_plug fs _).mp hexact).1
  obtain ⟨hl', hq'⟩ := hlifts.exact (hlifts.recordable (by decide)) hl ((exact_fork _ a 4 b).mp hq).1
  refine ⟨fs, a, b, c, g', hshape, hrot, hlifts, hnew, ?_, ?_⟩
  · rw [Prod.mk.injEq, hl'] at hnew
    exact Balance.finite.inj hnew.1
  · rw [Prod.mk.injEq, hq'] at hnew
    exact Balance.finite.inj hnew.2

end Links

end BalancedLinks
