import BalancedLinks.Rotation
import BalancedLinks.Proofs.Span

/-!
# Rotations on shapes

A rotation away from a side lifts the child on that side: it turns the spanned shape as `Shape.lifted` does,
touches no link outside that shape but the slot above it, and keeps exact balances exact. Over the integers the
law of balances is `rotatedTilts`, which the opposite rotation inverts; balances follow it where no sum is rounded.

The main statements are `Links.rotate_fork` for the references and `Links.exact_of_rotate_fork` for the
balances, which may be any integers whose sums are recorded without rounding.
-/

set_option autoImplicit false

namespace BalancedLinks

namespace Side

/-- The other side differs from the one given. -/
@[simp] theorem other_ne (s : Side) : s.other ≠ s := by
  cases s <;> simp [other]

/-- A side differs from the other one. -/
@[simp] theorem ne_other (s : Side) : s ≠ s.other := by
  cases s <;> simp [other]

end Side

/-! ## Balances -/

/-- Sums within the range of exact balances, by their value. -/
theorem Balance.finite_add_eq {x y z : Int} (hz : x + y = z) (h : z.natAbs ≤ Number.exactLimit) :
    (.finite x + .finite y : Balance) = .finite z := by
  subst hz
  exact finite_add_finite h

/-- Differences within the range of exact balances, by their value. -/
theorem Balance.finite_sub_eq {x y z : Int} (hz : x - y = z) (h : z.natAbs ≤ Number.exactLimit) :
    (.finite x - .finite y : Balance) = .finite z := by
  subst hz
  exact finite_sub_finite h

/--
The tilts of a link and of its lifted child after a rotation towards the given side, from those before it. This
is the law of `rotatedBalances` without any rounding.
-/
def rotatedTilts (towards : Side) (link pivot : Int) : Int × Int :=
  match towards with
  | .right =>
    let lowered := link + 1 - min pivot 0
    (lowered, pivot + 1 + max lowered 0)
  | .left =>
    let lowered := link - 1 - max pivot 0
    (lowered, pivot - 1 + min lowered 0)

/-- From differences of heights follow those after the rotation. -/
theorem rotatedTilts_tilt {n : Nat} (s : Side) (a b c : Shape n) (p l : LinkId n) :
    rotatedTilts s.other (Shape.fork s (.fork s a p b) l c).tilt (Shape.fork s a p b).tilt =
      ((Shape.fork s b l c).tilt, (Shape.fork s a p (.fork s b l c)).tilt) := by
  cases s
  · simp only [Side.other, Shape.fork, Shape.tilt, Shape.height, rotatedTilts, Prod.mk.injEq]
    omega
  · simp only [Side.other, Shape.fork, Shape.tilt, Shape.height, rotatedTilts, Prod.mk.injEq]
    omega

/-- A rotation back leads back from whatever integers, be they differences of heights or not. -/
theorem rotatedTilts_back (towards : Side) (a b : Int) :
    rotatedTilts towards.other (rotatedTilts towards a b).2 (rotatedTilts towards a b).1 = (b, a) := by
  cases towards
  · simp only [Side.other, rotatedTilts, Prod.mk.injEq]
    omega
  · simp only [Side.other, rotatedTilts, Prod.mk.injEq]
    omega

/--
Whether the tilts of a link and of its child, and those that a rotation makes of them, are in the range in which
sums are exact.
-/
structure Unrounded (towards : Side) (a b : Int) : Prop where
  link : a.natAbs ≤ Number.exactLimit
  pivot : b.natAbs ≤ Number.exactLimit
  lowered : (rotatedTilts towards a b).1.natAbs ≤ Number.exactLimit
  lifted : (rotatedTilts towards a b).2.natAbs ≤ Number.exactLimit

namespace Unrounded

variable {towards : Side} {a b : Int}

/-- The way back passes the same four tilts. -/
theorem back (h : Unrounded towards a b) :
    Unrounded towards.other (rotatedTilts towards a b).2 (rotatedTilts towards a b).1 := by
  have hback := rotatedTilts_back towards a b
  exact ⟨h.lifted, h.lowered, by rw [hback]; exact h.pivot, by rw [hback]; exact h.link⟩

/-- No sum that the rotation forms is rounded then, those on the way to its results included. -/
theorem rotatedBalances_finite (h : Unrounded towards a b) :
    rotatedBalances towards (.finite a) (.finite b) =
      (.finite (rotatedTilts towards a b).1, .finite (rotatedTilts towards a b).2) := by
  obtain ⟨ha, hb, hlowered, hlifted⟩ := h
  have hone : (1 : Balance) = .finite 1 := rfl
  cases towards
  · simp only [rotatedTilts] at hlowered hlifted
    simp only [rotatedBalances, rotatedTilts, hone, Balance.positivePart]
    rw [Balance.finite_sub_finite (a := a) (by omega), Balance.finite_sub_finite hlowered,
      Balance.finite_sub_finite (a := b) (by omega)]
    simp only [Balance.negativePart]
    rw [Balance.finite_add_finite hlifted]
  · simp only [rotatedTilts] at hlowered hlifted
    simp only [rotatedBalances, rotatedTilts, hone, Balance.negativePart]
    rw [Balance.finite_add_finite (a := a) (by omega), Balance.finite_sub_finite hlowered,
      Balance.finite_add_finite (a := b) (by omega)]
    simp only [Balance.positivePart]
    rw [Balance.finite_add_finite hlifted]

end Unrounded

/-- Whether the heights of the three subshapes that a rotation moves differ by little enough to be exact. -/
structure Shape.Recordable {n : Nat} (a b c : Shape n) : Prop where
  outer_inner : ((a.height : Int) - b.height).natAbs < Number.exactLimit
  inner_far : ((b.height : Int) - c.height).natAbs < Number.exactLimit
  outer_far : ((a.height : Int) - c.height).natAbs < Number.exactLimit

/-- From exact balances before a rotation follow exact balances after it. -/
theorem rotatedBalances_eq {n : Nat} {s : Side} {a b c : Shape n} {p l : LinkId n}
    (h : Shape.Recordable a b c) :
    rotatedBalances s.other (.finite (Shape.fork s (.fork s a p b) l c).tilt)
        (.finite (Shape.fork s a p b).tilt) =
      (.finite (Shape.fork s b l c).tilt, .finite (Shape.fork s a p (.fork s b l c)).tilt) := by
  have htilts := rotatedTilts_tilt s a b c p l
  have hunrounded : Unrounded s.other (Shape.fork s (.fork s a p b) l c).tilt (Shape.fork s a p b).tilt := by
    obtain ⟨hab, hbc, hac⟩ := h
    constructor
    all_goals
      simp only [htilts, Shape.natAbs_tilt_fork, Shape.height_fork]
      omega
  rw [hunrounded.rotatedBalances_finite, htilts]

namespace Links

variable {α : Type} {n : Nat} {g : Links α n}

/-! ## References -/

/-- A link hangs on the side of its parent where it is the child, unless it is the other child as well. -/
theorem sideOf_eq {l p : LinkId n} {s : Side} (hparent : g.parent l = some p) (hchild : g.child p s = some l)
    (hother : g.child p s.other ≠ some l) : g.sideOf l = s := by
  unfold sideOf isChild
  rw [hparent]
  cases s
  · simp only [Side.other] at hother
    simp [hother]
  · simp [hchild]

section Relinked

variable {p q l : LinkId n} {s s' : Side}

/-- A rotation exchanges the two links and hands the inner subtree over: three parents are written. -/
theorem parent_relinkRotated (k : LinkId n) :
    (g.relinkRotated l q p s').parent k =
      if q = k then some p else if l = k then some q
      else if g.child q s' = some k then some l else g.parent k := by
  simp [relinkRotated]

/-- A rotation writes the slot above and the inner slots of the two links. -/
theorem child_relinkRotated (hside : g.sideOf l = s) (k : LinkId n) (t : Side) :
    (g.relinkRotated l q p s').child k t =
      if p = k ∧ s = t then some q else if q = k ∧ s' = t then some l
      else if l = k ∧ s'.other = t then g.child q s' else g.child k t := by
  simp [relinkRotated, hside]

/-- Linking anew writes no balance. -/
theorem balance_relinkRotated (k : LinkId n) : (g.relinkRotated l q p s').balance k = g.balance k := by
  simp [relinkRotated]

/-- Linking anew touches the slot above and the links at the place. -/
theorem edit_relinkRotated {ls : List (LinkId n)} (hside : g.sideOf l = s) (hp : p ∉ ls) (hl : l ∈ ls)
    (hq : q ∈ ls) (hinner : ∀ k, g.child q s' = some k → k ∈ ls) :
    Edit g (g.relinkRotated l q p s') p s ls := by
  have hpl : l ≠ p := fun heq => hp (heq ▸ hl)
  have hpq : q ≠ p := fun heq => hp (heq ▸ hq)
  have hpi : g.child q s' ≠ some p := fun heq => hp (hinner p heq)
  refine ⟨?_, ?_, ?_, ?_, ?_, balance_relinkRotated p⟩
  · simp [relinkRotated]
  · simp [relinkRotated]
  · intro k hkp hk
    have hkl : l ≠ k := fun heq => hk (heq ▸ hl)
    have hkq : q ≠ k := fun heq => hk (heq ▸ hq)
    have hki : g.child q s' ≠ some k := fun heq => hk (hinner k heq)
    refine (get_eq_iff k).mpr ⟨by simp [relinkRotated], by simp [relinkRotated], ?_, ?_,
      balance_relinkRotated k⟩
    · rw [parent_relinkRotated, if_neg hkq, if_neg hkl, if_neg hki]
    · intro t
      rw [child_relinkRotated hside, if_neg (fun h => hkp h.1.symm), if_neg (fun h => hkq h.1),
        if_neg (fun h => hkl h.1)]
  · rw [parent_relinkRotated, if_neg hpq, if_neg hpl, if_neg hpi]
  · rw [child_relinkRotated hside, if_neg (fun h => s.ne_other h.2), if_neg (fun h => hpq h.1),
      if_neg (fun h => hpl h.1)]

/-- A link that is neither of the two nor the inner child of the lifted one keeps its parent. -/
theorem parent_relinkRotated_of_ne {k : LinkId n} (hkl : k ≠ l) (hkq : k ≠ q) (hinner : g.child q s' ≠ some k) :
    (g.relinkRotated l q p s').parent k = g.parent k := by
  rw [parent_relinkRotated, if_neg hkq.symm, if_neg hkl.symm, if_neg hinner]

/-- A link that is neither of the two nor the parent that they hang from keeps its children. -/
theorem child_relinkRotated_of_ne {k : LinkId n} (hkp : k ≠ p) (hkl : k ≠ l) (hkq : k ≠ q) (t : Side) :
    (g.relinkRotated l q p s').child k t = g.child k t := by
  rw [child_relinkRotated rfl, if_neg (fun h => hkp h.1.symm), if_neg (fun h => hkq h.1.symm),
    if_neg (fun h => hkl h.1.symm)]

end Relinked

section Rebalanced

variable {p q l : LinkId n} {s s' : Side}

/-- Balancing anew writes no parent. -/
@[simp] theorem parent_rebalanceRotated (k : LinkId n) :
    (g.rebalanceRotated l q s').parent k = g.parent k := by
  simp [rebalanceRotated]

/-- Balancing anew writes no child. -/
@[simp] theorem child_rebalanceRotated (k : LinkId n) (t : Side) :
    (g.rebalanceRotated l q s').child k t = g.child k t := by
  simp [rebalanceRotated]

/-- Balancing anew writes no balance but those of the two links. -/
theorem balance_rebalanceRotated_of_ne {k : LinkId n} (hkl : k ≠ l) (hkq : k ≠ q) :
    (g.rebalanceRotated l q s').balance k = g.balance k := by
  simp [rebalanceRotated, hkl.symm, hkq.symm]

/-- The two links get the balances that the rotation computes from their old ones. -/
theorem balances_rebalanceRotated (hlq : l ≠ q) :
    ((g.rebalanceRotated l q s').balance l, (g.rebalanceRotated l q s').balance q) =
      rotatedBalances s' (g.balance l) (g.balance q) := by
  simp [rebalanceRotated, hlq.symm]

/-- Balancing anew touches the two links alone. -/
theorem edit_rebalanceRotated {ls : List (LinkId n)} (hp : p ∉ ls) (hl : l ∈ ls) (hq : q ∈ ls) :
    Edit g (g.rebalanceRotated l q s') p s ls :=
  (edit_setBalance _ hl hp).trans (edit_setBalance _ hq hp)

end Rebalanced

section Fork

variable {s s' : Side} {p q l : LinkId n} {a b c : Shape n}

/-- The child on the inner side of the lifted one is a link of the inner subshape. -/
theorem Spans.inner_mem (h : g.Spans (some l) p (.fork s (.fork s a q b) l c)) {k : LinkId n}
    (hk : g.child q s.other = some k) : k ∈ b.inorder := by
  obtain ⟨-, -, hpivot, -⟩ := (spans_fork s _ p l _ c).mp h
  obtain ⟨-, -, -, hb⟩ := (spans_fork s _ l q a b).mp hpivot
  exact Shape.root?_mem (hb.slot_eq ▸ hk)

/--
The references turn the spanned shape. The three subshapes that are moved are the old ones, and only the inner
one of them hangs from another link than before.
-/
theorem spans_relinkRotated (h : g.Spans (some l) p (.fork s (.fork s a q b) l c)) (hside : g.sideOf l = s')
    (hnodup : (Shape.fork s (.fork s a q b) l c).inorder.Nodup)
    (hp : p ∉ (Shape.fork s (.fork s a q b) l c).inorder) :
    (g.relinkRotated l q p s.other).Spans ((g.relinkRotated l q p s.other).child p s') p
      (.fork s a q (.fork s b l c)) := by
  have hinner : ∀ k, g.child q s.other = some k → k ∈ b.inorder := fun k hk => h.inner_mem hk
  obtain ⟨-, -, hpivot, hc⟩ := (spans_fork s _ p l _ c).mp h
  obtain ⟨-, -, ha, hb⟩ := (spans_fork s _ l q a b).mp hpivot
  obtain ⟨hlq, hlc, hndq, -, hqc⟩ := (Shape.nodup_inorder_fork s _ l c).mp hnodup
  obtain ⟨hqa, hqb, -, hndb, hab⟩ := (Shape.nodup_inorder_fork s a q b).mp hndq
  simp only [Shape.mem_inorder_fork, not_or] at hp hlq hqc
  obtain ⟨hpl, ⟨hpq, hpa, hpb⟩, hpc⟩ := hp
  obtain ⟨hlqne, hla, hlb⟩ := hlq
  have hqc' : q ∉ c.inorder := hqc q (Or.inl rfl)
  have hsame : ∀ t : Shape n, p ∉ t.inorder → l ∉ t.inorder → q ∉ t.inorder → ∀ k ∈ t.inorder, ∀ s₀,
      (g.relinkRotated l q p s.other).child k s₀ = g.child k s₀ := fun t hpt hlt hqt k hk =>
    child_relinkRotated_of_ne (ne_of_mem_of_not_mem hk hpt) (ne_of_mem_of_not_mem hk hlt)
      (ne_of_mem_of_not_mem hk hqt)
  have hup : ∀ t : Shape n, l ∉ t.inorder → q ∉ t.inorder → (∀ k ∈ t.inorder, k ∉ b.inorder) →
      ∀ k ∈ t.inorder, (g.relinkRotated l q p s.other).parent k = g.parent k := fun t hlt hqt hbt k hk =>
    parent_relinkRotated_of_ne (ne_of_mem_of_not_mem hk hlt) (ne_of_mem_of_not_mem hk hqt)
      (fun heq => hbt k hk (hinner k heq))
  rw [spans_fork, spans_fork]
  refine ⟨?_, ?_, ?_, ?_, ?_, ?_, ?_⟩
  · rw [child_relinkRotated hside, if_pos ⟨rfl, rfl⟩]
  · rw [parent_relinkRotated, if_pos rfl]
  · rw [child_relinkRotated hside, if_neg (fun h => hpq h.1), if_neg (fun h => s.other_ne h.2),
      if_neg (fun h => hlqne h.1)]
    exact ha.congr (hup a hla hqa hab) (hsame a hpa hla hqa)
  · rw [child_relinkRotated hside, if_neg (fun h => hpq h.1), if_pos ⟨rfl, rfl⟩]
  · rw [parent_relinkRotated, if_neg (Ne.symm hlqne), if_pos rfl]
  · rw [child_relinkRotated hside, if_neg (fun h => hpl h.1), if_neg (fun h => hlqne h.1.symm),
      if_pos ⟨rfl, by simp⟩]
    refine hb.move hndb (fun k hk => ?_) (hsame b hpb hlb hqb)
    rw [parent_relinkRotated, if_neg (ne_of_mem_of_not_mem hk hqb).symm,
      if_neg (ne_of_mem_of_not_mem hk hlb).symm]
  · rw [child_relinkRotated hside, if_neg (fun h => hpl h.1), if_neg (fun h => hlqne h.1.symm),
      if_neg (fun h => s.other_ne (by simpa using h.2))]
    exact hc.congr (hup c hlc hqc' (fun k hk hkb => hqc k (Or.inr (Or.inr hkb)) hk)) (hsame c hpc hlc hqc')

/--
A rotation away from a side turns the spanned shape: the child on that side is lifted. The balances of the
two links follow from their old ones.
-/
theorem rotate_fork (h : g.Spans (some l) p (.fork s (.fork s a q b) l c)) (hside : g.sideOf l = s')
    (hnodup : (Shape.fork s (.fork s a q b) l c).inorder.Nodup)
    (hp : p ∉ (Shape.fork s (.fork s a q b) l c).inorder) :
    ∃ g', g.rotate l s.other = .ok (q, g') ∧
      Edit g g' p s' (Shape.fork s (.fork s a q b) l c).inorder ∧
      g'.Spans (g'.child p s') p (.fork s a q (.fork s b l c)) ∧
      (g'.balance l, g'.balance q) = rotatedBalances s.other (g.balance l) (g.balance q) ∧
      ∀ k, k ≠ l → k ≠ q → g'.balance k = g.balance k := by
  obtain ⟨-, hlp, hpivot, -⟩ := (spans_fork s _ p l _ c).mp h
  have hchild : g.child l s = some q := ((spans_fork s _ l q a b).mp hpivot).1
  have hlq : l ≠ q := by
    rintro rfl
    exact ((Shape.nodup_inorder_fork s _ l c).mp hnodup).1 (by simp)
  have hlmem : l ∈ (Shape.fork s (.fork s a q b) l c).inorder := by simp
  have hqmem : q ∈ (Shape.fork s (.fork s a q b) l c).inorder := by simp
  have hinner : ∀ k, g.child q s.other = some k → k ∈ (Shape.fork s (.fork s a q b) l c).inorder := by
    intro k hk
    simp [h.inner_mem hk]
  refine ⟨(g.relinkRotated l q p s.other).rebalanceRotated l q s.other, ?_, ?_, ?_, ?_, ?_⟩
  · simp only [rotate, Side.other_other, hchild, hlp]
  · exact (edit_relinkRotated hside hp hlmem hqmem hinner).trans (edit_rebalanceRotated hp hlmem hqmem)
  · rw [child_rebalanceRotated]
    exact (spans_relinkRotated h hside hnodup hp).congr (fun k _ => parent_rebalanceRotated k)
      (fun k _ t => child_rebalanceRotated k t)
  · rw [balances_rebalanceRotated hlq, balance_relinkRotated, balance_relinkRotated]
  · intro k hkl hkq
    rw [balance_rebalanceRotated_of_ne hkl hkq, balance_relinkRotated]

end Fork

/--
A rotation of exactly recorded links leaves them exactly recorded, whatever the heights, as long as the
differences are recorded without rounding.
-/
theorem exact_of_rotate_fork {s s' : Side} {p q l : LinkId n} {a b c : Shape n}
    (h : g.Spans (some l) p (.fork s (.fork s a q b) l c)) (hside : g.sideOf l = s')
    (hnodup : (Shape.fork s (.fork s a q b) l c).inorder.Nodup)
    (hp : p ∉ (Shape.fork s (.fork s a q b) l c).inorder)
    (hexact : g.Exact (.fork s (.fork s a q b) l c)) (hrec : Shape.Recordable a b c) :
    ∃ g', g.rotate l s.other = .ok (q, g') ∧
      Edit g g' p s' (Shape.fork s (.fork s a q b) l c).inorder ∧
      g'.Spans (g'.child p s') p (.fork s a q (.fork s b l c)) ∧
      g'.Exact (.fork s a q (.fork s b l c)) := by
  obtain ⟨g', hrot, hedit, hspans, hpair, hrest⟩ := rotate_fork h hside hnodup hp
  refine ⟨g', hrot, hedit, hspans, ?_⟩
  obtain ⟨hlq, hlc, hndq, -, hqc⟩ := (Shape.nodup_inorder_fork s _ l c).mp hnodup
  obtain ⟨hqa, hqb, -⟩ := (Shape.nodup_inorder_fork s a q b).mp hndq
  simp only [Shape.mem_inorder_fork, not_or] at hlq hqc
  obtain ⟨hl, hq, hc⟩ := (exact_fork s _ l c).mp hexact
  obtain ⟨hq, ha, hb⟩ := (exact_fork s a q b).mp hq
  rw [hl, hq, rotatedBalances_eq hrec, Prod.mk.injEq] at hpair
  have hkeep : ∀ t : Shape n, l ∉ t.inorder → q ∉ t.inorder → g.Exact t → g'.Exact t :=
    fun t hlt hqt ht => ht.congr fun k hk =>
      hrest k (fun heq => hlt (heq ▸ hk)) (fun heq => hqt (heq ▸ hk))
  exact (exact_fork s a q _).mpr ⟨hpair.2, hkeep a hlq.2.1 hqa ha,
    (exact_fork s b l c).mpr ⟨hpair.1, hkeep b hlq.2.2 hqb hb, hkeep c hlc (hqc q (Or.inl rfl)) hc⟩⟩

end Links

end BalancedLinks
