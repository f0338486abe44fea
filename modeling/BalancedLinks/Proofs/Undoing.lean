import BalancedLinks.Proofs.Turning

/-!
# Opposite rotations

A rotation of a link and then, towards the other side, of the link that it lifted leave the shape what it was.
References follow from the shape, so that they come back whatever the balances are. Those of the two links
come back as long as no sum is rounded, whether or not they are differences of heights.

The main statement is `Links.Carries.cancels`; `Links.rotations_lose_overcounted` shows balances that are lost.
-/

set_option autoImplicit false

namespace BalancedLinks

namespace Links

variable {α : Type} {n : Nat} {g g' : Links α n}

/--
What two opposite rotations of `l` and of its child `q` leave of the links: all but the balances of these two, and
everything where no sum is rounded.
-/
structure Cancels (g g' : Links α n) (l q : LinkId n) (towards : Side) : Prop where
  owner : ∀ k, g'.owner k = g.owner k
  tag : ∀ k, g'.tag k = g.tag k
  parent : ∀ k, g'.parent k = g.parent k
  child : ∀ k s, g'.child k s = g.child k s
  balance : ∀ k, k ≠ l → k ≠ q → g'.balance k = g.balance k
  restored : ∀ a b, g.balance l = .finite a → g.balance q = .finite b → Unrounded towards a b → g' = g

namespace Carries

variable {o l q : LinkId n} {fs : List (Frame n)} {t : Shape n} {s : Side}

/-- Two opposite rotations at a place of a carried shape leave that shape. -/
theorem turn_back {a b c : Shape n} (h : g.Carries o (.plug fs (.fork s (.fork s a q b) l c))) :
    ∃ g₁ g₂, g.rotate l s.other = .ok (q, g₁) ∧ g₁.rotate q s = .ok (l, g₂) ∧
      g₂.Carries o (.plug fs (.fork s (.fork s a q b) l c)) ∧
      Edit g g₂ o .left (Shape.plug fs (.fork s (.fork s a q b) l c)).inorder ∧
      (g₁.balance l, g₁.balance q) = rotatedBalances s.other (g.balance l) (g.balance q) ∧
      (g₂.balance q, g₂.balance l) = rotatedBalances s (g₁.balance q) (g₁.balance l) ∧
      ∀ k, k ≠ l → k ≠ q → g₂.balance k = g.balance k := by
  obtain ⟨g₁, hrot₁, hcarries₁, hedit₁, hpair₁, hrest₁⟩ := h.turn
  -- seen from the other side, the link that was lifted is the one to be rotated
  have hseen : Shape.fork s a q (.fork s b l c) = .fork s.other (.fork s.other c l b) q a := by
    rw [Shape.fork_other, Shape.fork_other]
  rw [hseen] at hcarries₁
  obtain ⟨g₂, hrot₂, hcarries₂, hedit₂, hpair₂, hrest₂⟩ := hcarries₁.turn
  rw [Side.other_other] at hrot₂ hpair₂
  rw [Shape.fork_other, Shape.fork_other] at hcarries₂
  rw [← hseen, Shape.inorder_plug_congr fs (Shape.inorder_fork_lifted s a b c q l)] at hedit₂
  exact ⟨g₁, g₂, hrot₁, hrot₂, hcarries₂, hedit₁.trans hedit₂, hpair₁, hpair₂,
    fun k hkl hkq => (hrest₂ k hkq hkl).trans (hrest₁ k hkl hkq)⟩

/-- An edit of a carried shape that ends with the same shape has changed no reference. -/
theorem references_of_edit (h : g.Carries o t) (h' : g'.Carries o t) (hedit : Edit g g' o .left t.inorder)
    (k : LinkId n) : g'.parent k = g.parent k ∧ ∀ s, g'.child k s = g.child k s := by
  by_cases hk : k = o ∨ k ∈ t.inorder
  · exact h.references_eq h' hk
  · rw [not_or] at hk
    exact ⟨hedit.outside_parent hk.2, hedit.outside_child hk.1 hk.2⟩

/-- A rotation of a link with a child to lift, and the opposite one of that child, cancel. -/
theorem cancels {towards : Side} (h : g.Carries o t) (hl : l ∈ t.inorder) (hq : g.child l towards.other = some q) :
    ∃ g₁ g₂, g.rotate l towards = .ok (q, g₁) ∧ g₁.rotate q towards.other = .ok (l, g₂) ∧
      g.Cancels g₂ l q towards := by
  obtain ⟨fs, a, b, c, rfl⟩ := h.exists_fork_fork hl hq
  obtain ⟨g₁, g₂, hrot₁, hrot₂, hcarries, hedit, hpair₁, hpair₂, hrest⟩ := h.turn_back
  rw [Side.other_other] at hrot₁ hpair₁
  have href := h.references_of_edit hcarries hedit
  refine ⟨g₁, g₂, hrot₁, hrot₂, ?_⟩
  refine
    { owner := hedit.owner, tag := hedit.tag, parent := fun k => (href k).1, child := fun k => (href k).2
      balance := hrest, restored := ?_ }
  intro x y hx hy hunrounded
  rw [hx, hy, hunrounded.rotatedBalances_finite, Prod.mk.injEq] at hpair₁
  rw [hpair₁.1, hpair₁.2, hunrounded.back.rotatedBalances_finite, rotatedTilts_back, Prod.mk.injEq] at hpair₂
  ext k
  refine (get_eq_iff k).mpr ⟨hedit.owner k, hedit.tag k, (href k).1, (href k).2, ?_⟩
  by_cases hkl : k = l
  · rw [hkl, hx, hpair₂.2]
  by_cases hkq : k = q
  · rw [hkq, hy, hpair₂.1]
  · exact hrest k hkl hkq

end Carries

/-- Links of which two record what is no difference of heights there. -/
def crooked : Links Nat 7 :=
  leaningWith (.finite (-5)) (.finite 9)

/-- A rotation and the opposite one restore all of the links, wrong balances included. -/
theorem cancels_crooked :
    crooked.Carries 0 leaningShape ∧ ¬ crooked.Exact leaningShape ∧ Unrounded .left (-5) 9 ∧
      ∃ g, crooked.rotate 2 .left = .ok (4, g) ∧ (g.balance 2, g.balance 4) = (.finite (-15), .finite (-7)) ∧
        g.rotate 4 .right = .ok (2, crooked) := by
  have hcarries : crooked.Carries 0 leaningShape := leaningWith_carries _ _
  have hunrounded : Unrounded .left (-5) 9 := ⟨by decide, by decide, by decide, by decide⟩
  have hinexact : ¬ crooked.Exact leaningShape := by
    rintro ⟨-, -, hbalance, -⟩
    exact absurd hbalance (by decide +kernel)
  have hchild : crooked.child 2 (Side.left).other = some 4 := rfl
  obtain ⟨g₁, g₂, hrot₁, hrot₂, hcancels⟩ := hcarries.cancels (by decide) hchild
  obtain rfl : g₂ = crooked := hcancels.restored (-5) 9 rfl rfl hunrounded
  have hrun : (crooked.rotate 2 .left).map (fun r => (r.2.balance 2, r.2.balance 4)) =
      .ok (.finite (-15), .finite (-7)) := by
    decide +kernel
  rw [hrot₁] at hrun
  exact ⟨hcarries, hinexact, hunrounded, g₁, hrot₁, Except.ok.inj hrun, hrot₂⟩

/-- Links of which one records the last balance before sums are rounded, over a level child. -/
def overcounted : Links Nat 7 :=
  leaningWith (.finite (-9007199254740992)) .level

/--
From a balance of -2^53 the rotation to the left should lead to one less, which is no balance and is rounded up. The
rotation back then leaves two more than there was, and one more at the child.
-/
theorem rotations_lose_overcounted :
    overcounted.Carries 0 leaningShape ∧ overcounted.child 2 .right = some 4 ∧
      ∃ g₁ g₂, overcounted.rotate 2 .left = .ok (4, g₁) ∧ g₁.rotate 4 .right = .ok (2, g₂) ∧ g₂ ≠ overcounted ∧
        (overcounted.balance 2, overcounted.balance 4) = (.finite (-9007199254740992), .level) ∧
        (g₂.balance 2, g₂.balance 4) = (.finite (-9007199254740990), 1) := by
  have hcarries : overcounted.Carries 0 leaningShape := leaningWith_carries _ _
  obtain ⟨fs, a, b, c, hplace⟩ := hcarries.exists_fork_fork (l := 2) (q := 4) (s := .right) (by decide) rfl
  rw [hplace] at hcarries
  obtain ⟨g₁, g₂, hrot₁, hrot₂, -, -, hpair₁, hpair₂, -⟩ := hcarries.turn_back
  have hthere : rotatedBalances .left (overcounted.balance 2) (overcounted.balance 4) =
      (.finite (-9007199254740992), .finite (-9007199254740992)) := by
    decide +kernel
  have hback : rotatedBalances .right (.finite (-9007199254740992)) (.finite (-9007199254740992)) =
      (1, .finite (-9007199254740990)) := by
    decide +kernel
  rw [Side.other, hthere, Prod.mk.injEq] at hpair₁
  rw [hpair₁.1, hpair₁.2, hback, Prod.mk.injEq] at hpair₂
  refine ⟨hplace ▸ hcarries, rfl, g₁, g₂, hrot₁, hrot₂, ?_, rfl, by rw [hpair₂.1, hpair₂.2]⟩
  rintro rfl
  exact absurd hpair₂.1 (by decide +kernel)

end Links

end BalancedLinks
