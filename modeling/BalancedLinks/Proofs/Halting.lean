import BalancedLinks.Proofs.Checking
import BalancedLinks.Proofs.Stepping
import BalancedLinks.Proofs.Verifier
import Mathlib.Data.List.Chain

/-!
# The full check comes to an end

Neither part of the full check keeps a record of where it has been, and the links may refer to each other in any way.
Measuring ends because it goes on below a link only if the link refers back to where it came from: the way down is a
way up read backwards, and on a way up to the origin no link comes twice. The walk over what measuring has accepted
ends because it goes through each link once at most: a link with one link as both of its children is passed by, since
the way up from its child arrives from the right.

The main statement is `LinkedTree.comesToVerdict`.
-/

set_option autoImplicit false

namespace BalancedLinks

namespace Shape

variable {n : Nat}

/-- The links that a walk forward goes through: all but those with one link as both of their children. -/
def passed : Shape n → List (LinkId n)
  | .empty => []
  | .node a l b => if a ≠ .empty ∧ a.root? = b.root? then b.passed else a.passed ++ l :: b.passed

/-- A walk goes through links of the shape only. -/
theorem mem_of_mem_passed {t : Shape n} {k : LinkId n} (h : k ∈ t.passed) : k ∈ t.inorder := by
  induction t with
  | empty => exact h
  | node a l b iha ihb =>
    rw [mem_inorder_node]
    unfold passed at h
    split_ifs at h with hshared
    · exact Or.inr (Or.inr (ihb h))
    · rcases List.mem_append.mp h with h | h
      · exact Or.inr (Or.inl (iha h))
      · rcases List.mem_cons.mp h with rfl | h
        · exact Or.inl rfl
        · exact Or.inr (Or.inr (ihb h))

end Shape

/-- Whether a check comes to a verdict: it accepts, or it finds an inconsistency of the links. -/
def HasVerdict {β : Type} (result : Except Failure β) : Prop :=
  (∃ b, result = .ok b) ∨ LinkedTree.IsInconsistency result

namespace Links

variable {α : Type} {n : Nat} {g : Links α n} {slot : Option (LinkId n)} {o p : LinkId n} {d : Nat} {t : Shape n}

/-! ## Depth -/

/-- The link that is reached by going up the given number of times. -/
def climb (g : Links α n) : Nat → LinkId n → Option (LinkId n)
  | 0, l => some l
  | k + 1, l => (g.parent l).bind (climb g k)

/-- To go up twice is to go up once for both. -/
theorem climb_add (i j : Nat) (l : LinkId n) : g.climb (i + j) l = (g.climb i l).bind (g.climb j) := by
  induction i generalizing l with
  | zero => simp [climb]
  | succ i ih =>
    rw [Nat.succ_add, climb, climb]
    cases g.parent l with
    | none => rfl
    | some p => exact ih p

/-- A link lies at one depth only below a link without a parent. -/
theorem climb_unique {o l : LinkId n} {i j : Nat} (ho : g.parent o = none) (hi : g.climb i l = some o)
    (hj : g.climb j l = some o) : i = j := by
  have hle : ∀ {i j : Nat}, g.climb i l = some o → g.climb j l = some o → ¬ i < j := by
    intro i j hi hj hlt
    obtain ⟨d, rfl⟩ : ∃ d, j = i + (d + 1) := ⟨j - i - 1, by omega⟩
    rw [climb_add, hi, Option.bind_some, climb, ho] at hj
    cases hj
  exact Nat.le_antisymm (Nat.not_lt.mp (hle hj hi)) (Nat.not_lt.mp (hle hi hj))

/-- No link comes twice on a way up that ends, so the way is shorter than there are links. -/
theorem climb_lt (h : g.climb d p = some o) (ho : g.parent o = none) : d < n := by
  have hup : ∀ i : Fin (d + 1), ∃ l, g.climb i p = some l ∧ g.climb (d - i) l = some o := by
    intro i
    have hsplit : g.climb (i + (d - i)) p = some o := by
      rw [Nat.add_sub_cancel' (Nat.le_of_lt_succ i.isLt), h]
    rw [climb_add] at hsplit
    exact Option.bind_eq_some_iff.mp hsplit
  choose way hway htop using hup
  have hinjective : Function.Injective way := by
    intro i j hij
    have htop' := htop j
    rw [← hij] at htop'
    have hdepth := climb_unique ho (htop i) htop'
    apply Fin.ext
    omega
  have hcard := Fintype.card_le_of_injective way hinjective
  simp only [Fintype.card_fin] at hcard
  omega

/-- The topmost link of a shape is one level below the link that the shape hangs from. -/
theorem Spans.climb_root (h : g.Spans slot p t) (hd : g.climb d p = some o) {r : LinkId n}
    (hr : t.root? = some r) : g.parent r = some p ∧ g.climb (d + 1) r = some o := by
  cases t with
  | empty => cases hr
  | node a l b =>
    obtain rfl : l = r := Option.some.inj hr
    obtain ⟨-, hparent, -⟩ := h
    exact ⟨hparent, by rw [climb, hparent, Option.bind_some, hd]⟩

/-- Where the way up comes to a link without a parent, a shape is no higher than the links that are left. -/
theorem Spans.height_lt (h : g.Spans slot p t) (hd : g.climb d p = some o) (ho : g.parent o = none) :
    d + t.height < n := by
  induction t generalizing slot p d with
  | empty => exact climb_lt hd ho
  | node a l b iha ihb =>
    have hdl := (h.climb_root hd rfl).2
    obtain ⟨-, -, ha, hb⟩ := h
    have hleft := iha ha hdl
    have hright := ihb hb hdl
    rw [Shape.height]
    omega

/-! ## Measuring -/

/-- What is found about the place of a link is an inconsistency. -/
theorem cls_of_misplaced? {tag : String} {l : LinkId n} {cause : Violation}
    (h : g.misplaced? tag o l p = some cause) : cause.cls = .invariantViolation := by
  unfold misplaced? at h
  split_ifs at h
  all_goals
    obtain rfl := Option.some.inj h
    rfl

/-- What is found about a balance is an inconsistency. -/
theorem cls_of_misbalanced? {recorded : Balance} {actual : Int} {cause : Violation}
    (h : misbalanced? recorded actual = some cause) : cause.cls = .invariantViolation := by
  unfold misbalanced? at h
  split_ifs at h
  all_goals
    obtain rfl := Option.some.inj h
    rfl

/-- Measuring comes to a verdict within as many levels as there are links that the way down has not met. -/
theorem measureWithin_hasVerdict {tag : String} {k : Nat} (hd : g.climb d p = some o) (ho : g.parent o = none)
    (hk : n ≤ k + d) : HasVerdict (g.measureWithin tag o k slot p) := by
  induction k generalizing slot p d with
  | zero =>
    have hlt := climb_lt hd ho
    omega
  | succ k ih =>
    cases slot with
    | none => exact Or.inl ⟨_, rfl⟩
    | some l =>
      simp only [measureWithin]
      cases hplace : g.misplaced? tag o l p with
      | some cause => exact Or.inr ⟨cause, rfl, cls_of_misplaced? hplace⟩
      | none =>
        have hdl : g.climb (d + 1) l = some o := by
          rw [climb, (misplaced?_eq_none hplace).1, Option.bind_some, hd]
        have hbelow : ∀ s, HasVerdict (g.measureWithin tag o k (g.child l s) l) :=
          fun s => ih hdl (by omega)
        rcases hbelow .left with ⟨left, hleft⟩ | ⟨cause, hleft, hcls⟩
        · rcases hbelow .right with ⟨right, hright⟩ | ⟨cause, hright, hcls⟩
          · simp only [hleft, hright]
            cases hbalance : misbalanced? (g.balance l) (right.height - left.height) with
            | some cause => exact Or.inr ⟨cause, rfl, cls_of_misbalanced? hbalance⟩
            | none => exact Or.inl ⟨_, rfl⟩
          · simp only [hleft, hright]
            exact Or.inr ⟨cause, rfl, hcls⟩
        · simp only [hleft]
          exact Or.inr ⟨cause, rfl, hcls⟩

/-! ## Walking -/

/-- A walk begins with the first link of the shape, shared children or not. -/
theorem Spans.head?_passed (h : g.Spans slot p t) : t.passed.head? = t.inorder.head? := by
  induction t generalizing slot p with
  | empty => rfl
  | node a l b iha ihb =>
    obtain ⟨-, -, ha, hb⟩ := h
    unfold Shape.passed
    split_ifs with hshared
    · -- both children are one link, so what hangs below them is the same
      have hsame : g.Spans (g.child l .left) l b := by
        have hslots : g.child l .left = g.child l .right := by rw [ha.slot_eq, hb.slot_eq, hshared.2]
        rw [hslots]
        exact hb
      obtain rfl := ha.unique hsame
      obtain ⟨r, hr⟩ := Shape.exists_root? hshared.1
      obtain ⟨x, hx⟩ := Shape.exists_head?_linksTowards .right hr
      have hfirst : a.inorder.head? = some x := hx
      rw [ihb hb, Shape.inorder, List.head?_append, hfirst, Option.some_or]
    · rw [Shape.inorder, List.head?_append, List.head?_append, iha ha]
      rfl

/-- A walk goes through no link twice, even where shared children make the shape repeat it. -/
theorem Spans.nodup_passed (h : g.Spans slot p t) : t.passed.Nodup := by
  induction t generalizing slot p with
  | empty => exact List.nodup_nil
  | node a l b iha ihb =>
    obtain ⟨-, -, ha, hb⟩ := h
    unfold Shape.passed
    split_ifs with hshared
    · exact ihb hb
    · have hla : l ∉ a.passed := fun hl => ha.not_mem (Shape.mem_of_mem_passed hl)
      have hlb : l ∉ b.passed := fun hl => hb.not_mem (Shape.mem_of_mem_passed hl)
      have happart : ∀ k ∈ a.passed, k ∉ b.passed := by
        intro k hka hkb
        have hka := Shape.mem_of_mem_passed hka
        have hslots := ha.child_eq_of_mem hb hka (Shape.mem_of_mem_passed hkb)
        apply hshared
        refine ⟨?_, by rw [← ha.slot_eq, ← hb.slot_eq, hslots]⟩
        rintro rfl
        simp [Shape.inorder] at hka
      refine List.nodup_append.mpr ⟨iha ha, List.nodup_cons.mpr ⟨hlb, ihb hb⟩, ?_⟩
      rintro k hk k' hk' rfl
      rcases List.mem_cons.mp hk' with rfl | hk'
      · exact hla hk
      · exact happart k hk hk'

/--
A walk forward goes through the links that are passed, and then to where the way up from the topmost link turns. The
induction is on the shape; what a subshape needs to know of its surroundings is only where that is.
-/
theorem Spans.isChain_passed {e : LinkId n} (h : g.Spans slot p t) (hd : g.climb d p = some o)
    (ho : g.parent o = none)
    (hturn : ∀ r, t.root? = some r → ∀ k, d + 1 < k → g.ascendWithin .right k r = some e) :
    List.IsChain (fun i j => g.successor i = some j) (t.passed ++ [e]) := by
  induction t generalizing slot p d e with
  | empty => simp [Shape.passed]
  | node a l b iha ihb =>
    obtain ⟨hparent, hdl⟩ := h.climb_root hd rfl
    obtain ⟨-, -, ha, hb⟩ := h
    have hup := hturn l rfl
    have hright : List.IsChain (fun i j => g.successor i = some j) (b.passed ++ [e]) := by
      apply ihb hb hdl
      intro r hr k hk
      obtain ⟨k, rfl⟩ : ∃ i, k = i + 1 := ⟨k - 1, by omega⟩
      simp only [ascendWithin, (hb.climb_root hdl hr).1]
      rw [if_pos (hb.slot_eq.trans hr)]
      exact hup k (by omega)
    unfold Shape.passed
    split_ifs with hshared
    · exact hright
    · have hleft : List.IsChain (fun i j => g.successor i = some j) (a.passed ++ [l]) := by
        apply iha ha hdl
        intro r hr k hk
        obtain ⟨k, rfl⟩ : ∃ i, k = i + 1 := ⟨k - 1, by omega⟩
        have happart : g.child l .right ≠ some r := by
          intro hboth
          apply hshared
          refine ⟨?_, hr.trans (hb.slot_eq.symm.trans hboth).symm⟩
          rintro rfl
          cases hr
        simp only [ascendWithin, (ha.climb_root hdl hr).1]
        rw [if_neg happart]
      have hnext : g.successor l = some (b.passed.head?.getD e) := by
        rw [hb.head?_passed, successor, if_neg (by simp [isOrigin, hparent])]
        simp only [neighbour, hb.slot_eq]
        cases hr : b.root? with
        | none =>
          rw [Shape.root?_eq_none_iff] at hr
          subst hr
          exact hup n (climb_lt hdl ho)
        | some r =>
          have hheight := hb.height_lt hdl ho
          have hdown : g.outermost r .left = b.inorder.head? := descendWithin_eq hb hr (by omega)
          obtain ⟨x, hx⟩ := Shape.exists_head?_linksTowards .right hr
          have hfirst : b.inorder.head? = some x := hx
          simp only [Side.other, hdown, hfirst, Option.getD_some]
      rw [List.append_assoc, List.cons_append, List.isChain_split]
      refine ⟨hleft, List.isChain_cons.mpr ⟨?_, hright⟩⟩
      intro y hy
      have hhead : (b.passed ++ [e]).head? = some (b.passed.head?.getD e) := by
        cases b.passed <;> rfl
      rw [hhead] at hy
      obtain rfl := Option.some.inj hy
      exact hnext

end Links

namespace LinkedTree

variable {α : Type} {n : Nat}

/-- What measuring has accepted is walked through. -/
theorem exists_passes (x : LinkedTree α n) (hparent : x.links.parent x.origin = none)
    (hright : x.links.child x.origin .right = none) {e : Extent}
    (h : x.links.measure x.tree.tag x.origin = .ok e) : ∃ ls, x.Passes .right ls := by
  obtain ⟨t, hspans, howned, hfresh, -⟩ := Links.measureWithin_ok h
  have hchain : List.IsChain (fun i j => x.links.successor i = some j) (t.passed ++ [x.origin]) := by
    apply hspans.isChain_passed (d := 0) rfl hparent
    intro r hr k hk
    obtain ⟨k, rfl⟩ : ∃ i, k = i + 1 := ⟨k - 1, by omega⟩
    simp only [Links.ascendWithin, (hspans.climb_root (d := 0) rfl hr).1]
    rw [if_neg (by simp [hright])]
  refine ⟨t.passed, ?_, ?_, hspans.nodup_passed, ?_, ?_⟩
  · rw [hspans.head?_passed]
    apply hspans.outermost_above
    have hheight := hspans.height_lt (d := 0) rfl hparent
    omega
  · rintro xs l ys hsplit
    rw [hsplit, List.append_assoc, List.cons_append, List.isChain_split] at hchain
    have hhead : (ys ++ [x.origin]).head? = some (ys.head?.getD x.origin) := by
      cases ys <;> rfl
    exact (List.isChain_cons.mp hchain.2).1 _ (by rw [hhead]; rfl)
  · exact fun ho => hfresh (Shape.mem_of_mem_passed ho)
  · exact fun l hl => (howned l (Shape.mem_of_mem_passed hl)).1

/--
How the full check of a tree comes to an end. Measuring comes to a verdict. If it accepts, the walk forward comes to
the end of the tree in fewer steps than there are links, and so the listing of the elements is finite. The whole
check comes to a verdict, for any order or none.
-/
structure ComesToVerdict (x : LinkedTree α n) : Prop where
  measured : x.links.parent x.origin = none → HasVerdict (x.links.measure x.tree.tag x.origin)
  walked : x.links.parent x.origin = none → x.links.child x.origin .right = none →
    ∀ e, x.links.measure x.tree.tag x.origin = .ok e →
      (∃ k < n, x.beginCursor.bind (Cursor.steps x.links .right k) = .ok x.endCursor) ∧ ∃ as, x.toList = .ok as
  verified : ∀ order, HasVerdict (x.verify order)

/-- The full check of any links at all comes to an end. -/
theorem comesToVerdict (x : LinkedTree α n) : x.ComesToVerdict := by
  have hmeasured : x.links.parent x.origin = none → HasVerdict (x.links.measure x.tree.tag x.origin) :=
    fun hparent => Links.measureWithin_hasVerdict (d := 0) rfl hparent (Nat.le_refl n)
  refine ⟨hmeasured, ?walked, ?verified⟩
  case walked =>
    intro hparent hright e hmeasure
    obtain ⟨ls, hpasses⟩ := x.exists_passes hparent hright hmeasure
    have hstay : x.links.successor x.origin = some x.origin := Links.successor_of_parent_none hparent
    refine ⟨⟨ls.length, hpasses.length_lt, ?_⟩, _, hpasses.collect_eq⟩
    rw [hpasses.forward_eq hstay, List.getElem?_eq_none (Nat.le_refl _)]
    rfl
  case verified =>
    intro order
    rw [verify_eq]
    split_ifs with howner hreferences
    · exact Or.inr ⟨_, rfl, rfl⟩
    · exact Or.inr ⟨_, rfl, rfl⟩
    rw [Bool.or_eq_true, not_or] at hreferences
    have hparent : x.links.parent x.origin = none := by simpa using hreferences.1
    have hright : x.links.child x.origin .right = none := by simpa using hreferences.2
    rcases hmeasured hparent with ⟨e, hmeasure⟩ | ⟨cause, hmeasure, hcls⟩
    · simp only [hmeasure]
      split_ifs
      · exact Or.inr ⟨_, rfl, rfl⟩
      cases order with
      | none => exact Or.inl ⟨_, rfl⟩
      | some f =>
        obtain ⟨ls, hpasses⟩ := x.exists_passes hparent hright hmeasure
        simp only [hpasses.checkIncreasing_eq]
        split_ifs
        · exact Or.inl ⟨_, rfl⟩
        · exact Or.inr ⟨_, rfl, rfl⟩
    · simp only [hmeasure]
      exact Or.inr ⟨cause, rfl, hcls⟩

/-- Links that are no tree, with one link as both children of another, are accepted and walked through all the same. -/
theorem comesToVerdict_forked :
    (forked 3).links.measure (forked 3).tree.tag (forked 3).origin = .ok ⟨2, 3⟩ ∧
    (∃ k < 4, (forked 3).beginCursor.bind (Cursor.steps (forked 3).links .right k) = .ok (forked 3).endCursor) ∧
    (∃ as, (forked 3).toList = .ok as) ∧ HasVerdict ((forked 3).verify (some compare)) := by
  have hmeasure : (forked 3).links.measure (forked 3).tree.tag (forked 3).origin = .ok ⟨2, 3⟩ := by
    decide +kernel
  obtain ⟨hsteps, hlist⟩ := (comesToVerdict (forked 3)).walked rfl rfl _ hmeasure
  exact ⟨hmeasure, hsteps, hlist, (comesToVerdict (forked 3)).verified (some compare)⟩

end LinkedTree

end BalancedLinks
