import BalancedLinks.Proofs.Holding
import BalancedLinks.Proofs.Stepping
import Mathlib.Order.RelClasses

/-!
# Links after a clearing

A clearing makes no use of what a tree should look like. Whatever the links refer to, it comes to an end, resets what
hangs below the origin in any way, and leaves the rest alone. Of a tree that was well-formed, every element can then
be linked again, the first one at once and all of them in any order that tells them apart.

The main statement is `LinkedTree.renews`.
-/

set_option autoImplicit false

namespace BalancedLinks

namespace LinkedTree

variable {α : Type} {n : Nat} {x : LinkedTree α n} {t : Shape n}

/-! ## Joining an empty tree -/

/-- An empty tree links any element that may join it, and asks no comparator. -/
theorem Threads.insert_into_empty {σ : Type} (h : x.Threads .empty) {a : α} (hjoin : x.Joins a)
    (c : Comparator σ α) (s : σ) :
    (x.insert c s (.ok (some a))).outcome.result = .ok ⟨.on (x.tree.linkOf a), true⟩ := by
  have hends := h.inserts c s (.ok (some a))
  generalize x.insert c s (.ok (some a)) = r at hends
  cases hends with
  | found _ hplace | failed _ hplace => cases (Shape.plug_eq_empty hplace.symm).2
  | unsupplied _ _ hsupplied | declined _ _ hsupplied => cases hsupplied
  | refused _ _ hsupplied hrefusal =>
    obtain rfl := Option.some.inj (Except.ok.inj hsupplied)
    cases hjoin.refuses?_eq_none.symm.trans hrefusal
  | @linked fs as s' b g _ hplace hsupplied _ hthreads _ =>
    obtain rfl := Option.some.inj (Except.ok.inj hsupplied)
    obtain ⟨rfl, -⟩ := Shape.plug_eq_empty hplace.symm
    -- a single element has no neighbours for the tree's own check to compare
    have hcheck : (x.resized g 1).checkAfter .insert = .pure (x.resized g 1) () := by
      apply hthreads.checkAfter_eq .insert
      intro _ f _
      rw [Shape.inorder_grown_leaf]
      simp only [Shape.linksBefore, Shape.linksAfter, List.nil_append]
      cases hb : (x.resized g 1).links.owner (x.tree.linkOf a) <;> simp [hb]
    rw [hcheck]
    rfl

/--
Whether a tree can link the given elements: each of them at once, whatever the comparator, and all of them one after
the other in any order that tells them apart, if the tree checks itself by no other order.
-/
structure Accepts (x : LinkedTree α n) (among : α → Prop) : Prop where
  one : ∀ {σ : Type} (c : Comparator σ α) (s : σ) (a : α), among a →
    (x.insert c s (.ok (some a))).outcome.result = .ok ⟨.on (x.tree.linkOf a), true⟩
  all : ∀ {σ : Type} {lt : α → α → Prop} [IsStrictWeakOrder α lt] [DecidableRel lt] (less : Less σ α) (s : σ)
    (as : List α), less.Decides lt → x.tree.ChecksBy lt → (∀ a ∈ as, among a) →
    (as.Pairwise fun a b => lt a b ∨ lt b a) → (x.load less s as).result = .ok as.length

/-- An empty tree accepts the elements that can join it. -/
theorem Threads.accepts (h : x.Threads .empty) {among : α → Prop} (hjoins : ∀ a, among a → x.Joins a) :
    x.Accepts among where
  one c s a ha := h.insert_into_empty (hjoins a ha) c s
  all {σ lt} _ _ less s as hdecides hchecks has hapart := by
    have hholds : x.Holds lt [] := ⟨⟨.empty, h, rfl⟩, by simp, List.Pairwise.nil, hchecks⟩
    have hjoin : ∀ before a after, as = before ++ a :: after →
        (∀ b ∈ [] ++ before, triState lt a b ≠ .eq) → x.Joins a := by
      intro before a after hsplit _
      exact hjoins a (has a (by simp [hsplit]))
    rw [(hholds.load_eq (s := s) hdecides hjoin).1, SortedList.count_load_of_apart (by simp) hapart]

/-! ## Clearing -/

/--
What clearing comes to, whatever the links look like. The resets come to an end, and the tree is cleared once its
origin has let go of the root and its size is zero. What could be reached below the origin, the origin itself perhaps
included, is as it was before it first joined a tree; all else has been left alone. If the tree was well-formed, it
accepts each element that it had.
-/
structure Renews (x : LinkedTree α n) : Prop where
  ends : ∃ g, Links.Clears x.root.toList x.links g ∧
    x.clear = ⟨{ x.tree with size := 0 }, g.setChild x.origin .left none⟩
  pristine : ∀ l, x.links.Reaches x.root.toList l → x.clear.links.get l = (x.links.get l).pristine
  kept : ∀ l, l ≠ x.origin → ¬ x.links.Reaches x.root.toList l → x.clear.links.get l = x.links.get l
  origin : ¬ x.links.Reaches x.root.toList x.origin →
    x.clear.links.get x.origin = (x.links.get x.origin).withChild .left none
  root : x.clear.root = none
  size : x.clear.tree.size = 0
  accepts : ∀ t, x.WellFormed t → (∀ l ∈ t.inorder, x.links.tag l = x.tree.tag) →
    x.links.owner x.origin = none → x.links.balance x.origin = .level →
    x.clear.Accepts fun a => x.tree.linkOf a ∈ t.inorder ∧ x.links.owner (x.tree.linkOf a) = some a

/-- Clearing a well-formed tree leaves an empty one. -/
theorem WellFormed.threads_clear (h : x.WellFormed t) (hownerless : x.links.owner x.origin = none)
    (hlevel : x.links.balance x.origin = .level) : x.clear.Threads .empty := by
  obtain ⟨hcarries, hedit, -⟩ := h.carries.clear
  refine ⟨hcarries, trivial, trivial, by simp [Links.Owned, Shape.inorder], rfl, ?_, ?_⟩
  · exact (hedit.owner x.origin).trans hownerless
  · exact hedit.balance.trans hlevel

/-- The link of each element of a well-formed tree may join again once the tree has been cleared. -/
theorem WellFormed.joins_clear (h : x.WellFormed t) (htags : ∀ l ∈ t.inorder, x.links.tag l = x.tree.tag) {a : α}
    (hl : x.tree.linkOf a ∈ t.inorder) (howner : x.links.owner (x.tree.linkOf a) = some a) : x.clear.Joins a := by
  obtain ⟨-, hedit, hpristine⟩ := h.carries.clear
  have hget : x.clear.links.get (x.tree.linkOf a) = (x.clear.links.get (x.tree.linkOf a)).pristine := by
    have hreset : x.clear.links.get (x.tree.linkOf a) = (x.links.get (x.tree.linkOf a)).pristine :=
      hpristine _ hl
    rw [hreset]
    rfl
  obtain ⟨hparent, hchild, -⟩ := Links.parts_of_pristine hget
  exact ⟨(hedit.owner _).trans howner, (hedit.tag _).trans (htags _ hl), hparent, hchild⟩

/-- Clearing renews whatever hangs below the origin, for any links at all. -/
theorem renews (x : LinkedTree α n) : x.Renews := by
  have hget : ∀ l, x.clear.links.get l =
      if x.origin = l then ((x.links.clearBelow x.root).get x.origin).withChild .left none
      else (x.links.clearBelow x.root).get l :=
    fun l => Links.get_setChild _ _ l _ _
  refine
    { ends := ⟨_, Links.clears_clearBelow x.root, rfl⟩
      pristine := ?pristine
      kept := ?kept
      origin := ?origin
      root := ?root
      size := rfl
      accepts := ?accepts }
  case pristine =>
    intro l hreach
    have hreset : (x.links.clearBelow x.root).get l = (x.links.get l).pristine := by
      rw [Links.get_clearBelow, if_pos hreach]
    rw [hget]
    split_ifs with hl
    · subst hl
      rw [hreset]
      rfl
    · exact hreset
  case kept =>
    intro l hl hreach
    rw [hget, if_neg (Ne.symm hl), Links.get_clearBelow, if_neg hreach]
  case origin =>
    intro hreach
    rw [hget, if_pos rfl, Links.get_clearBelow, if_neg hreach]
  case root =>
    show ((x.links.clearBelow x.root).setChild x.origin .left none).child x.origin .left = none
    rw [Links.child_setChild, if_pos ⟨rfl, rfl⟩]
  case accepts =>
    intro t hwell htags hownerless hlevel
    apply (hwell.threads_clear hownerless hlevel).accepts
    rintro a ⟨hl, howner⟩
    exact hwell.joins_clear htags hl howner

/-- An origin that hangs below itself, a link that is its own child, and one that refers to both from out of reach. -/
def tangled : LinkedTree Nat 3 where
  tree := { tag := "", linkOf := fun a => Fin.ofNat 3 a, origin := 0, logger := none, verify := false,
            order := none, size := 9 }
  links := ⟨#v[{ owner := none, tag := "", parent := some 1, left := some 1, right := none, balance := .level },
    { owner := some 1, tag := "", parent := none, left := some 0, right := some 1, balance := 7 },
    { owner := some 2, tag := "", parent := some 0, left := some 1, right := some 0, balance := 1 }]⟩

/--
Clearing ends where links hang in a circle, resets those that it reaches and no other, and has room for new ones.
-/
theorem renews_tangled_and_zigzag :
    (tangled.clear.links.get 0 = .fresh none "" ∧ tangled.clear.links.get 1 = .fresh (some 1) "" ∧
        tangled.clear.links.get 2 = tangled.links.get 2) ∧
      (zigzag.clear.insert (.ofOrdering fun _ => .eq) () (.ok (some 2))).outcome.result = .ok ⟨.on 2, true⟩ ∧
      (zigzag.clear.load (.ofBool fun a b => decide (a < b)) () [3, 1, 4, 2]).result = .ok 4 := by
  have hroot : tangled.links.Reaches tangled.root.toList 1 := .root (by decide)
  have horigin : tangled.links.Reaches tangled.root.toList 0 := .child (s := .left) hroot rfl
  have hout : ¬ tangled.links.Reaches tangled.root.toList 2 := by
    have hchild : ∀ l s, tangled.links.child l s ≠ some 2 := by
      intro l s
      revert l
      cases s <;> decide
    intro hreach
    cases hreach with
    | root hmem => exact absurd hmem (by decide)
    | child _ hc => exact hchild _ _ hc
  have hzigzag : zigzag.clear.Accepts _ := (renews zigzag).accepts _ zigzag_wellFormed (by decide) rfl rfl
  refine ⟨⟨(renews tangled).pristine 0 horigin, (renews tangled).pristine 1 hroot,
    (renews tangled).kept 2 (by decide) hout⟩, ?_, ?_⟩
  · exact hzigzag.one _ () 2 ⟨by decide, rfl⟩
  · have horder : IsStrictWeakOrder Nat (· < ·) := isStrictWeakOrder_of_isOrderConnected
    have hdecides : (Less.ofBool fun a b : Nat => decide (a < b)).Decides (· < ·) := fun _ _ _ => ⟨(), rfl⟩
    have hunchecked : zigzag.clear.tree.ChecksBy (· < ·) := by
      intro hverify
      cases hverify
    refine hzigzag.all _ () [3, 1, 4, 2] hdecides hunchecked ?_ (by decide)
    intro a ha
    have hmem : a = 3 ∨ a = 1 ∨ a = 4 ∨ a = 2 := by simpa using ha
    rcases hmem with rfl | rfl | rfl | rfl
    all_goals exact ⟨by decide, rfl⟩

end LinkedTree

end BalancedLinks
