import BalancedLinks.Proofs.Reading

/-!
# One tree in two worlds

Two worlds can differ in some trees, far from a given one, and be alike in all else. A tree that is threaded
alike in both then goes on so: each operation has the same reply in both worlds, and leaves the tree threaded
alike again.

The main statement is `World.Mirrors.operate_eq`.
-/

set_option autoImplicit false

namespace BalancedLinks

variable {α : Type} {n m : Nat}

namespace LinkedTree

variable {σ β : Type} {x y : LinkedTree α n} {t u : Shape n} {l : LinkId n}

/-- Whether two trees have the same settings and size and thread the same shape, with the same elements. -/
structure Twins (x y : LinkedTree α n) (t : Shape n) : Prop where
  tree : y.tree = x.tree
  owner : y.links.owner = x.links.owner
  tag : y.links.tag = x.links.tag
  left : x.Threads t
  right : y.Threads t

/-- Whether two outcomes are the same but for the links that lie elsewhere. -/
structure Matches (o o' : Outcome (LinkedTree α n) Event β) (u : Shape n) : Prop where
  state : Twins o.state o'.state u
  log : o'.log = o.log
  result : o'.result = o.result

/-- Outcomes that are the same stay so where the result is mapped and the log is filtered. -/
theorem Matches.keeping_map {γ : Type} {o o' : Outcome (LinkedTree α n) Event β} (h : Matches o o' u)
    (f : β → γ) (keep : Event → Bool) : Matches ((o.map f).keeping keep) ((o'.map f).keeping keep) u :=
  ⟨h.state, congrArg (List.filter keep) h.log, congrArg (Except.map f) h.result⟩

namespace Twins

/-- Both trees have one origin. -/
theorem origin (h : Twins x y t) : y.origin = x.origin := by
  rw [LinkedTree.origin, h.tree, LinkedTree.origin]

/-- The links of the shape, and the origin, are the same. -/
theorem get_eq (h : Twins x y t) (hl : l = x.origin ∨ l ∈ t.inorder) : y.links.get l = x.links.get l := by
  refine (Links.get_eq_iff l).mpr ⟨congrFun h.owner l, congrFun h.tag l, ?_⟩
  have hcarries := h.right.carries
  have hlevel := h.right.level
  rw [h.origin] at hcarries hlevel
  obtain ⟨hparent, hchild⟩ := h.left.carries.references_eq hcarries hl
  refine ⟨hparent, hchild, ?_⟩
  rcases hl with rfl | hl
  · exact hlevel.trans h.left.level.symm
  · exact h.left.exact.balance_eq h.right.exact hl

/-- A check finds the same in both trees. -/
theorem checkAfter_eq (h : Twins x y t) (change : Change) :
    (y.checkAfter change).log = (x.checkAfter change).log ∧
      (y.checkAfter change).result = (x.checkAfter change).result := by
  have hverify : ∀ order, y.verify order = x.verify order := by
    intro order
    cases order with
    | none => rw [h.right.verify_eq, h.left.verify_eq]
    | some f =>
      have hincreasing : y.checkIncreasing f = x.checkIncreasing f := by
        rw [h.right.checkIncreasing_eq, h.left.checkIncreasing_eq, h.owner]
      simp only [h.right.verify_eq, h.left.verify_eq, hincreasing]
  simp only [checkAfter, h.tree, hverify]
  split_ifs
  · cases x.verify x.tree.order with
    | ok => exact ⟨rfl, rfl⟩
    | error e => cases e <;> exact ⟨rfl, rfl⟩
  · exact ⟨rfl, rfl⟩

/-- Two trees that have changed alike. -/
theorem resized {g g' : Links α n} {change : Int} {ls : List (LinkId n)} (h : Twins x y t)
    (hedit : Links.Edit x.links g x.origin .left ls) (hedit' : Links.Edit y.links g' y.origin .left ls)
    (hleft : (x.resized g change).Threads u) (hright : (y.resized g' change).Threads u) :
    Twins (x.resized g change) (y.resized g' change) u := by
  refine ⟨?_, ?_, ?_, hleft, hright⟩
  · simp only [LinkedTree.resized, h.tree]
  · exact (funext hedit'.owner).trans (h.owner.trans (funext hedit.owner).symm)
  · exact (funext hedit'.tag).trans (h.tag.trans (funext hedit.tag).symm)

/-- Linking at one place comes to the same in both trees. -/
theorem linkAt_matches {fs : List (Frame n)} (h : Twins x y (.plug fs .empty))
    (hl : x.refuses? l = none) (hl' : y.refuses? l = none) :
    ∃ u, Matches (x.linkAt l (Shape.slotOf x.origin fs).1 (Shape.slotOf x.origin fs).2)
      (y.linkAt l (Shape.slotOf x.origin fs).1 (Shape.slotOf x.origin fs).2) u := by
  obtain ⟨g, hrun, hthreads, hedit⟩ := h.left.linkAt_eq hl
  obtain ⟨g', hrun', hthreads', hedit'⟩ := h.right.linkAt_eq hl'
  rw [h.origin] at hrun'
  have hgrown := h.resized hedit hedit' hthreads hthreads'
  obtain ⟨hlog, hresult⟩ := hgrown.checkAfter_eq .insert
  rw [hrun, hrun']
  refine ⟨_, hgrown, ?_, ?_⟩
  · simp only [h.tree, hlog]
  · simp only [hresult]

/-- Unlinking at one place comes to the same in both trees. -/
theorem eraseLink_matches {fs : List (Frame n)} {d : Shape n} (h : Twins x y t)
    (hplace : t.Exposed l fs d) : ∃ u, Matches (x.eraseLink l) (y.eraseLink l) u := by
  obtain ⟨g, hrun, hthreads, -, hedit, -⟩ := h.left.eraseLink_eq hplace
  obtain ⟨g', hrun', hthreads', -, hedit', -⟩ := h.right.eraseLink_eq hplace
  have hshrunk := h.resized hedit hedit' hthreads hthreads'
  obtain ⟨hlog, hresult⟩ := hshrunk.checkAfter_eq .erase
  rw [hrun, hrun']
  refine ⟨_, hshrunk, ?_, ?_⟩
  · simp only [h.tree, hlog]
  · exact hresult

/-- Clearing comes to the same in both trees. -/
theorem clear (h : Twins x y t) : Twins x.clear y.clear .empty := by
  obtain ⟨hthreads, hedit, -⟩ := h.left.clear
  obtain ⟨hthreads', hedit', -⟩ := h.right.clear
  refine ⟨?_, ?_, ?_, hthreads, hthreads'⟩
  · simp only [LinkedTree.clear, h.tree]
  · exact (funext hedit'.owner).trans (h.owner.trans (funext hedit.owner).symm)
  · exact (funext hedit'.tag).trans (h.tag.trans (funext hedit.tag).symm)

/-- An insertion comes to the same in two trees that look the same. -/
theorem insert_matches {S : LinkId n → Prop} (h : Twins x y t) (hlook : x.Resembles S y)
    (c : Comparator σ α) (s : σ) (supply : Except String (Option α)) :
    (∃ u, Matches (x.insert c s supply).outcome (y.insert c s supply).outcome u) ∧
      (y.insert c s supply).visited = (x.insert c s supply).visited ∧
      (y.insert c s supply).made = (x.insert c s supply).made ∧
      (y.insert c s supply).state = (x.insert c s supply).state := by
  have hends := h.left.carries.search_concludes h.left.owned c s
  have hkeeps : y.tree.keeps = x.tree.keeps := by rw [h.tree]
  simp only [insert, hlook.search_eq, hkeeps]
  generalize x.links.search c s x.origin = search at hends
  cases hends with
  | found => exact ⟨⟨t, h, rfl, rfl⟩, rfl, rfl, rfl⟩
  | failed => exact ⟨⟨t, h, rfl, rfl⟩, rfl, rfl, rfl⟩
  | vacant htrail hplace =>
    subst hplace
    refine ⟨?_, rfl, rfl, rfl⟩
    rcases supply with message | (_ | a)
    · exact ⟨_, h, rfl, rfl⟩
    · refine ⟨_, h, rfl, ?_⟩
      simp only [supplyAt, endCursor, h.origin, Outcome.keeping, Outcome.pure]
    · have hrefuses := hlook.refuses?_eq (hlook.selected a)
      simp only [supplyAt, h.tree, hrefuses]
      cases hrefuse : x.refuses? (x.tree.linkOf a) with
      | some cause => exact ⟨_, h, rfl, rfl⟩
      | none =>
        obtain ⟨u, hmatches⟩ := h.linkAt_matches hrefuse (hrefuses.trans hrefuse)
        exact ⟨u, hmatches.state, congrArg (List.filter _) hmatches.log, hmatches.result⟩

end Twins

end LinkedTree

/-- An operation that goes on from links of a part goes on from links of a larger one. -/
theorem Operation.Within.mono {S S' : LinkId n → Prop} {op : Operation α n} (h : op.Within S)
    (hS : ∀ l, S l → S' l) : op.Within S' := by
  cases op with
  | advance | next | previous | balance | child => exact fun l hl => hS l (h l hl)
  | _ => trivial

namespace World

/-! ## Trees over different links -/

/-- Whether two trees never select a common link. -/
def Apart (w : World α n m) (j k : Fin m) : Prop :=
  ∀ a b, (w.trees j).linkOf a ≠ (w.trees k).linkOf b

/-- Whether a link is a tree's origin or one that the tree selects, and no other tree's origin. -/
def Private (w : World α n m) (k : Fin m) (l : LinkId n) : Prop :=
  (l = (w.trees k).origin ∨ ∃ a, (w.trees k).linkOf a = l) ∧ ∀ j, j ≠ k → l ≠ (w.trees j).origin

section Settings

variable {w v : World α n m} {j k : Fin m} {l : LinkId n}

/-- Whether two trees are apart is settled by their settings. -/
theorem Apart.congr (h : w.Apart j k) (halike : ∀ i, (w.tree i).Alike (v.tree i)) : v.Apart j k := by
  have hlinkOf : ∀ i, (v.trees i).linkOf = (w.trees i).linkOf := fun i => (halike i).linkOf_eq
  simpa only [Apart, hlinkOf] using h

/-- Whether a link is a tree's own is settled by the settings of the trees. -/
theorem Private.congr (h : w.Private k l) (halike : ∀ i, (w.tree i).Alike (v.tree i)) : v.Private k l := by
  have hlinkOf : ∀ i, (v.trees i).linkOf = (w.trees i).linkOf := fun i => (halike i).linkOf_eq
  have horigin : ∀ i, (v.trees i).origin = (w.trees i).origin := fun i => (halike i).origin_eq
  simpa only [Private, hlinkOf, horigin] using h

/-- A tree that selects other links threads none of a tree's own. -/
theorem Sound.not_mem_of_private {ts : Fin m → Shape n} (h : w.Sound ts) (hs : w.Selects ts)
    (hapart : w.Apart j k) (hl : w.Private k l) : l ∉ (ts j).inorder := by
  intro hmem
  rcases hl.1 with rfl | ⟨b, hb⟩
  · exact h.origin_not_mem k j hmem
  · obtain ⟨a, ha⟩ := hs j l hmem
    exact hapart a b (ha.trans hb.symm)

end Settings

/-! ## Worlds that differ in some trees -/

/--
Whether two worlds differ in some trees only, which never select a common link with one of the others: all
trees have the same settings, and the others thread the same shapes.
-/
structure Mirrors (k : Fin m) (far : Fin m → Prop) (w v : World α n m) (ts us : Fin m → Shape n) : Prop where
  left : w.Sound ts
  right : v.Sound us
  selects_left : w.Selects ts
  selects_right : v.Selects us
  alike : ∀ j, (w.tree j).Alike (v.tree j)
  apart : ∀ j, far j → j ≠ k ∧ w.Apart j k
  near : ∀ j, ¬ far j → (w.tree j).Twins (v.tree j) (ts j)

/-- Whether a link is in none of the trees in which two worlds differ, and not their origin. -/
def Clear (far : Fin m → Prop) (w : World α n m) (ts us : Fin m → Shape n) (l : LinkId n) : Prop :=
  ∀ j, far j → l ≠ (w.trees j).origin ∧ l ∉ (ts j).inorder ∧ l ∉ (us j).inorder

namespace Mirrors

variable {w v : World α n m} {ts us : Fin m → Shape n} {k : Fin m} {far : Fin m → Prop} {l : LinkId n}
  {x y : LinkedTree α n} {u : Shape n}

/-- A world mirrors itself. -/
theorem refl (h : w.Sound ts) (hs : w.Selects ts) (hfar : ∀ j, far j → j ≠ k ∧ w.Apart j k) :
    Mirrors k far w w ts ts :=
  ⟨h, h, hs, hs, fun _ => .refl _, hfar, fun j _ => ⟨rfl, rfl, rfl, h.threads j, h.threads j⟩⟩

/-- The tree in question is not one of those in which the worlds differ. -/
theorem not_far (h : Mirrors k far w v ts us) : ¬ far k :=
  fun hk => (h.apart k hk).1 rfl

/-- The other trees thread the same shapes in both worlds. -/
theorem shape_eq (h : Mirrors k far w v ts us) {j : Fin m} (hj : ¬ far j) : us j = ts j :=
  (h.right.threads j).unique (h.near j hj).right

/-- All trees have the same origins in both worlds. -/
theorem origin_eq (h : Mirrors k far w v ts us) (j : Fin m) : (v.trees j).origin = (w.trees j).origin :=
  (h.alike j).origin_eq

/-- All links have the same owners in both worlds. -/
theorem owner_eq (h : Mirrors k far w v ts us) : v.links.owner = w.links.owner :=
  (h.near k h.not_far).owner

/-- All links have the same tags in both worlds. -/
theorem tag_eq (h : Mirrors k far w v ts us) : v.links.tag = w.links.tag :=
  (h.near k h.not_far).tag

/-! ## Links that are alike -/

/-- The links of the other trees are in none of those in which the worlds differ. -/
theorem clear_of_near (h : Mirrors k far w v ts us) {i : Fin m} (hi : ¬ far i)
    (hl : l = (w.trees i).origin ∨ l ∈ (ts i).inorder) : Clear far w ts us l := by
  intro j hj
  have hij : i ≠ j := by
    rintro rfl
    exact hi hj
  rcases hl with rfl | hl
  · refine ⟨fun heq => hij (h.left.origins i j heq), h.left.origin_not_mem i j, ?_⟩
    rw [← h.origin_eq i]
    exact h.right.origin_not_mem i j
  · refine ⟨fun heq => h.left.origin_not_mem j i (heq ▸ hl), h.left.apart i j hij l hl, ?_⟩
    exact h.right.apart i j hij l (h.shape_eq hi ▸ hl)

/-- A tree's own links are in none of the trees in which the worlds differ. -/
theorem clear_of_private (h : Mirrors k far w v ts us) (hl : w.Private k l) : Clear far w ts us l := by
  intro j hj
  obtain ⟨hjk, hapart⟩ := h.apart j hj
  exact ⟨hl.2 j hjk, h.left.not_mem_of_private h.selects_left hapart hl,
    h.right.not_mem_of_private h.selects_right (hapart.congr h.alike) (hl.congr h.alike)⟩

/-- A link that is in none of the trees in which the worlds differ is in another one, or in none at all. -/
theorem near_or_free (h : Mirrors k far w v ts us) (hl : Clear far w ts us l) :
    (∃ i, ¬ far i ∧ (l = (w.trees i).origin ∨ l ∈ (ts i).inorder)) ∨
      (∀ i, l ≠ (w.trees i).origin ∧ l ∉ (ts i).inorder) ∧ ∀ i, l ≠ (v.trees i).origin ∧ l ∉ (us i).inorder := by
  by_cases hnear : ∃ i, ¬ far i ∧ (l = (w.trees i).origin ∨ l ∈ (ts i).inorder)
  · exact Or.inl hnear
  refine Or.inr ⟨fun i => ?_, fun i => ?_⟩
  · by_cases hi : far i
    · exact ⟨(hl i hi).1, (hl i hi).2.1⟩
    · exact ⟨fun heq => hnear ⟨i, hi, Or.inl heq⟩, fun hmem => hnear ⟨i, hi, Or.inr hmem⟩⟩
  · rw [h.origin_eq]
    by_cases hi : far i
    · exact ⟨(hl i hi).1, (hl i hi).2.2⟩
    · rw [h.shape_eq hi]
      exact ⟨fun heq => hnear ⟨i, hi, Or.inl heq⟩, fun hmem => hnear ⟨i, hi, Or.inr hmem⟩⟩

/-- A link outside the trees in which the worlds differ is the same in both. -/
theorem get_eq (h : Mirrors k far w v ts us) (hl : Clear far w ts us l) : v.links.get l = w.links.get l := by
  rcases h.near_or_free hl with ⟨i, hi, hl⟩ | ⟨hfree, hfree'⟩
  · exact (h.near i hi).get_eq hl
  -- a free link is as it was before it first joined a tree, and owners and tags never change
  · have howner : (v.links.get l).owner = (w.links.get l).owner := congrFun h.owner_eq l
    have htag : (v.links.get l).tag = (w.links.get l).tag := congrFun h.tag_eq l
    rw [h.right.free l hfree', h.left.free l hfree, Link.pristine, Link.pristine, howner, htag]

/-- The worlds agree on all links that are in none of the trees in which they differ. -/
theorem agree (h : Mirrors k far w v ts us) : Links.Agree (Clear far w ts us) w.links v.links := by
  refine ⟨fun l hl => h.get_eq hl, ?_, ?_⟩
  · intro l p hl hp
    rcases h.near_or_free hl with ⟨i, hi, rfl | hl⟩ | ⟨hfree, -⟩
    -- an origin has no parent
    · cases hp.symm.trans (h.left.threads i).carries.parent
    · obtain ⟨p', hp', -, hparent, -⟩ := (h.left.threads i).carries.parent_forth hl
      obtain rfl := Option.some.inj (hp.symm.trans hparent)
      exact h.clear_of_near hi hp'
    · cases hp.symm.trans (h.left.loose hfree).1
  · intro l s c hl hc
    rcases h.near_or_free hl with ⟨i, hi, hl⟩ | ⟨hfree, -⟩
    · exact h.clear_of_near hi (Or.inr ((h.left.threads i).carries.child_back hl hc).1)
    · cases hc.symm.trans ((h.left.loose hfree).2 s)

/-- The tree looks the same in both worlds. -/
theorem resembles (h : Mirrors k far w v ts us) :
    (w.tree k).Resembles (Clear far w ts us) (v.tree k) := by
  have htree : (v.tree k).tree = (w.tree k).tree := (h.near k h.not_far).tree
  refine ⟨h.agree, h.clear_of_near h.not_far (Or.inl rfl), h.owner_eq, h.tag_eq, ?_, ?_, ?_, ?_, ?_⟩
  · intro a
    by_cases hother : ∃ j, j ≠ k ∧ (w.trees k).linkOf a = (w.trees j).origin
    -- a tree may select the origin of another one, which no change of either lets it link
    · obtain ⟨j, -, hj⟩ := hother
      exact Or.inr ((congrArg w.links.owner hj).trans (h.left.threads j).ownerless)
    · exact Or.inl (h.clear_of_private ⟨Or.inr ⟨a, rfl⟩, fun j hj heq => hother ⟨j, hj, heq⟩⟩)
  · exact h.origin_eq k
  · rw [htree]
  · rw [htree]
  · rw [htree]

/-! ## Operations -/

/-- After the tree has changed alike in both worlds, they mirror each other again. -/
theorem put (h : Mirrors k far w v ts us) (hm : ∃ u, w.Moves ts k x u) (hm' : ∃ u, v.Moves us k y u)
    (htwins : x.Twins y u) :
    Mirrors k far (w.put k x) (v.put k y) (Function.update ts k u) (Function.update us k u) := by
  -- a tree threads one shape only, so that both moves are to the shape that the twins thread
  obtain ⟨u₁, hm⟩ := hm
  obtain ⟨u₂, hm'⟩ := hm'
  obtain rfl := hm.threads.unique htwins.left
  obtain rfl := hm'.threads.unique htwins.right
  have hleft := hm.sound h.left
  have hright := hm'.sound h.right
  refine ⟨hleft, hright, hm.selects h.selects_left, hm'.selects h.selects_right, ?_, ?_, ?_⟩
  · exact fun j => (w.put_alike hm.alike j).symm.trans ((h.alike j).trans (v.put_alike hm'.alike j))
  · exact fun j hj => ⟨(h.apart j hj).1, (h.apart j hj).2.congr (w.put_alike hm.alike)⟩
  · intro j hj
    by_cases hjk : j = k
    · subst hjk
      rwa [tree_put_self, tree_put_self, Function.update_self]
    · have hj' := hright.threads j
      rw [Function.update_of_ne hjk, h.shape_eq hj] at hj'
      refine ⟨?_, ?_, ?_, hleft.threads j, ?_⟩
      · rw [tree_put_of_ne w hjk, tree_put_of_ne v hjk]
        exact (h.near j hj).tree
      · exact htwins.owner
      · exact htwins.tag
      · rwa [Function.update_of_ne hjk]

/-- A change of a tree in which the worlds differ leaves them mirroring each other. -/
theorem put_far (h : Mirrors k far w v ts us) {j : Fin m} (hj : far j) (hm : w.Moves ts j x u) :
    Mirrors k far (w.put j x) v (Function.update ts j u) us := by
  have hleft := hm.sound h.left
  refine ⟨hleft, h.right, hm.selects h.selects_left, h.selects_right, ?_, ?_, ?_⟩
  · exact fun i => (w.put_alike hm.alike i).symm.trans (h.alike i)
  · exact fun i hi => ⟨(h.apart i hi).1, (h.apart i hi).2.congr (w.put_alike hm.alike)⟩
  · intro i hi
    have hij : i ≠ j := by
      rintro rfl
      exact hi hj
    have hnear := h.near i hi
    refine ⟨?_, ?_, ?_, hleft.threads i, ?_⟩
    · rw [tree_put_of_ne w hij]
      exact hnear.tree
    · exact h.owner_eq.trans (funext hm.edit.owner).symm
    · exact h.tag_eq.trans (funext hm.edit.tag).symm
    · rw [Function.update_of_ne hij]
      exact hnear.right

/-- An insertion comes to the same in both worlds. -/
theorem insert_matches {σ : Type} (h : Mirrors k far w v ts us) (c : Comparator σ α) (s : σ)
    (supply : Except String (Option α)) :
    (∃ u, LinkedTree.Matches ((w.tree k).insert c s supply).outcome ((v.tree k).insert c s supply).outcome u) ∧
      ((v.tree k).insert c s supply).visited = ((w.tree k).insert c s supply).visited ∧
      ((v.tree k).insert c s supply).made = ((w.tree k).insert c s supply).made ∧
      ((v.tree k).insert c s supply).state = ((w.tree k).insert c s supply).state :=
  (h.near k h.not_far).insert_matches h.resembles c s supply

/-- An erasure comes to the same in both worlds. -/
theorem erase_matches (h : Mirrors k far w v ts us) (target : Target α n) :
    ∃ u, LinkedTree.Matches ((w.tree k).erase target) ((v.tree k).erase target) u := by
  have htwins := h.near k h.not_far
  have htree : v.trees k = w.trees k := htwins.tree
  have hlink : (v.tree k).linkOfTarget target = (w.tree k).linkOfTarget target := by
    cases target with
    | element a => exact congrArg (fun x : Tree α n => some (x.linkOf a)) htree
    | cursor c => rfl
  have herasable : (v.tree k).erasable target = (w.tree k).erasable target := by
    rw [h.left.erasable_eq, h.right.erasable_eq, hlink, htree, h.shape_eq h.not_far]
  have hmem : ∀ l, (w.tree k).erasable target = .ok l → l ∈ (ts k).inorder := by
    intro l hl
    rw [h.left.erasable_eq] at hl
    split at hl
    · cases hl
    · split_ifs at hl with _ hmem
      exact Except.ok.inj hl ▸ hmem
  simp only [LinkedTree.erase, herasable]
  cases hl : (w.tree k).erasable target with
  | error e => exact ⟨_, htwins, rfl, rfl⟩
  | ok l =>
    obtain ⟨xs, ys, hsplit⟩ := List.append_of_mem (hmem l hl)
    -- the link has one place in the shape, at which both trees take it out
    obtain ⟨fs, d, hplace⟩ := Shape.exists_exposed (hmem l hl)
    have hnext := (h.left.threads k).carries.successor_eq hsplit
    have hnext' := htwins.right.carries.successor_eq hsplit
    obtain ⟨u, hmatches⟩ := htwins.eraseLink_matches hplace
    simp only [hnext, hnext', htwins.origin, htwins.tree]
    exact ⟨u, hmatches.keeping_map _ _⟩

/-- A load comes to the same in both worlds. -/
theorem load_matches {σ : Type} (h : Mirrors k far w v ts us) (less : Less σ α) (s : σ) (values : List α) :
    ∃ u, LinkedTree.Matches ((w.tree k).load less s values) ((v.tree k).load less s values) u := by
  induction values generalizing w v ts us s with
  | nil => exact ⟨_, h.near k h.not_far, rfl, rfl⟩
  | cons value values ih =>
    obtain ⟨⟨u, hfirst⟩, -, -, hstate⟩ := h.insert_matches (less.comparator value) s (.ok (some value))
    have hmirrors := h.put (h.left.insert_moves k (less.comparator value) s (.ok (some value)))
      (h.right.insert_moves k (less.comparator value) s (.ok (some value))) hfirst.state
    cases hresult : ((w.tree k).insert (less.comparator value) s (.ok (some value))).outcome.result with
    | error e =>
      rw [LinkedTree.load_cons_of_error hresult, LinkedTree.load_cons_of_error (hfirst.result.trans hresult)]
      exact ⟨u, hfirst.state, hfirst.log, rfl⟩
    | ok placement =>
      obtain ⟨u', hrest⟩ := ih hmirrors ((w.tree k).insert (less.comparator value) s (.ok (some value))).state
      rw [tree_put_self, tree_put_self] at hrest
      rw [LinkedTree.load_cons_of_ok rfl hresult,
        LinkedTree.load_cons_of_ok rfl (hfirst.result.trans hresult), hstate]
      refine ⟨u', hrest.state, ?_, congrArg (Except.map _) hrest.result⟩
      simp only [hfirst.log, hrest.log]

/-- A request has the same reply in both worlds, and leaves the tree threaded alike. -/
theorem request_eq (h : Mirrors k far w v ts us) (r : Request α n) :
    r.reply (v.tree k) = r.reply (w.tree k) ∧ ∃ u, (r.run (w.tree k)).Twins (r.run (v.tree k)) u := by
  cases r with
  | insert c s supply =>
    obtain ⟨⟨u, hmatches⟩, hvisited, hmade, -⟩ := h.insert_matches c s supply
    simp only [Request.reply, Request.run, hmatches.log, hmatches.result, hvisited, hmade, true_and]
    exact ⟨u, hmatches.state⟩
  | erase target =>
    obtain ⟨u, hmatches⟩ := h.erase_matches target
    simp only [Request.reply, Request.run, hmatches.log, hmatches.result, true_and]
    exact ⟨u, hmatches.state⟩
  | load less s values =>
    obtain ⟨u, hmatches⟩ := h.load_matches less s values
    simp only [Request.reply, Request.run, hmatches.log, hmatches.result, true_and]
    exact ⟨u, hmatches.state⟩
  | clear => exact ⟨rfl, _, (h.near k h.not_far).clear⟩

/-- An operation has the same reply in both worlds, and they mirror each other afterwards. -/
theorem operate_eq (h : Mirrors k far w v ts us) {op : Operation α n} (hop : op.Within (w.Private k)) :
    op.reply (v.tree k) = op.reply (w.tree k) ∧
      ∃ u, Mirrors k far (w.operate k op) (v.operate k op) (Function.update ts k u) (Function.update us k u) := by
  have hboth : op.reply (v.tree k) = op.reply (w.tree k) ∧
      ∃ u, (op.after (w.tree k)).Twins (op.after (v.tree k)) u := by
    cases hquestion : op.isQuestion with
    | true =>
      refine ⟨h.resembles.reply_eq hquestion (hop.mono fun l hl => h.clear_of_private hl), ?_⟩
      cases op with
      | change => cases hquestion
      | _ => exact ⟨_, h.near k h.not_far⟩
    | false =>
      cases op with
      | change r => exact h.request_eq r
      | _ => cases hquestion
  obtain ⟨hreply, u, htwins⟩ := hboth
  exact ⟨hreply, u, h.put (h.left.operate_moves k op) (h.right.operate_moves k op) htwins⟩

end Mirrors

end World

end BalancedLinks
