import BalancedLinks.Proofs.Ranking

/-!
# Searches for a range

A comparator may match more than one element. If the elements that the key comes after stand first in the order, then
the matches, and then the elements that the key comes before, a search finds one of the matches wherever they are in
the tree, and finds nothing only if there are none. An element that is linked by such a comparator, and is a match,
stands between the two other blocks, so that it is found from then on.

The main statement is `World.ranges_run`.
-/

set_option autoImplicit false

namespace BalancedLinks

variable {σ α : Type} {n m : Nat}

/-- Whether answers are in three blocks, any of which may be empty: first `gt`, then `eq`, then `lt`. -/
def InBlocks (answers : List Ordering) : Prop :=
  ∃ i j k, answers = List.replicate i .gt ++ List.replicate j .eq ++ List.replicate k .lt

/-- Whether a comparator answers by the key about each of some elements, whatever its state. -/
def Comparator.AnswersAmong (c : Comparator σ α) (key : α → Ordering) (elements : List α) : Prop :=
  ∀ a ∈ elements, ∀ s, ∃ s', c.ask s a = .ok (key a, s')

/-- Whether the answers about two elements in turn may stand in this order in blocks. -/
def Steadily (key : α → Ordering) (a b : α) : Prop :=
  (key b = .gt → key a = .gt) ∧ (key a = .lt → key b = .lt)

/-- Answers in blocks never go back. -/
theorem InBlocks.pairwise {key : α → Ordering} {elements : List α} (h : InBlocks (elements.map key)) :
    elements.Pairwise (Steadily key) := by
  obtain ⟨i, j, k, hblocks⟩ := h
  have hpairwise : (elements.map key).Pairwise fun o o' => (o' = .gt → o = .gt) ∧ (o = .lt → o' = .lt) := by
    rw [hblocks]
    simp [List.pairwise_append, List.pairwise_replicate]
  exact (List.pairwise_map.mp hpairwise).imp fun hab => hab

namespace Comparator.AnswersAmong

variable {c : Comparator σ α} {key : α → Ordering} {elements : List α} {s s' : σ} {a : α} {answer : Ordering}
  {message : String}

/-- What a comparator answers about one of the elements is what the key says about it. -/
theorem of_ask (h : c.AnswersAmong key elements) (ha : a ∈ elements) (hask : c.ask s a = .ok (answer, s')) :
    key a = answer := by
  obtain ⟨s'', hs⟩ := h a ha s
  rw [hask] at hs
  exact (congrArg Prod.fst (Except.ok.inj hs)).symm

/-- A comparator does not fail at any of the elements. -/
theorem ne_error (h : c.AnswersAmong key elements) (ha : a ∈ elements) : c.ask s a ≠ .error message := by
  obtain ⟨s', hs⟩ := h a ha s
  simp [hs]

end Comparator.AnswersAmong

/-- The link of a frame is one of those around its place. -/
theorem Shape.link_mem_around {fs : List (Frame n)} {f : Frame n} (hf : f ∈ fs) : f.link ∈ around fs := by
  obtain ⟨gs, hs, rfl⟩ := List.append_of_mem hf
  induction gs with
  | nil => simp
  | cons g gs ih => simp [ih]

namespace Links

variable {g : Links α n} {c : Comparator σ α} {key : α → Ordering} {elements : List α} {s₀ s : σ}
  {fs : List (Frame n)} {as : List α} {t : Shape n}

/-- A search that a comparator sends by the key among some elements goes the way of the key. -/
theorem Trail.ofOrdering (h : Trail g c s₀ fs as s) (hanswers : c.AnswersAmong key elements)
    (hamong : ∀ f ∈ fs, ∀ a, g.owner f.link = some a → a ∈ elements) :
    Trail g (.ofOrdering key) () fs as () := by
  induction h with
  | nil => exact .nil
  | @cons f fs as a s s' answer _ howner hask hdiffers hside ih =>
    obtain rfl := hanswers.of_ask (hamong f (by simp) a howner) hask
    exact .cons (ih fun f' hf' => hamong f' (by simp [hf'])) howner rfl hdiffers hside

/-- The way of a search for a range parts the elements before the place from those after it. -/
theorem Trail.blocks (h : Trail g c s₀ fs as s)
    (hanswers : c.AnswersAmong key ((Shape.plug fs t).inorder.filterMap g.owner))
    (hblocks : InBlocks (((Shape.plug fs t).inorder.filterMap g.owner).map key)) :
    (∀ l ∈ Shape.linksBefore fs, ∀ a, g.owner l = some a → key a = .gt) ∧
      ∀ l ∈ Shape.linksAfter fs, ∀ a, g.owner l = some a → key a = .lt := by
  have hamong : ∀ f ∈ fs, ∀ a, g.owner f.link = some a → a ∈ (Shape.plug fs t).inorder.filterMap g.owner := by
    intro f hf a ha
    have hlink : f.link ∈ (Shape.plug fs t).inorder :=
      (Shape.mem_inorder_plug fs t f.link).mpr (Or.inr (Shape.link_mem_around hf))
    exact List.mem_filterMap.mpr ⟨f.link, hlink, ha⟩
  have hsteady := (increase_iff g (Steadily key) _).mpr hblocks.pairwise
  have hask : ∀ (u : Unit) a u' answer, (Comparator.ofOrdering key).ask u a = .ok (answer, u') → key a = answer := by
    rintro u a u' answer ⟨⟩
    rfl
  exact (h.ofOrdering hanswers hamong).parts (fun a b hab => hab.1) (fun a b hab => hab.2)
    (fun u a u' => hask u a u' .gt) (fun u a u' => hask u a u' .lt) hsteady

end Links

namespace LinkedTree

variable {x : LinkedTree α n} {t : Shape n} {c : Comparator σ α} {key : α → Ordering}

/-- What a search has located is what both lookups give. -/
theorem find_of_locate {s : σ} {l : LinkId n} (h : (x.locate c s).result = .ok (some l)) :
    x.find c s = .ok (.on l) ∧ x.findElement c s = .ok (x.links.owner l) := by
  rw [find, findElement, h]
  exact ⟨rfl, rfl⟩

/-- A search for a range finds a link with a match, or there is none. -/
theorem Threads.locate_range (h : x.Threads t) (hanswers : c.AnswersAmong key (t.inorder.filterMap x.links.owner))
    (hblocks : InBlocks ((t.inorder.filterMap x.links.owner).map key)) (s : σ) :
    (∃ l ∈ t.inorder, ∃ e, x.links.owner l = some e ∧ key e = .eq ∧ (x.locate c s).result = .ok (some l)) ∨
      (∀ l ∈ t.inorder, ∀ e, x.links.owner l = some e → key e ≠ .eq) ∧ (x.locate c s).result = .ok none := by
  have hends := h.carries.search_concludes h.owned c s
  simp only [locate]
  generalize x.links.search c s x.origin = r at hends
  cases hends with
  | @found fs as _ _ a b l e htrail hplace howner hask =>
    have hl : l ∈ t.inorder := hplace ▸ Shape.link_mem_inorder_plug fs a l b
    exact Or.inl ⟨l, hl, e, howner, hanswers.of_ask (List.mem_filterMap.mpr ⟨l, hl, howner⟩) hask, rfl⟩
  | @failed fs as _ a b l e message htrail hplace howner hask =>
    have hl : l ∈ t.inorder := hplace ▸ Shape.link_mem_inorder_plug fs a l b
    exact absurd hask (hanswers.ne_error (List.mem_filterMap.mpr ⟨l, hl, howner⟩))
  | @vacant fs as _ htrail hplace =>
    subst hplace
    obtain ⟨hbefore, hafter⟩ := htrail.blocks hanswers hblocks
    refine Or.inr ⟨?_, rfl⟩
    intro l hl e he heq
    rw [Shape.inorder_plug_empty] at hl
    rcases List.mem_append.mp hl with hl | hl
    · exact absurd (heq.symm.trans (hbefore l hl e he)) (by simp)
    · exact absurd (heq.symm.trans (hafter l hl e he)) (by simp)

/-- The answers about the elements of some links, where the key says the same of each of them. -/
theorem map_key_owners {ls : List (LinkId n)} {answer : Ordering}
    (h : ∀ l ∈ ls, ∀ a, x.links.owner l = some a → key a = answer) :
    (ls.filterMap x.links.owner).map key = List.replicate (ls.filterMap x.links.owner).length answer := by
  refine List.eq_replicate_iff.mpr ⟨List.length_map _, ?_⟩
  intro o ho
  obtain ⟨a, ha, rfl⟩ := List.mem_map.mp ho
  obtain ⟨l, hl, howner⟩ := List.mem_filterMap.mp ha
  exact h l hl a howner

/-- A search finds a link with a match that stands between links which the key comes after and before. -/
theorem Threads.locate_between (h : x.Threads t) {before after : List (LinkId n)} {l : LinkId n} {e : α}
    (horder : t.inorder = before ++ l :: after) (howner : x.links.owner l = some e) (hkey : key e = .eq)
    (hbefore : ∀ i ∈ before, ∀ a, x.links.owner i = some a → key a = .gt)
    (hafter : ∀ i ∈ after, ∀ a, x.links.owner i = some a → key a = .lt)
    (hanswers : c.AnswersAmong key (t.inorder.filterMap x.links.owner)) (s : σ) :
    (x.locate c s).result = .ok (some l) := by
  have hblocks : InBlocks ((t.inorder.filterMap x.links.owner).map key) := by
    refine ⟨(before.filterMap x.links.owner).length, 1, (after.filterMap x.links.owner).length, ?_⟩
    rw [horder, List.filterMap_append, List.filterMap_cons_some howner, List.map_append, List.map_cons, hkey,
      map_key_owners hbefore, map_key_owners hafter, List.replicate_one, List.append_assoc, List.singleton_append]
  rcases h.locate_range hanswers hblocks s with ⟨i, hi, e', howner', hkey', hresult⟩ | ⟨hmissed, -⟩
  · rw [horder, List.mem_append, List.mem_cons] at hi
    rcases hi with hi | rfl | hi
    · exact absurd (hkey'.symm.trans (hbefore i hi e' howner')) (by simp)
    · exact hresult
    · exact absurd (hkey'.symm.trans (hafter i hi e' howner')) (by simp)
  · exact absurd hkey (hmissed l (by simp [horder]) e howner)

/--
What a search for a range finds in a tree with some elements: the cursor on a link with a match and the match itself,
wherever they are in the tree; the end and no element if there is no match. An element that an insertion links by
the same comparator, if it is a match, is what a search finds after it.
-/
structure FindsRange (x : LinkedTree α n) (c : Comparator σ α) (key : α → Ordering) (elements : List α) : Prop where
  found : ∀ s, (∃ e ∈ elements, key e = .eq) → ∃ l e, x.find c s = .ok (.on l) ∧
    x.findElement c s = .ok (some e) ∧ x.owns l = .ok true ∧ x.links.owner l = some e ∧ e ∈ elements ∧ key e = .eq
  missed : ∀ s, (∀ e ∈ elements, key e ≠ .eq) → x.find c s = .ok x.endCursor ∧ x.findElement c s = .ok none
  joined : ∀ s supply l e, x.owns l = .ok false → (x.insert c s supply).outcome.state.owns l = .ok true →
    x.links.owner l = some e → c.AnswersAmong key [e] → key e = .eq →
      ∀ s', (x.insert c s supply).outcome.state.find c s' = .ok (.on l) ∧
        (x.insert c s supply).outcome.state.findElement c s' = .ok (some e)
  reported : ∀ s supply l, (x.insert c s supply).outcome.result = .ok ⟨.on l, true⟩ →
    x.owns l = .ok false ∧ (x.insert c s supply).outcome.state.owns l = .ok true

end LinkedTree

namespace World

variable {w : World α n m} {ts : Fin m → Shape n} {k : Fin m} {c : Comparator σ α} {s : σ}
  {supply : Except String (Option α)} {l : LinkId n}

/-- A link that a tree owns after an insertion only has been linked at the end of the way that the search took. -/
theorem Sound.insert_joined (h : w.Sound ts) (hout : (w.tree k).owns l = .ok false)
    (hin : ((w.tree k).insert c s supply).outcome.state.owns l = .ok true) :
    ∃ fs as s' u, w.links.Trail c s fs as s' ∧ ts k = .plug fs .empty ∧
      ((w.tree k).insert c s supply).outcome.state.Threads u ∧
      u.inorder = Shape.linksBefore fs ++ l :: Shape.linksAfter fs ∧
      ∀ i, ((w.tree k).insert c s supply).outcome.state.links.owner i = w.links.owner i := by
  obtain ⟨u, hm⟩ := h.insert_moves k c s supply
  have howns := (hm.sound h).owns_eq k l
  have hends := (h.threads k).inserts c s supply
  rw [tree_put_self, Function.update_self, hin] at howns
  have hmem : l ∈ u.inorder := of_decide_eq_true (Except.ok.inj howns).symm
  have hnot : l ∉ (ts k).inorder := of_decide_eq_false (Except.ok.inj ((h.owns_eq k l).symm.trans hout))
  have howner := hm.edit.owner
  generalize (w.tree k).insert c s supply = r at hends hm howner ⊢
  cases hends with
  | @linked fs as _ a g htrail hplace _ _ hthreads hedit =>
    obtain rfl := hm.threads.unique hthreads
    have horder := Shape.inorder_grown_leaf fs ((w.tree k).tree.linkOf a)
    obtain rfl : l = (w.tree k).tree.linkOf a := by
      rw [hplace, Shape.inorder_plug_empty, List.mem_append] at hnot
      rw [horder, List.mem_append, List.mem_cons] at hmem
      tauto
    exact ⟨fs, as, _, _, htrail, hplace, hthreads, horder, howner⟩
  | _ => exact absurd ((h.threads k).unique hm.threads ▸ hmem) hnot

/-- An insertion reports the cursor on a link that the tree had not owned, and owns now. -/
theorem Sound.owns_of_inserted (h : w.Sound ts)
    (hresult : ((w.tree k).insert c s supply).outcome.result = .ok ⟨.on l, true⟩) :
    (w.tree k).owns l = .ok false ∧ ((w.tree k).insert c s supply).outcome.state.owns l = .ok true := by
  obtain ⟨u, hm⟩ := h.insert_moves k c s supply
  have howns := (hm.sound h).owns_eq k l
  have hends := (h.threads k).inserts c s supply
  rw [tree_put_self, Function.update_self] at howns
  rw [howns, h.owns_eq]
  generalize (w.tree k).insert c s supply = r at hends hm hresult
  cases hends with
  | @linked fs as _ a g _ _ _ hjoins hthreads _ =>
    obtain rfl := hm.threads.unique hthreads
    have hlink : (w.tree k).tree.linkOf a = l := by
      cases hcheck : (((w.tree k).resized g 1).checkAfter .insert).result with
      | error e => simp [hcheck, Except.map] at hresult
      | ok _ => simpa [hcheck, Except.map, Cursor.on] using hresult
    have hin : l ∈ (Shape.grown fs (.node .empty ((w.tree k).tree.linkOf a) .empty)).2.inorder := by
      rw [Shape.inorder_grown, hlink]
      exact Shape.link_mem_inorder_plug fs .empty l .empty
    have hout := ((h.refuses?_eq_none_iff _).mp hjoins).2.2 k
    rw [hlink] at hout
    exact ⟨by rw [decide_eq_false hout], by rw [decide_eq_true hin]⟩
  | _ => cases hresult

/-- A match that an insertion links is what its comparator finds from then on. -/
theorem Sound.locate_joined (h : w.Sound ts) {key : α → Ordering} {e : α}
    (hanswers : c.AnswersAmong key ((ts k).inorder.filterMap w.links.owner))
    (hblocks : InBlocks (((ts k).inorder.filterMap w.links.owner).map key))
    (hout : (w.tree k).owns l = .ok false)
    (hin : ((w.tree k).insert c s supply).outcome.state.owns l = .ok true) (howner : w.links.owner l = some e)
    (hanswer : c.AnswersAmong key [e]) (hkey : key e = .eq) (s' : σ) :
    ((w.tree k).insert c s supply).outcome.state.find c s' = .ok (.on l) ∧
      ((w.tree k).insert c s supply).outcome.state.findElement c s' = .ok (some e) := by
  obtain ⟨fs, as, _, u, htrail, hplace, hthreads, horder, hsame⟩ := h.insert_joined hout hin
  rw [hplace] at hanswers hblocks
  obtain ⟨hbefore, hafter⟩ := htrail.blocks hanswers hblocks
  have hamong : c.AnswersAmong key
      (u.inorder.filterMap ((w.tree k).insert c s supply).outcome.state.links.owner) := by
    intro a ha
    obtain ⟨i, hi, ha⟩ := List.mem_filterMap.mp ha
    rw [hsame] at ha
    rw [horder, List.mem_append, List.mem_cons] at hi
    by_cases hil : i = l
    · obtain rfl : a = e := Option.some.inj (ha.symm.trans (hil ▸ howner))
      exact hanswer a (by simp)
    · have hi' : i ∈ (Shape.plug fs .empty).inorder := by
        rw [Shape.inorder_plug_empty, List.mem_append]
        tauto
      exact hanswers a (List.mem_filterMap.mpr ⟨i, hi', ha⟩)
  have hlocate := hthreads.locate_between horder ((hsame l).trans howner) hkey
    (fun i hi a ha => hbefore i hi a ((hsame i).symm.trans ha))
    (fun i hi a ha => hafter i hi a ((hsame i).symm.trans ha)) hamong s'
  obtain ⟨hfind, hfindElement⟩ := LinkedTree.find_of_locate hlocate
  exact ⟨hfind, hfindElement.trans (congrArg _ ((hsame l).trans howner))⟩

/-- In a sound world, a search whose answers are in blocks finds a match if there is one. -/
theorem Sound.findsRange (h : w.Sound ts) {key : α → Ordering}
    (hanswers : c.AnswersAmong key ((ts k).inorder.filterMap w.links.owner))
    (hblocks : InBlocks (((ts k).inorder.filterMap w.links.owner).map key)) :
    (w.tree k).FindsRange c key ((ts k).inorder.filterMap w.links.owner) := by
  have hrange := (h.threads k).locate_range hanswers hblocks
  -- the fields about insertions are the two lemmas above; what is left is the search itself
  refine ⟨?_, ?_, fun s supply l e => h.locate_joined hanswers hblocks, fun s supply l => h.owns_of_inserted⟩
  · rintro s ⟨e, he, hkey⟩
    rcases hrange s with ⟨l, hl, e', howner, hkey', hresult⟩ | ⟨hmissed, -⟩
    · obtain ⟨hfind, hfindElement⟩ := LinkedTree.find_of_locate hresult
      rw [howner] at hfindElement
      refine ⟨l, e', hfind, hfindElement, ?_, howner, List.mem_filterMap.mpr ⟨l, hl, howner⟩, hkey'⟩
      rw [h.owns_eq, decide_eq_true hl]
    · obtain ⟨l, hl, howner⟩ := List.mem_filterMap.mp he
      exact absurd hkey (hmissed l hl e howner)
  · intro s hmissed
    rcases hrange s with ⟨l, hl, e, howner, hkey, -⟩ | ⟨-, hresult⟩
    · exact absurd hkey (hmissed e (List.mem_filterMap.mpr ⟨l, hl, howner⟩))
    · rw [LinkedTree.find, LinkedTree.findElement, hresult]
      exact ⟨rfl, rfl⟩

/--
After any requests to the trees of a fresh world, whatever their comparators were, a search by a comparator whose
answers along a tree's order are in blocks finds a match if there is one.
-/
theorem ranges_run {w : World α n m} (h : w.Fresh) (rs : List (Fin m × Request α n)) (k : Fin m) :
    ∃ elements, ((w.run rs).tree k).toList = .ok elements ∧
      ∀ {σ : Type} (c : Comparator σ α) (key : α → Ordering), c.AnswersAmong key elements →
        InBlocks (elements.map key) → ((w.run rs).tree k).FindsRange c key elements := by
  obtain ⟨ts, hsound⟩ := sound_run h rs
  exact ⟨_, (hsound.threads k).collect_eq .right, fun c key => hsound.findsRange⟩

/--
In a tree of the first and the last of three elements, a comparator that matches all elements finds one of them. One
that matches only the element between them finds nothing, links that element if it is supplied, and finds it from then
on.
-/
theorem ranges_run_outer :
    (single 3).Fresh ∧
      (∃ e, (((single 3).run (insertEach [0, 2])).tree 0).findElement (.ofOrdering fun _ => .eq) () = .ok (some e)) ∧
      (((single 3).run (insertEach [0, 2])).tree 0).findElement (.ofOrdering (compare 1)) () = .ok none ∧
      ((((single 3).run (insertEach [0, 2])).tree 0).insert (.ofOrdering (compare 1)) ()
        (.ok (some 1))).outcome.state.findElement (.ofOrdering (compare 1)) () = .ok (some 1) := by
  obtain ⟨elements, hlist, hranges⟩ := ranges_run (fresh_single 3) (insertEach [0, 2]) 0
  have helements : (((single 3).run (insertEach [0, 2])).tree 0).toList = .ok [0, 2] := by decide +kernel
  obtain rfl := Except.ok.inj (helements.symm.trans hlist)
  have hanswers : ∀ (key : Fin 3 → Ordering) es, (Comparator.ofOrdering key).AnswersAmong key es :=
    fun key es a _ s => ⟨(), rfl⟩
  have hall := hranges (.ofOrdering fun _ => .eq) _ (hanswers _ _) ⟨0, 2, 0, by decide⟩
  have hbetween := hranges (.ofOrdering (compare 1)) _ (hanswers _ _) ⟨1, 0, 1, by decide⟩
  obtain ⟨-, e, -, hfound, -⟩ := hall.found () ⟨0, by simp⟩
  obtain ⟨hout, hin⟩ := hbetween.reported () (.ok (some 1)) 2 (by decide +kernel)
  exact ⟨fresh_single 3, ⟨e, hfound⟩, (hbetween.missed () (by decide)).2,
    (hbetween.joined () (.ok (some 1)) 2 1 hout hin (by decide +kernel) (hanswers _ _) (by decide) ()).2⟩

end World

end BalancedLinks
