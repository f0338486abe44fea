import BalancedLinks.Proofs.Transparency
import Mathlib.Data.Set.Card
import Mathlib.Order.Comparable

/-!
# Loads by an order

A load compares its values with a boolean order: where neither of two elements comes before the other, they are
equivalent, and only the first of them goes in. For a strict weak order the tree holds then, besides the elements that
it held, the first value of each class that was not represented, in order; the count is the number of these
classes, and no other element's links are touched.

The main statement is `World.loads_run`.
-/

set_option autoImplicit false

namespace BalancedLinks

variable {α : Type} {n m : Nat} {lt : α → α → Prop}

/-! ## Classes -/

/-- The class of an element: the elements that come neither before nor after it. -/
def classOf (lt : α → α → Prop) (a : α) : Set α :=
  {b | IncompRel lt a b}

/-- The classes of the elements of a list. -/
def classes (lt : α → α → Prop) (as : List α) : Set (Set α) :=
  classOf lt '' {a | a ∈ as}

/-- An empty list represents no class. -/
theorem classes_nil : classes lt [] = ∅ := by
  simp [classes]

/-- One more element adds its class. -/
theorem classes_cons (a : α) (as : List α) : classes lt (a :: as) = insert (classOf lt a) (classes lt as) := by
  have hmembers : {b | b ∈ a :: as} = insert a {b | b ∈ as} := by
    ext b
    simp
  rw [classes, hmembers, Set.image_insert_eq, classes]

/-- A list represents finitely many classes. -/
theorem finite_classes (as : List α) : (classes lt as).Finite :=
  (List.finite_toSet as).image _

/-- Which classes are represented does not depend on the order of a list. -/
theorem classes_congr {as bs : List α} (h : ∀ a, a ∈ as ↔ a ∈ bs) : classes lt as = classes lt bs := by
  simp only [classes, h]

section Order

variable [IsStrictWeakOrder α lt]

/-- Two elements that are equivalent to a third one are equivalent, as the order is a weak one. -/
theorem incompRel_trans {a b c : α} (hab : IncompRel lt a b) (hbc : IncompRel lt b c) : IncompRel lt a c :=
  IsStrictWeakOrder.incomp_trans a b c hab hbc

/-- Two elements have one class exactly if they are equivalent. -/
theorem classOf_eq_iff {a b : α} : classOf lt a = classOf lt b ↔ IncompRel lt a b := by
  constructor
  · intro heq
    have hmem : b ∈ classOf lt b := IncompRel.refl lt b
    rwa [← heq] at hmem
  · intro hab
    ext c
    exact ⟨fun hac => incompRel_trans hab.symm hac, fun hbc => incompRel_trans hab hbc⟩

/-- A class is represented in a list exactly if the list has an element equivalent to one of the class. -/
theorem classOf_mem_classes_iff {a : α} {as : List α} :
    classOf lt a ∈ classes lt as ↔ ∃ b ∈ as, IncompRel lt a b := by
  constructor
  · rintro ⟨b, hb, heq⟩
    exact ⟨b, hb, classOf_eq_iff.mp heq.symm⟩
  · rintro ⟨b, hb, hab⟩
    exact ⟨b, hb, (classOf_eq_iff.mpr hab).symm⟩

end Order

namespace SortedList

/-- Whether an element is the first of its class in a list of values, and the class is not represented in another. -/
def IsFirst (lt : α → α → Prop) (as values : List α) (a : α) : Prop :=
  ∃ before after, values = before ++ a :: after ∧ ∀ b ∈ as ++ before, ¬ IncompRel lt a b

/-- Among no values none is the first. -/
theorem not_isFirst_nil {as : List α} {a : α} : ¬ IsFirst lt as [] a := by
  rintro ⟨before, after, hsplit, -⟩
  simp at hsplit

/-- The first of some values is the first of its class where the class is not represented; others come later. -/
theorem isFirst_cons_iff {as values : List α} {value a : α} :
    IsFirst lt as (value :: values) a ↔
      (a = value ∧ ∀ b ∈ as, ¬ IncompRel lt a b) ∨ IsFirst lt (value :: as) values a := by
  constructor
  · rintro ⟨before, after, hsplit, hnew⟩
    cases before with
    | nil =>
      obtain ⟨rfl, rfl⟩ := List.cons.inj hsplit
      exact Or.inl ⟨rfl, by simpa using hnew⟩
    | cons _ before =>
      obtain ⟨rfl, rfl⟩ := List.cons.inj hsplit
      refine Or.inr ⟨before, after, rfl, fun b hb => hnew b ?_⟩
      simp only [List.cons_append, List.mem_cons, List.mem_append] at hb ⊢
      tauto
  · rintro (⟨rfl, hnew⟩ | ⟨before, after, rfl, hnew⟩)
    · exact ⟨[], values, rfl, by simpa using hnew⟩
    · refine ⟨value :: before, after, rfl, fun b hb => hnew b ?_⟩
      simp only [List.cons_append, List.mem_cons, List.mem_append] at hb ⊢
      tauto

/-- Which values are firsts depends on the classes represented alone. -/
theorem isFirst_congr [IsStrictWeakOrder α lt] {as bs values : List α} {a : α}
    (h : classes lt as = classes lt bs) : IsFirst lt as values a ↔ IsFirst lt bs values a := by
  have hnew : ∀ cs before : List α, (∀ b ∈ cs ++ before, ¬ IncompRel lt a b) ↔
      classOf lt a ∉ classes lt cs ∧ ∀ b ∈ before, ¬ IncompRel lt a b := by
    intro cs before
    rw [classOf_mem_classes_iff]
    simp only [List.mem_append, or_imp, forall_and, not_exists, not_and]
  simp only [IsFirst, hnew, h]

/-- Where an element is inserted has no part in the classes. -/
theorem classes_insert (lt : α → α → Prop) (key : α → Ordering) (as : List α) (a : α) :
    classes lt (insert key a as) = classes lt (a :: as) :=
  classes_congr fun b => by rw [mem_insert, List.mem_cons]

section Loading

variable [IsStrictWeakOrder α lt] [DecidableRel lt] {as values : List α} {value : α}

/-- A value is not found exactly if its class is not represented. -/
theorem find_eq_none_iff_class : find (triState lt value) as = none ↔ classOf lt value ∉ classes lt as := by
  rw [find_eq_none_iff, classOf_mem_classes_iff]
  simp only [ne_eq, triState_eq_eq_iff, IncompRel, not_exists, not_and]

/-- A value that is found adds no class. -/
theorem classes_cons_of_find {b : α} (h : find (triState lt value) as = some b) :
    classes lt (value :: as) = classes lt as := by
  have hmem : classOf lt value ∈ classes lt as := by
    by_contra hnew
    rw [find_eq_none_iff_class.mpr hnew] at h
    cases h
  rw [classes_cons, Set.insert_eq_of_mem hmem]

/-- After a load the classes of its values are represented, and those that were before. -/
theorem classes_load (as values : List α) :
    classes lt (load lt as values).1 = classes lt as ∪ classes lt values := by
  induction values generalizing as with
  | nil => simp [load, classes_nil]
  | cons value values ih =>
    unfold load
    cases hfind : find (triState lt value) as with
    | some b =>
      have hold := classes_cons_of_find hfind
      simp only [ih]
      rw [← hold, classes_cons, classes_cons, Set.union_insert, Set.insert_union, Set.insert_idem]
    | none => simp only [ih, classes_insert, classes_cons, Set.union_insert, Set.insert_union]

/-- A load counts the classes of its values that were not represented before. -/
theorem count_load (as values : List α) :
    (load lt as values).2 = (classes lt values \ classes lt as).ncard := by
  induction values generalizing as with
  | nil => simp [load, classes_nil]
  | cons value values ih =>
    unfold load
    cases hfind : find (triState lt value) as with
    | some b =>
      have hold := classes_cons_of_find hfind
      rw [classes_cons] at hold
      simp only [ih, classes_cons, Set.insert_sdiff_of_mem _ (hold ▸ Set.mem_insert _ _)]
    | none =>
      have hnew := find_eq_none_iff_class.mp hfind
      have hsplit : classes lt (value :: values) \ classes lt as =
          Insert.insert (classOf lt value) (classes lt values \ classes lt (value :: as)) := by
        rw [classes_cons, classes_cons]
        ext C
        simp only [Set.mem_sdiff, Set.mem_insert_iff, not_or]
        constructor
        · tauto
        · rintro (rfl | ⟨hC, -, hold⟩)
          · exact ⟨Or.inl rfl, hnew⟩
          · exact ⟨Or.inr hC, hold⟩
      have hout : classOf lt value ∉ classes lt values \ classes lt (value :: as) := by simp [classes_cons]
      simp only [ih, classes_insert, hsplit]
      rw [Set.ncard_insert_of_notMem hout (finite_classes values).sdiff]

/-- After a load there are the elements that were there, and the firsts of its values. -/
theorem mem_load_iff {a : α} : a ∈ (load lt as values).1 ↔ a ∈ as ∨ IsFirst lt as values a := by
  induction values generalizing as with
  | nil => simp [load, not_isFirst_nil]
  | cons value values ih =>
    unfold load
    cases hfind : find (triState lt value) as with
    | some b =>
      have hmem : b ∈ as := List.mem_of_find?_eq_some hfind
      have hequivalent : IncompRel lt value b :=
        (triState_eq_eq_iff value b).mp (by simpa using List.find?_some hfind)
      have hnot : ¬ (a = value ∧ ∀ b ∈ as, ¬ IncompRel lt a b) := by
        rintro ⟨rfl, hnew⟩
        exact hnew b hmem hequivalent
      simp only [ih, isFirst_cons_iff, isFirst_congr (classes_cons_of_find hfind), hnot, false_or]
    | none =>
      have hnew : ∀ b ∈ as, ¬ IncompRel lt value b := by
        intro b hb hequivalent
        exact find_eq_none_iff.mp hfind b hb ((triState_eq_eq_iff value b).mpr hequivalent)
      have hfirst : (a = value ∧ ∀ b ∈ as, ¬ IncompRel lt a b) ↔ a = value :=
        ⟨And.left, fun heq => ⟨heq, heq ▸ hnew⟩⟩
      simp only [ih, mem_insert, isFirst_congr (classes_insert lt _ as value), isFirst_cons_iff, hfirst]
      tauto

end Loading

end SortedList

/-! ## Trees that show a sorted list -/

/-- Whether a tree that checks itself by an order of its own does so in agreement with an order of some elements. -/
def Tree.ChecksAmong (t : Tree α n) (lt : α → α → Prop) (elements : List α) : Prop :=
  t.verify = true → ∀ f, t.order = some f → ∀ a ∈ elements, ∀ b ∈ elements, lt a b → f a b = .lt

namespace LinkedTree

/-- Whether a tree threads a shape whose elements are a sorted list; a selector has no part in that. -/
structure Shows (x : LinkedTree α n) (lt : α → α → Prop) (t : Shape n) (as : List α) : Prop where
  threads : x.Threads t
  elements : t.inorder.filterMap x.links.owner = as
  sorted : as.Pairwise lt

/-- Whether a change only adds links to a tree's shape: none leaves it, and no other link is touched. -/
structure Extends (x y : LinkedTree α n) (t u : Shape n) : Prop where
  mem : ∀ l ∈ t.inorder, l ∈ u.inorder
  edit : Links.Edit x.links y.links x.origin .left u.inorder

namespace Extends

variable {x y z : LinkedTree α n} {t u v : Shape n}

/-- A tree extends itself. -/
theorem refl (x : LinkedTree α n) (t : Shape n) : x.Extends x t t :=
  ⟨fun _ hl => hl, .refl _ _ _ _⟩

/-- A change that only adds may follow another one. -/
theorem trans (h : x.Extends y t u) (halike : x.Alike y) (h' : y.Extends z u v) : x.Extends z t v := by
  refine ⟨fun l hl => h'.mem l (h.mem l hl), ?_⟩
  have hedit := h'.edit
  rw [halike.origin_eq] at hedit
  exact (h.edit.mono h'.mem).trans hedit

end Extends

namespace Shows

variable {x : LinkedTree α n} {t u : Shape n} {as bs elements : List α} {σ : Type} {c : Comparator σ α}
  {key : α → Ordering} {s₀ s : σ} {fs : List (Frame n)} {seen : List α} {value : α}

/-- A tree lists the elements that it shows. -/
theorem toList_eq (h : x.Shows lt t as) : x.toList = .ok as :=
  h.elements ▸ h.threads.collect_eq .right

/-- The size is the number of the elements. -/
theorem size_eq (h : x.Shows lt t as) : x.tree.size = as.length := by
  have howned : ∀ l ∈ t.inorder, (x.links.owner l).isSome := by
    intro l hl
    obtain ⟨⟨a, ha⟩, -⟩ := h.threads.owned l hl
    rw [ha, Option.isSome_some]
  rw [h.threads.size, ← h.elements, List.filterMap_length_eq_length.mpr howned]

/-- The owner of each link of the shape is one of the elements. -/
theorem mem (h : x.Shows lt t as) {l : LinkId n} {a : α} (hl : l ∈ t.inorder) (ha : x.links.owner l = some a) :
    a ∈ as :=
  h.elements ▸ List.mem_filterMap.mpr ⟨l, hl, ha⟩

/-- The vacant place at which a search by a key arrives parts the list where the key belongs. -/
theorem parts (h : x.Shows lt (.plug fs .empty) as) (hanswers : c.Answers key) (hseeks : Seeks lt key)
    (htrail : x.links.Trail c s₀ fs seen s) :
    as = (Shape.linksBefore fs).filterMap x.links.owner ++ (Shape.linksAfter fs).filterMap x.links.owner ∧
      (∀ a ∈ (Shape.linksBefore fs).filterMap x.links.owner, key a = .gt) ∧
      ∀ a ∈ (Shape.linksAfter fs).filterMap x.links.owner, key a = .lt := by
  have hincrease : x.links.Increase lt (Shape.plug fs .empty).inorder :=
    (Links.increase_iff _ _ _).mpr (h.elements ▸ h.sorted)
  obtain ⟨hbefore, hafter⟩ := htrail.keys hanswers hseeks hincrease
  refine ⟨?_, ?_, ?_⟩
  · rw [← h.elements, Shape.inorder_plug_empty, List.filterMap_append]
  · intro a ha
    obtain ⟨l, hl, howner⟩ := List.mem_filterMap.mp ha
    exact hbefore l hl a howner
  · intro a ha
    obtain ⟨l, hl, howner⟩ := List.mem_filterMap.mp ha
    exact hafter l hl a howner

/-- An insertion by a key that the list has a match for changes nothing. -/
theorem insert_of_find {b : α} {supply : Except String (Option α)} (h : x.Shows lt t as)
    (hanswers : c.Answers key) (hseeks : Seeks lt key) (hfind : SortedList.find key as = some b) :
    ∃ l, (x.insert c s supply).outcome = .pure x ⟨.on l, false⟩ := by
  have hends := h.threads.inserts c s supply
  have hvacant : ∀ fs seen s', x.links.Trail c s fs seen s' → t ≠ .plug fs .empty := by
    rintro fs seen s' htrail rfl
    obtain ⟨rfl, hbefore, hafter⟩ := h.parts hanswers hseeks htrail
    rw [SortedList.find_append_eq_none hbefore hafter] at hfind
    cases hfind
  generalize x.insert c s supply = r at hends
  cases hends with
  | @found _ _ _ _ _ _ l => exact ⟨l, rfl⟩
  | failed _ _ _ hask => exact absurd hask (hanswers.ne_error _ _ _)
  | unsupplied htrail hplace | declined htrail hplace | refused htrail hplace | linked htrail hplace =>
    exact absurd hplace (hvacant _ _ _ htrail)

/-- The check after a change passes: the tree's own order, if it has one, agrees on the elements. -/
theorem checkAfter_eq (h : x.Shows lt t as) (hchecks : x.tree.ChecksAmong lt elements)
    (hmembers : ∀ a ∈ as, a ∈ elements) (change : Change) : x.checkAfter change = .pure x () := by
  apply h.threads.checkAfter_eq change
  intro hverify f hf
  rw [h.elements]
  exact (h.sorted.imp_of_mem fun ha hb => hchecks hverify f hf _ (hmembers _ ha) _ (hmembers _ hb)).isChain

/-- An insertion of an element that the list has no match for puts it in where it belongs. -/
theorem insert_of_none (h : x.Shows lt t as) (hanswers : c.Answers key) (hseeks : Seeks lt key)
    (hkey : key value = .eq) (hfind : SortedList.find key as = none) (hjoins : x.Joins value)
    (hchecks : x.tree.ChecksAmong lt elements)
    (hmembers : ∀ a ∈ SortedList.insert key value as, a ∈ elements) :
    (x.insert c s (.ok (some value))).outcome.result = .ok ⟨.on (x.tree.linkOf value), true⟩ ∧
      ∃ u, (x.insert c s (.ok (some value))).outcome.state.Shows lt u (SortedList.insert key value as) ∧
        x.Extends (x.insert c s (.ok (some value))).outcome.state t u := by
  have hends := h.threads.inserts c s (.ok (some value))
  have hmatch : ∀ l e, l ∈ t.inorder → x.links.owner l = some e → key e ≠ .eq := fun l e hl he =>
    SortedList.find_eq_none_iff.mp hfind e (h.mem hl he)
  generalize x.insert c s (.ok (some value)) = r at hends
  cases hends with
  | @found fs _ _ _ a b l e _ hplace howner hask =>
    have hl : l ∈ t.inorder := hplace ▸ Shape.link_mem_inorder_plug fs a l b
    exact absurd (hanswers.of_ask hask) (hmatch l e hl howner)
  | failed _ _ _ hask => exact absurd hask (hanswers.ne_error _ _ _)
  | unsupplied _ _ hsupplied | declined _ _ hsupplied => cases hsupplied
  | refused _ _ hsupplied hrefuse =>
    obtain rfl := Option.some.inj (Except.ok.inj hsupplied)
    cases hrefuse.symm.trans hjoins.refuses?_eq_none
  | @linked fs _ _ a g htrail hplace hsupplied _ hthreads hedit =>
    obtain rfl := Option.some.inj (Except.ok.inj hsupplied)
    subst hplace
    obtain ⟨rfl, hbefore, hafter⟩ := h.parts hanswers hseeks htrail
    have horder := Shape.inorder_grown_leaf fs (x.tree.linkOf value)
    have hshows : (x.resized g 1).Shows lt (Shape.grown fs (.node .empty (x.tree.linkOf value) .empty)).2
        (SortedList.insert key value ((Shape.linksBefore fs).filterMap x.links.owner ++
          (Shape.linksAfter fs).filterMap x.links.owner)) := by
      rw [SortedList.insert_append hbefore hafter]
      refine ⟨hthreads, ?_, SortedList.pairwise_insert hseeks h.sorted hbefore hafter hkey⟩
      have howner : ∀ l, (x.resized g 1).links.owner l = x.links.owner l := hedit.owner
      rw [horder, List.filterMap_congr fun l _ => howner l, List.filterMap_append,
        List.filterMap_cons_some hjoins.owner]
    have hgrown : ∀ l, l ∈ (Shape.grown fs (.node .empty (x.tree.linkOf value) .empty)).2.inorder ↔
        l ∈ x.tree.linkOf value :: (Shape.plug fs .empty).inorder := by
      intro l
      rw [horder, Shape.inorder_plug_empty, List.mem_append, List.mem_cons, List.mem_cons, List.mem_append]
      tauto
    refine ⟨?_, _, hshows, fun l hl => (hgrown l).mpr (List.mem_cons_of_mem _ hl),
      hedit.mono fun l hl => (hgrown l).mpr hl⟩
    rw [hshows.checkAfter_eq hchecks hmembers]
    rfl

/-- An element that is equivalent to none in the list can still join after a change that has only added links. -/
theorem joins_of_isFirst [IsStrictWeakOrder α lt] {y : LinkedTree α n} {values : List α} {a : α}
    (h : y.Shows lt u bs) (hownerless : x.links.owner x.origin = none) (halike : x.Alike y)
    (hextends : x.Extends y t u) (hfirst : SortedList.IsFirst lt bs values a) (hjoins : x.Joins a) : y.Joins a := by
  have howner := hjoins.owner
  refine hjoins.of_edit halike hextends.edit ?_ ?_
  · intro heq
    rw [heq, hownerless] at howner
    cases howner
  · intro hl
    obtain ⟨before, -, -, hnew⟩ := hfirst
    have hmem : a ∈ bs := h.mem hl ((hextends.edit.owner _).trans howner)
    exact hnew a (List.mem_append_left _ hmem) (IncompRel.refl lt a)

/-- A load by an order leaves the tree with the list that the load makes of its own, and counts what it has put in. -/
theorem load [IsStrictWeakOrder α lt] [DecidableRel lt] {less : Less σ α} {values : List α}
    (h : x.Shows lt t as) (hdecides : less.Decides lt) (hchecks : x.tree.ChecksAmong lt elements)
    (hmembers : ∀ a ∈ as, a ∈ elements) (hvalues : ∀ a ∈ values, a ∈ elements)
    (hjoins : ∀ a, SortedList.IsFirst lt as values a → x.Joins a) :
    (x.load less s values).result = .ok (SortedList.load lt as values).2 ∧
      ∃ u, (x.load less s values).state.Shows lt u (SortedList.load lt as values).1 ∧
        x.Extends (x.load less s values).state t u := by
  induction values generalizing x t as s with
  | nil => exact ⟨rfl, t, h, .refl x t⟩
  | cons value values ih =>
    have hanswers := hdecides.answers value
    have hseeks : Seeks lt (triState lt value) := seeks_triState value
    have hlater : ∀ a, SortedList.IsFirst lt (value :: as) values a → x.Joins a :=
      fun a ha => hjoins a (SortedList.isFirst_cons_iff.mpr (Or.inr ha))
    have hrest : ∀ a ∈ values, a ∈ elements := fun a ha => hvalues a (List.mem_cons_of_mem value ha)
    cases hfind : SortedList.find (triState lt value) as with
    -- the value is dropped, and the tree and the classes represented in it are as they were
    | some b =>
      obtain ⟨l, hinsert⟩ : ∃ l, (x.insert (less.comparator value) s (.ok (some value))).outcome =
          .pure x ⟨.on l, false⟩ := h.insert_of_find hanswers hseeks hfind
      generalize hr : x.insert (less.comparator value) s (.ok (some value)) = r at hinsert
      have hstate : r.outcome.state = x := by rw [hinsert, Outcome.pure]
      have hresult : r.outcome.result = .ok ⟨.on l, false⟩ := by rw [hinsert, Outcome.pure]
      have hsame := SortedList.classes_cons_of_find hfind
      obtain ⟨hcount, u, hshows, hextends⟩ := ih (s := r.state) h hchecks hmembers hrest
        fun a ha => hlater a ((SortedList.isFirst_congr hsame).mpr ha)
      rw [load_cons_of_ok hr hresult, SortedList.load, hfind]
      simp only [hstate, hcount]
      exact ⟨rfl, u, hshows, hextends⟩
    -- the value goes in, and its class is represented for the later values
    | none =>
      have hnew : ∀ b ∈ as, ¬ IncompRel lt value b := fun b hb hequivalent =>
        SortedList.find_eq_none_iff.mp hfind b hb ((triState_eq_eq_iff value b).mpr hequivalent)
      have hvalue : x.Joins value := hjoins value (SortedList.isFirst_cons_iff.mpr (Or.inl ⟨rfl, hnew⟩))
      have hmembers' : ∀ a ∈ SortedList.insert (triState lt value) value as, a ∈ elements := by
        intro a ha
        rcases SortedList.mem_insert.mp ha with rfl | ha
        · exact hvalues a (List.mem_cons_self ..)
        · exact hmembers a ha
      have hfirst := h.insert_of_none (s := s) hanswers hseeks (triState_self value) hfind hvalue hchecks hmembers'
      have halike := x.insert_alike (less.comparator value) s (.ok (some value))
      generalize hr : x.insert (less.comparator value) s (.ok (some value)) = r at hfirst halike
      obtain ⟨hresult, u, hshows, hextends⟩ := hfirst
      have hchecks' : r.outcome.state.tree.ChecksAmong lt elements := by
        rw [← halike]
        exact hchecks
      have hsame := SortedList.classes_insert lt (triState lt value) as value
      obtain ⟨hcount, v, hshows', hextends'⟩ := ih (s := r.state) hshows hchecks' hmembers' hrest
        fun a ha => hshows.joins_of_isFirst h.threads.ownerless halike hextends ha
          (hlater a ((SortedList.isFirst_congr hsame).mp ha))
      rw [load_cons_of_ok hr hresult, SortedList.load, hfind]
      simp only [hcount]
      exact ⟨rfl, v, hshows', hextends.trans halike hextends'⟩

end Shows

/--
What a load by an order comes to in a tree with some elements. The tree has these elements then, and of each class of
the values that was not represented the first value, in order; the classes are counted, and the size grows by as many.
Links that are not in the tree then are as they were, and so are all links of elements that are not.
-/
structure Loads (x : LinkedTree α n) (lt : α → α → Prop) (as values : List α)
    (o : Outcome (LinkedTree α n) Event Nat) : Prop where
  counted : o.result = .ok (classes lt values \ classes lt as).ncard
  size : o.state.tree.size = x.tree.size + (classes lt values \ classes lt as).ncard
  listed : ∃ bs, o.state.toList = .ok bs ∧ bs.Pairwise lt ∧
    (∀ b, b ∈ bs ↔ b ∈ as ∨ SortedList.IsFirst lt as values b) ∧
    classes lt bs = classes lt as ∪ classes lt values ∧
    ∀ l a, x.links.owner l = some a → a ∉ bs → o.state.links.get l = x.links.get l
  untouched : ∀ l, l ≠ x.origin → o.state.owns l = .ok false → o.state.links.get l = x.links.get l

end LinkedTree

namespace World

variable {w : World α n m} {ts : Fin m → Shape n} {k : Fin m} {as values : List α} {σ : Type} {less : Less σ α}

/-- In a sound world, a load by an order goes so. -/
theorem Sound.loads [IsStrictWeakOrder α lt] [DecidableRel lt] (h : w.Sound ts)
    (hlist : (w.tree k).toList = .ok as) (hsorted : as.Pairwise lt) (hdecides : less.Decides lt)
    (hchecks : (w.tree k).tree.ChecksAmong lt (as ++ values))
    (hjoins : ∀ a, SortedList.IsFirst lt as values a → (w.tree k).Joins a) (s : σ) :
    (w.tree k).Loads lt as values ((w.tree k).load less s values) := by
  have helements : (ts k).inorder.filterMap (w.tree k).links.owner = as :=
    Except.ok.inj (((h.threads k).collect_eq .right).symm.trans hlist)
  have hshows : (w.tree k).Shows lt (ts k) as := ⟨h.threads k, helements, hsorted⟩
  obtain ⟨hcount, u, hshows', -, hedit⟩ := hshows.load (s := s) hdecides hchecks
    (fun _ ha => List.mem_append_left values ha) (fun _ ha => List.mem_append_right as ha) hjoins
  have hlength : (SortedList.load lt as values).1.length = as.length + (SortedList.load lt as values).2 :=
    SortedList.length_load as values
  rw [SortedList.count_load] at hcount hlength
  refine ⟨hcount, ?_, ⟨_, hshows'.toList_eq, hshows'.sorted, fun _ => SortedList.mem_load_iff,
    SortedList.classes_load as values, ?_⟩, ?_⟩
  · rw [hshows'.size_eq, hlength, hshows.size_eq]
    exact Int.natCast_add _ _
  · intro l a howner hout
    refine hedit.outside l ?_ fun hl => hout (hshows'.mem hl ((hedit.owner l).trans howner))
    rintro rfl
    exact Option.some_ne_none a (howner.symm.trans (h.threads k).ownerless)
  · intro l horigin howns
    obtain ⟨v, hm⟩ := h.load_moves k less s values
    obtain rfl := hm.threads.unique hshows'.threads
    have hdecide := (hm.sound h).owns_eq k l
    rw [tree_put_self, Function.update_self, howns] at hdecide
    exact hedit.outside l horigin (of_decide_eq_false (Except.ok.inj hdecide).symm)

/--
After any requests to the trees of a fresh world, with any comparators, a load by a strict weak order goes so in each
tree whose elements strictly increase in it, as long as the first value of each new class can join, and a check that the
tree makes by itself agrees with the order. Which classes are represented after a load of an empty tree does not
depend on the order of the values.
-/
theorem loads_run {w : World α n m} (h : w.Fresh) (rs : List (Fin m × Request α n)) (k : Fin m)
    [IsStrictWeakOrder α lt] [DecidableRel lt] {σ : Type} {less : Less σ α} (s : σ) {as : List α} (values : List α)
    (hdecides : less.Decides lt) (hlist : ((w.run rs).tree k).toList = .ok as) (hsorted : as.Pairwise lt)
    (hchecks : ((w.run rs).tree k).tree.ChecksAmong lt (as ++ values))
    (hjoins : ∀ a, SortedList.IsFirst lt as values a → ((w.run rs).tree k).Joins a) :
    ((w.run rs).tree k).Loads lt as values (((w.run rs).tree k).load less s values) ∧
      (as = [] → ∀ values', values.Perm values' →
        (∀ a, SortedList.IsFirst lt [] values' a → ((w.run rs).tree k).Joins a) →
          ∃ bs bs', (((w.run rs).tree k).load less s values).state.toList = .ok bs ∧
            (((w.run rs).tree k).load less s values').state.toList = .ok bs' ∧ classes lt bs = classes lt bs') := by
  obtain ⟨ts, hsound⟩ := sound_run h rs
  have hloads := hsound.loads hlist hsorted hdecides hchecks hjoins s
  refine ⟨hloads, ?_⟩
  rintro rfl values' hperm hjoins'
  have hchecks' : ((w.run rs).tree k).tree.ChecksAmong lt ([] ++ values') := by
    intro hverify f hf a ha b hb
    exact hchecks hverify f hf a (hperm.mem_iff.mpr ha) b (hperm.mem_iff.mpr hb)
  have hloads' := hsound.loads hlist hsorted hdecides hchecks' hjoins' s
  obtain ⟨bs, hbs, -, -, hclasses, -⟩ := hloads.listed
  obtain ⟨bs', hbs', -, -, hclasses', -⟩ := hloads'.listed
  refine ⟨bs, bs', hbs, hbs', ?_⟩
  rw [hclasses, hclasses', classes_congr fun a => hperm.mem_iff]

/-- The order of four elements by halves: the first two are equivalent, and so are the last two. -/
def ByHalves (a b : Fin 4) : Prop :=
  a.val / 2 < b.val / 2

instance : DecidableRel ByHalves :=
  fun a b => inferInstanceAs (Decidable (a.val / 2 < b.val / 2))

instance : IsStrictWeakOrder (Fin 4) ByHalves where
  irrefl _ := Nat.lt_irrefl _
  trans _ _ _ := Nat.lt_trans
  incomp_trans a b c hab hbc := by
    simp only [ByHalves] at hab hbc ⊢
    omega

/--
A load into a tree of the second of these elements drops the first one, which is equivalent to it, and of the other two
the one that comes later. A load of an empty tree leaves both classes represented, whichever values come first.
-/
theorem loads_run_byHalves :
    (single 4).Fresh ∧
      (((single 4).run (insertEach [1])).tree 0).Loads ByHalves [1] [0, 3, 2, 3]
        ((((single 4).run (insertEach [1])).tree 0).load (.ofBool fun a b => decide (ByHalves a b)) () [0, 3, 2, 3]) ∧
      ((((single 4).run (insertEach [1])).tree 0).load (.ofBool fun a b => decide (ByHalves a b)) ()
        [0, 3, 2, 3]).state.toList = .ok [1, 3] ∧
      ∃ bs bs', ((((single 4).run []).tree 0).load (.ofBool fun a b => decide (ByHalves a b)) ()
          [0, 3, 2, 3]).state.toList = .ok bs ∧
        ((((single 4).run []).tree 0).load (.ofBool fun a b => decide (ByHalves a b)) ()
          [3, 2, 3, 0]).state.toList = .ok bs' ∧ classes ByHalves bs = classes ByHalves bs' := by
  have hdecides : (Less.ofBool fun a b => decide (ByHalves a b)).Decides ByHalves := fun _ _ _ => ⟨(), rfl⟩
  have hjoins : ∀ a, a ≠ 1 → (((single 4).run (insertEach [1])).tree 0).Joins a := by decide +kernel
  have hempty : ∀ a, (((single 4).run []).tree 0).Joins a := by decide +kernel
  have hnew : ∀ a, SortedList.IsFirst ByHalves [1] [0, 3, 2, 3] a → a ≠ 1 := by
    rintro a ⟨before, -, -, hnew⟩ rfl
    exact hnew 1 (by simp) (IncompRel.refl ByHalves 1)
  have hunchecked : ∀ rs elements, (((single 4).run rs).tree 0).tree.ChecksAmong ByHalves elements := by
    intro rs elements hverify
    have halike := ((single 4).run_alike rs 0).verify_eq
    cases halike.symm.trans hverify
  obtain ⟨hloads, -⟩ := loads_run (fresh_single 4) (insertEach [1]) 0 () [0, 3, 2, 3] hdecides (by decide +kernel)
    (by decide) (hunchecked _ _) fun a ha => hjoins a (hnew a ha)
  obtain ⟨-, hfrom⟩ := loads_run (fresh_single 4) [] 0 () [0, 3, 2, 3] hdecides (by decide +kernel)
    List.Pairwise.nil (hunchecked _ _) fun a _ => hempty a
  exact ⟨fresh_single 4, hloads, by decide +kernel, hfrom rfl [3, 2, 3, 0] (by decide) fun a _ => hempty a⟩

/--
A load by the order of the elements is stopped by such a check. And where one of the values has been linked before,
its link may change: another one comes to hang from it.
-/
theorem load_descending :
    (descending.Fresh ∧ (descending.tree 0).toList = .ok [] ∧ (∀ a, (descending.tree 0).Joins a) ∧
        ((descending.tree 0).load (.ofBool fun a b => decide (a < b)) () [0, 1]).result =
          .error (.violation .notIncreasing)) ∧
      (((single 2).run ((insertAll 2).take 1)).tree 0).toList = .ok [0] ∧
        (((single 2).run ((insertAll 2).take 1)).tree 0).Joins 1 ∧
        ((((single 2).run ((insertAll 2).take 1)).tree 0).load (.ofBool fun a b => decide (a < b)) ()
          [0, 1]).state.links.get 1 ≠ (((single 2).run ((insertAll 2).take 1)).tree 0).links.get 1 := by
  refine ⟨⟨(fresh_single 2).checking _ _, ?_, ?_, ?_⟩, ?_, ?_, ?_⟩
  all_goals decide +kernel

end World

end BalancedLinks
