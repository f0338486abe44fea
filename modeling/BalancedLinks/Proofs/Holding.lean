import BalancedLinks.Proofs.Listing
import BalancedLinks.Proofs.SortedList
import BalancedLinks.Proofs.Verifier

/-!
# Trees that hold a sorted list

`LinkedTree.Holds` relates a tree to a strictly sorted list: the tree threads the links of exactly the list's
elements, in the list's order. A search by a key of the order then finds what the list has for the key, an
insertion by one puts its element where the key belongs, and a load is the same for each of its values.

The main statements are `LinkedTree.Holds.locate_eq`, `LinkedTree.Holds.insert_eq` and
`LinkedTree.Holds.load_eq`.
-/

set_option autoImplicit false

namespace BalancedLinks

/-! ## Searches by a key -/

namespace Links

variable {σ α : Type} {n : Nat} {g : Links α n} {lt : α → α → Prop} {key : α → Ordering}

/-- Whether the owners of the links, in the order given, increase. -/
def Increase (g : Links α n) (lt : α → α → Prop) (ls : List (LinkId n)) : Prop :=
  ls.Pairwise fun k l => ∀ a b, g.owner k = some a → g.owner l = some b → lt a b

/--
A frame that a search passes parts the elements of an increasing shape: what the answers say of the elements
that the search passes on either side holds of all elements further out on that side.
-/
theorem frame_parts {P Q : α → Prop} {f : Frame n} {x : α} {answer : Ordering}
    (hdown : ∀ a b, lt a b → P b → P a) (hup : ∀ a b, lt a b → Q a → Q b) (howner : g.owner f.link = some x)
    (hP : answer = .gt → P x) (hQ : answer = .lt → Q x) (hdiffers : answer ≠ .eq)
    (hside : f.side = sideTowards answer)
    (hbefore : g.Increase lt f.before) (hafter : g.Increase lt f.after) :
    (∀ l ∈ f.before, ∀ a, g.owner l = some a → P a) ∧ ∀ l ∈ f.after, ∀ a, g.owner l = some a → Q a := by
  obtain ⟨s, l, rest⟩ := f
  cases answer with
  | eq => exact absurd rfl hdiffers
  | lt =>
    obtain rfl : s = .left := hside
    simp only [Frame.before, Frame.after, Increase, List.pairwise_cons] at hafter ⊢
    refine ⟨by simp, ?_⟩
    intro k hk a ha
    rcases List.mem_cons.mp hk with rfl | hk
    · obtain rfl := Option.some.inj (ha.symm.trans howner)
      exact hQ rfl
    · exact hup x a (hafter.1 k hk x a howner ha) (hQ rfl)
  | gt =>
    obtain rfl : s = .right := hside
    simp only [Frame.before, Frame.after, Increase, List.pairwise_append, List.mem_singleton] at hbefore ⊢
    refine ⟨?_, by simp⟩
    intro k hk a ha
    rcases List.mem_append.mp hk with hk | hk
    · exact hdown a x (hbefore.2.2 k hk l rfl a x ha howner) (hP rfl)
    · obtain rfl := List.mem_singleton.mp hk
      obtain rfl := Option.some.inj (ha.symm.trans howner)
      exact hP rfl

/-- The way of a search through an increasing shape parts its elements by what the answers say of them. -/
theorem Trail.parts {P Q : α → Prop} {c : Comparator σ α} {s₀ s : σ} {fs : List (Frame n)} {as : List α}
    {t : Shape n} (h : Trail g c s₀ fs as s) (hdown : ∀ a b, lt a b → P b → P a)
    (hup : ∀ a b, lt a b → Q a → Q b) (hP : ∀ s a s', c.ask s a = .ok (.gt, s') → P a)
    (hQ : ∀ s a s', c.ask s a = .ok (.lt, s') → Q a) (hincrease : g.Increase lt (Shape.plug fs t).inorder) :
    (∀ l ∈ Shape.linksBefore fs, ∀ a, g.owner l = some a → P a) ∧
      ∀ l ∈ Shape.linksAfter fs, ∀ a, g.owner l = some a → Q a := by
  induction h generalizing t with
  | nil => simp [Shape.linksBefore, Shape.linksAfter]
  | @cons f fs as a s s' answer _ howner hask hdiffers hside ih =>
    obtain ⟨hbefore, hafter⟩ := ih (t := f.fill t) hincrease
    rw [Shape.plug_cons, Shape.inorder_plug, Frame.inorder_fill] at hincrease
    have hmiddle := (List.pairwise_append.mp (List.pairwise_append.mp hincrease).1).2.1
    obtain ⟨hfirst, hlast, -⟩ := List.pairwise_append.mp hmiddle
    obtain ⟨hb, ha⟩ := frame_parts hdown hup howner (fun hgt => hP s a s' (hgt ▸ hask))
      (fun hlt => hQ s a s' (hlt ▸ hask)) hdiffers hside (List.pairwise_append.mp hfirst).1 hlast
    simp only [Shape.linksBefore, Shape.linksAfter, List.mem_append]
    constructor
    · intro l hl
      exact hl.elim (hbefore l) (hb l)
    · intro l hl
      exact hl.elim (ha l) (hafter l)

/-- The way of a search by a key leads to where the key belongs. -/
theorem Trail.keys {c : Comparator σ α} {s₀ s : σ} {fs : List (Frame n)} {as : List α} {t : Shape n}
    (h : Trail g c s₀ fs as s) (hanswers : c.Answers key) (hseeks : Seeks lt key)
    (hincrease : g.Increase lt (Shape.plug fs t).inorder) :
    (∀ l ∈ Shape.linksBefore fs, ∀ a, g.owner l = some a → key a = .gt) ∧
      ∀ l ∈ Shape.linksAfter fs, ∀ a, g.owner l = some a → key a = .lt := by
  refine h.parts ?_ ?_ (fun _ _ _ => hanswers.of_ask) (fun _ _ _ => hanswers.of_ask) hincrease
  · intro a b hab hb
    exact (hseeks.apart a b hab).resolve_right (by simp [hb])
  · intro a b hab ha
    exact (hseeks.apart a b hab).resolve_left (by simp [ha])

end Links

/-! ## Trees and lists -/

variable {α : Type} {n : Nat} {lt : α → α → Prop}

/-- Whether a tree that checks itself by an order of its own does so in agreement with an order. -/
def Tree.ChecksBy (t : Tree α n) (lt : α → α → Prop) : Prop :=
  t.verify = true → ∀ f, t.order = some f → ∀ a b, lt a b → f a b = .lt

/-- The cursor on an element, or the end. -/
def Tree.cursorOn (t : Tree α n) : Option α → Cursor n
  | none => .on t.origin
  | some a => .on (t.linkOf a)

/-- What an insertion by a key makes of a list, and what it replies. -/
def Tree.insertion (t : Tree α n) (key : α → Ordering) (supply : Except String (Option α)) (as : List α) :
    List α × Except Failure (Placement n) :=
  match SortedList.find key as, supply with
  | some a, _ => (as, .ok ⟨t.cursorOn (some a), false⟩)
  | none, .error message => (as, .error (.callback message))
  | none, .ok none => (as, .ok ⟨t.cursorOn none, false⟩)
  | none, .ok (some a) => (SortedList.insert key a as, .ok ⟨t.cursorOn (some a), true⟩)

/-- The insertion of a value by the order is one step of a load. -/
theorem Tree.exists_insertion_eq (t : Tree α n) (lt : α → α → Prop) [IsStrictWeakOrder α lt] [DecidableRel lt]
    (as : List α) (value : α) :
    ∃ bs placement, t.insertion (triState lt value) (.ok (some value)) as = (bs, .ok placement) ∧
      (∀ values, SortedList.load lt as (value :: values) = ((SortedList.load lt bs values).1,
        if placement.inserted then (SortedList.load lt bs values).2 + 1
        else (SortedList.load lt bs values).2)) ∧
      (∀ a ∈ as, a ∈ bs) ∧ ∃ b ∈ bs, triState lt value b = .eq := by
  cases hfind : SortedList.find (triState lt value) as with
  | some b =>
    have hb : b ∈ as := List.mem_of_find?_eq_some hfind
    have hkey : triState lt value b = .eq := by simpa using List.find?_some hfind
    refine ⟨as, ⟨t.cursorOn (some b), false⟩, by simp only [insertion, hfind], ?_, fun a ha => ha, b, hb,
      hkey⟩
    intro values
    simp only [SortedList.load, hfind]
    rfl
  | none =>
    refine ⟨SortedList.insert (triState lt value) value as, ⟨t.cursorOn (some value), true⟩,
      by simp only [insertion, hfind], ?_, ?_, value, SortedList.mem_insert.mpr (Or.inl rfl),
      triState_self value⟩
    · intro values
      simp only [SortedList.load, hfind]
      rfl
    · intro a ha
      exact SortedList.mem_insert.mpr (Or.inr ha)

namespace LinkedTree

/-- Whether a tree holds exactly the elements of a strictly sorted list, in the list's order. -/
structure Holds (x : LinkedTree α n) (lt : α → α → Prop) (as : List α) : Prop where
  order : ∃ t, x.Threads t ∧ t.inorder = as.map x.tree.linkOf
  own : ∀ a ∈ as, x.links.owner (x.tree.linkOf a) = some a
  sorted : as.Pairwise lt
  checks : x.tree.ChecksBy lt

/-- Whether an element can join a tree: its link is its own, carries the tree's tag and is not linked. -/
structure Joins (x : LinkedTree α n) (a : α) : Prop where
  owner : x.links.owner (x.tree.linkOf a) = some a
  tag : x.links.tag (x.tree.linkOf a) = x.tree.tag
  parent : x.links.parent (x.tree.linkOf a) = none
  child : ∀ s, x.links.child (x.tree.linkOf a) s = none

/-- The link of an element that can join is not refused. -/
theorem Joins.refuses?_eq_none {x : LinkedTree α n} {a : α} (h : x.Joins a) :
    x.refuses? (x.tree.linkOf a) = none :=
  (refuses?_eq_none_iff _).mpr ⟨h.tag, ⟨a, h.owner⟩, h.parent, h.child⟩

/-- An element can join exactly if its link is its own and is not refused. -/
theorem joins_iff {x : LinkedTree α n} {a : α} :
    x.Joins a ↔ x.links.owner (x.tree.linkOf a) = some a ∧ x.refuses? (x.tree.linkOf a) = none := by
  constructor
  · exact fun h => ⟨h.owner, h.refuses?_eq_none⟩
  · rintro ⟨howner, hrefuses⟩
    obtain ⟨htag, -, hparent, hchild⟩ := (refuses?_eq_none_iff _).mp hrefuses
    exact ⟨howner, htag, hparent, hchild⟩

instance [DecidableEq α] (x : LinkedTree α n) (a : α) : Decidable (x.Joins a) :=
  decidable_of_iff _ joins_iff.symm

/-- An element can still join after a change that leaves its link alone. -/
theorem Joins.of_edit {x y : LinkedTree α n} {a : α} {ls : List (LinkId n)} (h : x.Joins a)
    (halike : x.Alike y) (hedit : Links.Edit x.links y.links x.origin .left ls)
    (horigin : x.tree.linkOf a ≠ x.origin) (hout : x.tree.linkOf a ∉ ls) : y.Joins a := by
  obtain ⟨-, -, hparent, hchild, -⟩ := (Links.get_eq_iff _).mp (hedit.outside _ horigin hout)
  refine ⟨?_, ?_, ?_, ?_⟩
  · rw [halike.linkOf_eq, hedit.owner, h.owner]
  · rw [halike.linkOf_eq, halike.tag_eq, hedit.tag, h.tag]
  · rw [halike.linkOf_eq, hparent, h.parent]
  · intro s
    rw [halike.linkOf_eq, hchild, h.child]

namespace Holds

variable {x : LinkedTree α n} {as bs : List α}

/-- No element of the list has the origin for its link. -/
theorem linkOf_ne_origin (h : x.Holds lt as) {a : α} (ha : a ∈ as) : x.tree.linkOf a ≠ x.tree.origin := by
  obtain ⟨t, ht, horder⟩ := h.order
  have hlink : x.tree.linkOf a ∈ t.inorder := by
    rw [horder]
    exact List.mem_map_of_mem ha
  intro horigin
  rw [horigin] at hlink
  exact ht.carries.fresh hlink

/-- The owners of the links of the elements are the elements. -/
theorem filterMap_owner (h : x.Holds lt as) : (as.map x.tree.linkOf).filterMap x.links.owner = as := by
  have hown : ∀ a ∈ as, (x.links.owner ∘ x.tree.linkOf) a = some a := h.own
  rw [List.filterMap_map, List.filterMap_congr hown, List.filterMap_some]

/-- The links of the elements increase with them. -/
theorem increase (h : x.Holds lt as) : x.links.Increase lt (as.map x.tree.linkOf) := by
  refine List.pairwise_map.mpr (h.sorted.imp_of_mem ?_)
  intro c d hc hd hcd a b hoa hob
  rw [h.own c hc] at hoa
  rw [h.own d hd] at hob
  obtain rfl := Option.some.inj hoa
  obtain rfl := Option.some.inj hob
  exact hcd

/-- The check after a change passes: the tree's own order, if it has one, agrees. -/
theorem checkAfter_eq (h : x.Holds lt as) (change : Change) : x.checkAfter change = .pure x () := by
  obtain ⟨t, hthreads, horder⟩ := h.order
  apply hthreads.checkAfter_eq change
  intro hverify f hf
  rw [horder, h.filterMap_owner]
  exact (h.sorted.imp fun hab => h.checks hverify f hf _ _ hab).isChain

/-- A tree that comes to thread the links of another sorted list of owned elements holds that list. -/
theorem resized (h : x.Holds lt as) {g : Links α n} {change : Int} {u : Shape n} {ls : List (LinkId n)}
    (hthreads : (x.resized g change).Threads u) (hedit : Links.Edit x.links g x.origin .left ls)
    (horder : u.inorder = bs.map x.tree.linkOf) (hown : ∀ b ∈ bs, x.links.owner (x.tree.linkOf b) = some b)
    (hsorted : bs.Pairwise lt) : (x.resized g change).Holds lt bs :=
  ⟨⟨u, hthreads, horder⟩, fun b hb => (hedit.owner _).trans (hown b hb), hsorted, h.checks⟩

/-! ## Searching -/

section Searching

variable {σ : Type} {c : Comparator σ α} {key : α → Ordering} {s₀ s s' : σ} {fs : List (Frame n)}
  {seen : List α} {a b : Shape n} {l : LinkId n} {e : α}

/-- The link on which a search by a key matches is that of the element which the list has for the key. -/
theorem find_of_match (h : x.Holds lt as) (hanswers : c.Answers key) (hseeks : Seeks lt key)
    (hthreads : x.Threads (.plug fs (.node a l b))) (howner : x.links.owner l = some e)
    (hask : c.ask s e = .ok (.eq, s')) : SortedList.find key as = some e ∧ x.tree.linkOf e = l := by
  obtain ⟨t, ht, horder⟩ := h.order
  obtain rfl := ht.unique hthreads
  have hl : l ∈ as.map x.tree.linkOf := by
    rw [← horder, Shape.mem_inorder_plug]
    exact Or.inl (by simp)
  obtain ⟨e', he', rfl⟩ := List.mem_map.mp hl
  obtain rfl := Option.some.inj ((h.own e' he').symm.trans howner)
  have hkey := hanswers.of_ask hask
  obtain ⟨xs, ys, rfl⟩ := List.append_of_mem he'
  exact ⟨SortedList.find_append hseeks h.sorted hkey, rfl⟩

/-- The vacant place at which a search by a key arrives parts the list where the key belongs. -/
theorem split_of_vacant (h : x.Holds lt as) (hanswers : c.Answers key) (hseeks : Seeks lt key)
    (hthreads : x.Threads (.plug fs .empty)) (htrail : Links.Trail x.links c s₀ fs seen s) :
    ∃ xs ys, as = xs ++ ys ∧ xs.map x.tree.linkOf = Shape.linksBefore fs ∧
      ys.map x.tree.linkOf = Shape.linksAfter fs ∧ (∀ b ∈ xs, key b = .gt) ∧ ∀ b ∈ ys, key b = .lt := by
  obtain ⟨t, ht, horder⟩ := h.order
  obtain rfl := ht.unique hthreads
  have hincrease := h.increase
  rw [← horder] at hincrease
  obtain ⟨hbefore, hafter⟩ := htrail.keys hanswers hseeks hincrease
  rw [Shape.inorder_plug, Shape.inorder, List.append_nil] at horder
  obtain ⟨xs, ys, rfl, hxs, hys⟩ := List.map_eq_append_iff.mp horder.symm
  refine ⟨xs, ys, rfl, hxs, hys, ?_, ?_⟩
  · intro b hb
    exact hbefore _ (hxs ▸ List.mem_map_of_mem hb) b (h.own b (by simp [hb]))
  · intro b hb
    exact hafter _ (hys ▸ List.mem_map_of_mem hb) b (h.own b (by simp [hb]))

/-- A search by a key finds what the list has for it. -/
theorem locate_eq (h : x.Holds lt as) (hanswers : c.Answers key) (hseeks : Seeks lt key) :
    (x.locate c s).result = .ok ((SortedList.find key as).map x.tree.linkOf) := by
  obtain ⟨t, ht, -⟩ := h.order
  rcases ht.locate_cases c s with
    ⟨fs, seen, s', htrail, rfl, hr⟩ | ⟨fs, seen, s', s'', a, b, l, e, -, rfl, howner, hask, hr⟩ |
      ⟨s', e, message, hask, -⟩
  · obtain ⟨xs, ys, rfl, -, -, hxs, hys⟩ := h.split_of_vacant hanswers hseeks ht htrail
    rw [hr, SortedList.find_append_eq_none hxs hys, Option.map_none]
  · obtain ⟨hfind, hlink⟩ := h.find_of_match hanswers hseeks ht howner hask
    rw [hr, hfind, Option.map_some, hlink]
  · exact absurd hask (hanswers.ne_error s' e message)

end Searching

/-! ## Inserting -/

/--
An insertion by a key: what the list has for the key is found, and otherwise what the caller supplies is put
in where the key belongs. The reply is the tree's.
-/
theorem insert_eq {σ : Type} {c : Comparator σ α} {s : σ} {key : α → Ordering}
    {supply : Except String (Option α)} (h : x.Holds lt as) (hanswers : c.Answers key) (hseeks : Seeks lt key)
    (hsupply : SortedList.find key as = none → ∀ a, supply = .ok (some a) → key a = .eq ∧ x.Joins a) :
    (x.insert c s supply).outcome.result = (x.tree.insertion key supply as).2 ∧
      (x.insert c s supply).outcome.state.Holds lt (x.tree.insertion key supply as).1 ∧
      ∃ ls, Links.Edit x.links (x.insert c s supply).outcome.state.links x.origin .left ls ∧
        ∀ l ∈ ls, l ∈ (x.tree.insertion key supply as).1.map x.tree.linkOf := by
  obtain ⟨t, ht, horder⟩ := h.order
  have hends := ht.inserts c s supply
  generalize x.insert c s supply = r at hends
  have hkept : ∃ ls, Links.Edit x.links x.links x.origin .left ls ∧ ∀ l ∈ ls, l ∈ as.map x.tree.linkOf :=
    ⟨[], Links.Edit.refl _ _ _ _, by simp⟩
  cases hends with
  | found _ hplace howner hask =>
    subst hplace
    obtain ⟨hfind, hlink⟩ := h.find_of_match hanswers hseeks ht howner hask
    simp only [Tree.insertion, hfind, Tree.cursorOn, hlink]
    exact ⟨rfl, h, hkept⟩
  | failed _ _ _ hask => exact absurd hask (hanswers.ne_error _ _ _)
  | unsupplied htrail hplace hsupplied | declined htrail hplace hsupplied =>
    subst hplace hsupplied
    obtain ⟨xs, ys, rfl, -, -, hxs, hys⟩ := h.split_of_vacant hanswers hseeks ht htrail
    simp only [Tree.insertion, SortedList.find_append_eq_none hxs hys]
    exact ⟨rfl, h, hkept⟩
  | refused htrail hplace hsupplied hrefuse =>
    subst hplace hsupplied
    obtain ⟨xs, ys, rfl, -, -, hxs, hys⟩ := h.split_of_vacant hanswers hseeks ht htrail
    obtain ⟨-, hjoins⟩ := hsupply (SortedList.find_append_eq_none hxs hys) _ rfl
    cases hrefuse.symm.trans hjoins.refuses?_eq_none
  | @linked fs _ _ a g htrail hplace hsupplied _ hthreads hedit =>
    subst hplace hsupplied
    obtain ⟨xs, ys, rfl, hlinks, hlinks', hxs, hys⟩ := h.split_of_vacant hanswers hseeks ht htrail
    have hfind := SortedList.find_append_eq_none hxs hys
    obtain ⟨hkey, hjoins⟩ := hsupply hfind a rfl
    have hsorted := SortedList.pairwise_insert hseeks h.sorted hxs hys hkey
    simp only [Tree.insertion, hfind, SortedList.insert_append hxs hys]
    have hholds : (x.resized g 1).Holds lt (xs ++ a :: ys) := by
      refine h.resized hthreads hedit ?_ ?_ hsorted
      · rw [Shape.inorder_grown, Shape.inorder_plug, ← hlinks, ← hlinks']
        simp [Shape.inorder]
      · intro b hb
        rcases List.mem_append.mp hb with hb | hb
        · exact h.own b (by simp [hb])
        · rcases List.mem_cons.mp hb with rfl | hb
          · exact hjoins.owner
          · exact h.own b (by simp [hb])
    refine ⟨?_, hholds, _, hedit, ?_⟩
    · rw [hholds.checkAfter_eq]
      rfl
    · intro l hl
      rw [horder] at hl
      simp only [List.map_append, List.map_cons, List.mem_append, List.mem_cons] at hl ⊢
      tauto

/-! ## Loading -/

/-- An element that is not in the list can still join after a change to the links of the list's elements. -/
theorem joins_of_not_mem {y : LinkedTree α n} {a : α} {ls : List (LinkId n)} (h : y.Holds lt bs)
    (halike : x.Alike y) (hownerless : x.links.owner x.origin = none)
    (hedit : Links.Edit x.links y.links x.origin .left ls) (hls : ∀ l ∈ ls, l ∈ bs.map x.tree.linkOf)
    (hjoins : x.Joins a) (ha : a ∉ bs) : y.Joins a := by
  have howner := hjoins.owner
  apply hjoins.of_edit halike hedit
  · intro heq
    rw [heq, hownerless] at howner
    cases howner
  · intro hl
    obtain ⟨b, hb, heq⟩ := List.mem_map.mp (hls _ hl)
    have hown := h.own b hb
    rw [halike.linkOf_eq, hedit.owner, heq, howner] at hown
    exact ha (Option.some.inj hown ▸ hb)

/-- A load inserts each value that is not equivalent to an element present or to a value before it. -/
theorem load_eq {σ : Type} [IsStrictWeakOrder α lt] [DecidableRel lt] {less : Less σ α} {s : σ}
    {values : List α} (h : x.Holds lt as) (hdecides : less.Decides lt)
    (hjoins : ∀ before a after, values = before ++ a :: after →
      (∀ b ∈ as ++ before, triState lt a b ≠ .eq) → x.Joins a) :
    (x.load less s values).result = .ok (SortedList.load lt as values).2 ∧
      (x.load less s values).state.Holds lt (SortedList.load lt as values).1 := by
  induction values generalizing x as s with
  | nil => exact ⟨rfl, h⟩
  | cons value values ih =>
    have hseeks : Seeks lt (triState lt value) := seeks_triState value
    have hsupply : SortedList.find (triState lt value) as = none →
        ∀ a, (.ok (some value) : Except String (Option α)) = .ok (some a) →
          triState lt value a = .eq ∧ x.Joins a := by
      intro hnone a ha
      obtain rfl : value = a := Option.some.inj (Except.ok.inj ha)
      exact ⟨triState_self value,
        hjoins [] value values rfl (by simpa using SortedList.find_eq_none_iff.mp hnone)⟩
    have hfirst := h.insert_eq (s := s) (hdecides.answers value) hseeks hsupply
    have halike := x.insert_alike (less.comparator value) s (.ok (some value))
    generalize hr : x.insert (less.comparator value) s (.ok (some value)) = r at hfirst halike
    obtain ⟨bs, placement, hinsertion, hload, hsubset, b, hb, hequivalent⟩ :=
      x.tree.exists_insertion_eq lt as value
    rw [hinsertion] at hfirst
    obtain ⟨hresult, hholds, ls, hedit, hls⟩ := hfirst
    obtain ⟨t, ht, -⟩ := h.order
    -- a later value that is new to the list by now is not equivalent to this one, whether or not it went in
    have hlater : ∀ before a after, values = before ++ a :: after →
        (∀ b ∈ bs ++ before, triState lt a b ≠ .eq) → r.outcome.state.Joins a := by
      intro before a after hvalues hnew
      have hvalue : triState lt a value ≠ .eq := by
        obtain ⟨hvb, hbv⟩ := (triState_eq_eq_iff value b).mp hequivalent
        rw [(seeks_triState a).alike value b hvb hbv]
        exact hnew b (by simp [hb])
      refine hholds.joins_of_not_mem halike ht.ownerless hedit hls
        (hjoins (value :: before) a after (by simp [hvalues]) ?_)
        fun ha => hnew a (by simp [ha]) (triState_self a)
      intro c hc
      rcases List.mem_append.mp hc with hc | hc
      · exact hnew c (by simp [hsubset c hc])
      · rcases List.mem_cons.mp hc with rfl | hc
        · exact hvalue
        · exact hnew c (by simp [hc])
    obtain ⟨hcount, hrest⟩ := ih (s := r.state) hholds hlater
    rw [load_cons_of_ok hr hresult, hload, hcount]
    exact ⟨rfl, hrest⟩

/-! ## Reading and clearing -/

/-- To find is to find in the list, as a cursor. -/
theorem find_eq {σ : Type} {c : Comparator σ α} {s : σ} {key : α → Ordering} (h : x.Holds lt as)
    (hanswers : c.Answers key) (hseeks : Seeks lt key) :
    x.find c s = .ok (x.tree.cursorOn (SortedList.find key as)) := by
  rw [LinkedTree.find, h.locate_eq hanswers hseeks]
  cases SortedList.find key as <;> rfl

/-- To find an element is to find it in the list. -/
theorem findElement_eq {σ : Type} {c : Comparator σ α} {s : σ} {key : α → Ordering} (h : x.Holds lt as)
    (hanswers : c.Answers key) (hseeks : Seeks lt key) :
    x.findElement c s = .ok (SortedList.find key as) := by
  rw [findElement, h.locate_eq hanswers hseeks]
  cases hfind : SortedList.find key as with
  | none => rfl
  | some a => exact congrArg Except.ok (h.own a (List.mem_of_find?_eq_some hfind))

/-- The outermost element on a side is the first one in the direction away from it. -/
theorem extreme_eq (h : x.Holds lt as) :
    x.extreme .left = .ok as.head? ∧ x.extreme .right = .ok as.getLast? := by
  obtain ⟨t, ht, horder⟩ := h.order
  have hfirst : ∀ bs : List α, (∀ b ∈ bs, b ∈ as) →
      (bs.map x.tree.linkOf).head?.bind x.links.owner = bs.head? := by
    intro bs hbs
    cases bs with
    | nil => rfl
    | cons b bs => simpa using h.own b (hbs b (by simp))
  constructor
  · rw [ht.extreme_eq, Side.other, Shape.linksTowards, horder, hfirst as fun _ hb => hb]
  · rw [ht.extreme_eq, Side.other, Shape.linksTowards, horder, ← List.map_reverse,
      hfirst as.reverse fun _ hb => List.mem_reverse.mp hb, List.head?_reverse]

/-- A traversal towards either side hands out the list, or its reverse. -/
theorem collect_eq (h : x.Holds lt as) :
    x.collect .ascending = .ok as ∧ x.collect .descending = .ok as.reverse := by
  obtain ⟨t, ht, horder⟩ := h.order
  have helements := h.filterMap_owner
  rw [← horder] at helements
  constructor
  · rw [Traversal.ascending, ht.collect_eq, elements, Shape.linksTowards, helements]
  · rw [Traversal.descending, ht.collect_eq, elements, Shape.linksTowards, List.filterMap_reverse, helements]

/-- The size is the length of the list. -/
theorem size_eq (h : x.Holds lt as) : x.tree.size = as.length := by
  obtain ⟨t, ht, horder⟩ := h.order
  rw [ht.size, horder, List.length_map]

/-- A tree is empty exactly if the list is. -/
theorem isEmpty_eq (h : x.Holds lt as) : x.isEmpty = as.isEmpty := by
  rw [isEmpty, h.size_eq]
  cases as with
  | nil => rfl
  | cons a as =>
    have hpos : (as.length : Int) + 1 ≠ 0 := by omega
    simp [hpos]

/-- A cleared tree holds nothing. -/
theorem clear (h : x.Holds lt as) : x.clear.Holds lt [] := by
  obtain ⟨t, ht, -⟩ := h.order
  exact ⟨⟨.empty, ht.clear.1, rfl⟩, by simp, List.Pairwise.nil, h.checks⟩

end Holds

end LinkedTree

end BalancedLinks
