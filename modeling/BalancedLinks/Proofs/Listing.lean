import BalancedLinks.Traversal
import BalancedLinks.Proofs.Threading

/-!
# What a tree shows

The read-only operations of a tree: the elements that a traversal in either direction hands out, which depend on
nothing but the way that it goes, the smallest and the largest element, and the element that a search finds.

The main statements are `LinkedTree.Passes.collect_eq` for any way that comes to the origin, and
`LinkedTree.WellFormed.passes`: through a well-formed tree such ways go in the order of its links.
-/

set_option autoImplicit false

namespace BalancedLinks

/-- One step from a link of a carried shape, in either direction. -/
theorem Links.Carries.step_eq {α : Type} {n : Nat} {g : Links α n} {o l : LinkId n} {t : Shape n} {s : Side}
    {xs ys : List (LinkId n)} (h : g.Carries o t) (hsplit : t.linksTowards s = xs ++ l :: ys) :
    g.step l s = some (ys.head?.getD o) := by
  cases s with
  | left => exact h.neighbour_eq hsplit
  | right => exact h.successor_eq hsplit

namespace LinkedTree

variable {α : Type} {n : Nat} {x : LinkedTree α n}

/-- The elements of a shape in the order that leads to the given side. -/
def elements (x : LinkedTree α n) (s : Side) (t : Shape n) : List α :=
  (t.linksTowards s).filterMap x.links.owner

/-- A traversal that has settled on the origin ends. -/
theorem advance_origin (x : LinkedTree α n) (s : Side) :
    x.advance ⟨s, .pending x.origin⟩ = .ok (none, ⟨s, .finished⟩) := by
  simp [advance, advanceFrom, seekWithin, Except.map]

/-! ## The way towards a side -/

/-- Whether the way towards a side goes from where a traversal starts through these links to the origin. -/
structure Passes (x : LinkedTree α n) (s : Side) (ls : List (LinkId n)) : Prop where
  first : x.firstLink s = some (ls.head?.getD x.origin)
  step : ∀ {xs l ys}, ls = xs ++ l :: ys → x.links.step l s = some (ys.head?.getD x.origin)
  nodup : ls.Nodup
  fresh : x.origin ∉ ls
  owned : ∀ l ∈ ls, ∃ a, x.links.owner l = some a

namespace Passes

variable {s : Side} {ls xs ys : List (LinkId n)} {l : LinkId n}

/-- The links of a way are less than all: the origin is none of them. -/
theorem length_lt (h : x.Passes s ls) : ls.length < n := by
  have hcons : (x.origin :: ls).Nodup := List.nodup_cons.mpr ⟨h.fresh, h.nodup⟩
  have hle := hcons.length_le_card
  simp only [Fintype.card_fin, List.length_cons] at hle
  omega

/-- A traversal that goes on from a link on its way hands out its element and settles on the next link. -/
theorem advance_pending (h : x.Passes s ls) (hsplit : ls = xs ++ l :: ys) :
    ∃ a, x.links.owner l = some a ∧
      x.advance ⟨s, .pending l⟩ = .ok (some a, ⟨s, .pending (ys.head?.getD x.origin)⟩) := by
  have hl : l ∈ ls := by simp [hsplit]
  obtain ⟨a, ha⟩ := h.owned l hl
  have hlo : l ≠ x.origin := fun heq => h.fresh (heq ▸ hl)
  have hstep := h.step hsplit
  refine ⟨a, ha, ?_⟩
  simp only [advance, advanceFrom, seekWithin, if_neg hlo, hstep, ha, Except.map]

/-- A traversal starts from the first link on its way, or from the origin. -/
theorem advance_unstarted (h : x.Passes s ls) :
    x.advance ⟨s, .unstarted⟩ = x.advance ⟨s, .pending (ls.head?.getD x.origin)⟩ := by
  simp only [advance, h.first]

/-- A traversal that goes on from a link on its way, or from the origin at its end. -/
theorem takeFrom_eq (h : x.Passes s ls) (hsplit : ls = xs ++ ys) {k : Nat} (hk : ys.length < k) :
    x.takeFrom k ⟨s, .pending (ys.head?.getD x.origin)⟩ = .ok (ys.filterMap x.links.owner, true) := by
  induction ys generalizing xs k with
  | nil =>
    obtain ⟨k, rfl⟩ : ∃ i, k = i + 1 := ⟨k - 1, by omega⟩
    simp only [takeFrom, List.head?_nil, Option.getD_none, x.advance_origin s, List.filterMap_nil]
  | cons l ys ih =>
    obtain ⟨k, rfl⟩ : ∃ i, k = i + 1 := ⟨k - 1, by omega⟩
    obtain ⟨a, ha, hadvance⟩ := h.advance_pending hsplit
    have hsplit' : ls = (xs ++ [l]) ++ ys := by simp [hsplit]
    have hrest := ih hsplit' (k := k) (by simpa using hk)
    simp only [takeFrom, List.head?_cons, Option.getD_some, hadvance, hrest, Except.map, List.filterMap_cons, ha]

/-- A traversal hands out the elements of the links on its way. -/
theorem collect_eq (h : x.Passes s ls) : x.collect ⟨s, .unstarted⟩ = .ok (ls.filterMap x.links.owner) := by
  have hlength : ls.length < n + 1 := Nat.lt_succ_of_lt h.length_lt
  have hwhole : ls = [] ++ ls := rfl
  have hrun := h.takeFrom_eq hwhole hlength
  have hstart : x.takeFrom (n + 1) ⟨s, .unstarted⟩ =
      x.takeFrom (n + 1) ⟨s, .pending (ls.head?.getD x.origin)⟩ := by
    simp only [takeFrom, h.advance_unstarted]
  rw [collect, hstart, hrun]

end Passes

/-- Whether a shape of owned links hangs below a tree's origin, whatever its heights and its balances. -/
structure WellFormed (x : LinkedTree α n) (t : Shape n) : Prop where
  carries : x.links.Carries x.origin t
  owned : ∀ l ∈ t.inorder, ∃ a, x.links.owner l = some a

/-- The way towards a side goes through the links of the shape in their order. -/
theorem WellFormed.passes {t : Shape n} (h : x.WellFormed t) (s : Side) : x.Passes s (t.linksTowards s) where
  first := by
    cases s with
    | left => rw [firstLink, h.carries.predecessor_origin, Shape.linksTowards, List.head?_reverse]
    | right => exact h.carries.outermost_origin
  step := h.carries.step_eq
  nodup := Shape.nodup_linksTowards h.carries.nodup
  fresh := fun ho => h.carries.fresh ((Shape.mem_linksTowards s t x.origin).mp ho)
  owned := fun l hl => h.owned l ((Shape.mem_linksTowards s t l).mp hl)

/-! ## Trees that thread a shape -/

namespace Threads

variable {t : Shape n}

/-- A tree that threads a shape is well-formed. -/
theorem wellFormed (h : x.Threads t) : x.WellFormed t :=
  ⟨h.carries, fun l hl => (h.owned l hl).1⟩

/-- A tree that threads a shape is passed in the order of the shape. -/
theorem passes (h : x.Threads t) (s : Side) : x.Passes s (t.linksTowards s) :=
  h.wellFormed.passes s

/-- A traversal hands out the elements of the shape in its order. -/
theorem collect_eq (h : x.Threads t) (s : Side) : x.collect ⟨s, .unstarted⟩ = .ok (x.elements s t) :=
  (h.passes s).collect_eq

/-- The outermost element on one side. -/
theorem extreme_eq (h : x.Threads t) (s : Side) :
    x.extreme s = .ok ((t.linksTowards s.other).head?.bind x.links.owner) := by
  rw [extreme, root, h.carries.spans.slot_eq]
  cases hr : t.root? with
  | none =>
    rw [Shape.root?_eq_none_iff] at hr
    simp [hr]
  | some r =>
    obtain ⟨l, hl⟩ := Shape.exists_head?_linksTowards s.other hr
    simp only [h.carries.outermost_root hr, hl, reached, Except.map, Option.bind_some]

/-- What a search finds, in the terms of the way it took. -/
theorem locate_cases {σ : Type} (h : x.Threads t) (c : Comparator σ α) (s : σ) :
    (∃ fs as s', Links.Trail x.links c s fs as s' ∧ t = .plug fs .empty ∧
        (x.locate c s).result = .ok none) ∨
      (∃ fs as s' s'' a b l e, Links.Trail x.links c s fs as s' ∧ t = .plug fs (.node a l b) ∧
        x.links.owner l = some e ∧ c.ask s' e = .ok (.eq, s'') ∧ (x.locate c s).result = .ok (some l)) ∨
      ∃ s' e message, c.ask s' e = .error message ∧ (x.locate c s).result = .error (.callback message) := by
  have hends := h.carries.search_concludes h.owned c s
  simp only [locate]
  generalize x.links.search c s x.origin = r at hends
  cases hends with
  | vacant htrail hplace => exact Or.inl ⟨_, _, _, htrail, hplace, rfl⟩
  | found htrail hplace howner hask =>
    exact Or.inr (Or.inl ⟨_, _, _, _, _, _, _, _, htrail, hplace, howner, hask, rfl⟩)
  | failed _ _ _ hask => exact Or.inr (Or.inr ⟨_, _, _, hask, rfl⟩)

end Threads

end LinkedTree

end BalancedLinks
