import BalancedLinks.Search
import BalancedLinks.Proofs.Settling

/-!
# Searches over shapes

A search through a carried shape goes down one way from the origin. `Links.Trail` records the frames along
that way with the comparator's answers, for a comparator that may answer anything, keep a state, or fail;
`Links.Concludes` says how the way can end. A trail also fixes the search: it is the only way that there is.

The main statements are `Links.Carries.search_concludes` and `Links.SpansAbove.searchWithin_eq`.
-/

set_option autoImplicit false

namespace BalancedLinks

/-- A search that goes on after having handed on some elements. -/
def Search.after {σ α : Type} {n : Nat} (as : List α) (r : Search σ α n) : Search σ α n :=
  { r with visited := as ++ r.visited }

namespace Links

variable {σ α : Type} {n : Nat} {g : Links α n}

/-- Whether every link of the shape has an owner, and carries the given tag. -/
def Owned (g : Links α n) (tag : String) (t : Shape n) : Prop :=
  ∀ l ∈ t.inorder, (∃ a, g.owner l = some a) ∧ g.tag l = tag

/--
Whether a search that starts in the given state comes by these frames, innermost first, hands on these
elements, and arrives in this state: at each frame the comparator sends it to the frame's side.
-/
inductive Trail (g : Links α n) (c : Comparator σ α) (s₀ : σ) : List (Frame n) → List α → σ → Prop
  | nil : Trail g c s₀ [] [] s₀
  | cons {f : Frame n} {fs : List (Frame n)} {as : List α} {a : α} {s s' : σ} {answer : Ordering}
      (trail : Trail g c s₀ fs as s) (owner : g.owner f.link = some a) (ask : c.ask s a = .ok (answer, s'))
      (differs : answer ≠ .eq) (side : f.side = sideTowards answer) : Trail g c s₀ (f :: fs) (as ++ [a]) s'

/-- The ways in which a search through a shape can end: at a vacant place, at a match, or with the caller. -/
inductive Concludes (g : Links α n) (o : LinkId n) (c : Comparator σ α) (s₀ : σ) (t : Shape n) :
    Search σ α n → Prop
  | vacant {fs : List (Frame n)} {as : List α} {s : σ} (trail : Trail g c s₀ fs as s)
      (place : t = .plug fs .empty) :
      Concludes g o c s₀ t ⟨as, .vacant (Shape.slotOf o fs).1 (Shape.slotOf o fs).2, s⟩
  | found {fs : List (Frame n)} {as : List α} {s s' : σ} {a b : Shape n} {l : LinkId n} {x : α}
      (trail : Trail g c s₀ fs as s) (place : t = .plug fs (.node a l b)) (owner : g.owner l = some x)
      (ask : c.ask s x = .ok (.eq, s')) : Concludes g o c s₀ t ⟨as ++ [x], .found l, s'⟩
  | failed {fs : List (Frame n)} {as : List α} {s : σ} {a b : Shape n} {l : LinkId n} {x : α}
      {message : String} (trail : Trail g c s₀ fs as s) (place : t = .plug fs (.node a l b))
      (owner : g.owner l = some x) (ask : c.ask s x = .error message) :
      Concludes g o c s₀ t ⟨as ++ [x], .failed (.callback message), s⟩

/-- A link with its subshapes is what a frame on the given side fills. -/
theorem exists_frame (s : Side) (a : Shape n) (l : LinkId n) (b : Shape n) :
    ∃ (f : Frame n) (u : Shape n), f.link = l ∧ f.side = s ∧ Shape.node a l b = f.fill u := by
  cases s
  · exact ⟨⟨.left, l, b⟩, a, rfl, rfl, rfl⟩
  · exact ⟨⟨.right, l, a⟩, b, rfl, rfl, rfl⟩

/-- A search from a place goes on from the trail that led there. -/
theorem searchWithin_concludes {o : LinkId n} {c : Comparator σ α} {s₀ s : σ} {fs : List (Frame n)}
    {t : Shape n} {as : List α} {tag : String} {k : Nat} (h : g.Carries o (.plug fs t))
    (howned : g.Owned tag (.plug fs t)) (htrail : Trail g c s₀ fs as s) (hk : t.height ≤ k) :
    Concludes g o c s₀ (.plug fs t)
      ((g.searchWithin c k s (Shape.slotOf o fs).1 (Shape.slotOf o fs).2).after as) := by
  induction k generalizing fs t as s with
  | zero =>
    cases t with
    | node a l b => simp [Shape.height] at hk
    | empty =>
      have hslot : g.child (Shape.slotOf o fs).1 (Shape.slotOf o fs).2 = none := h.at_place
      simp only [searchWithin, hslot, Search.after, List.append_nil]
      exact .vacant htrail rfl
  | succ k ih =>
    cases t with
    | empty =>
      have hslot : g.child (Shape.slotOf o fs).1 (Shape.slotOf o fs).2 = none := h.at_place
      simp only [searchWithin, hslot, Search.after, List.append_nil]
      exact .vacant htrail rfl
    | node a l b =>
      have hslot : g.child (Shape.slotOf o fs).1 (Shape.slotOf o fs).2 = some l := h.at_place.1
      obtain ⟨⟨x, hx⟩, -⟩ := howned l ((Shape.mem_inorder_plug fs _ l).mpr (Or.inl (by simp)))
      cases hask : c.ask s x with
      | error message =>
        simp only [searchWithin, hslot, hx, hask, Search.after]
        exact .failed htrail rfl hx hask
      | ok reply =>
        obtain ⟨answer, s'⟩ := reply
        by_cases heq : answer = .eq
        · subst heq
          simp only [searchWithin, hslot, hx, hask, Search.after]
          exact .found htrail rfl hx hask
        · obtain ⟨f, u, hlink, hside, hfill⟩ := exists_frame (sideTowards answer) a l b
          have hheight : u.height ≤ k := by
            have hnode : (Shape.node a l b).height = f.heightOver u.height := by
              rw [hfill, Frame.height_fill]
            rw [Frame.heightOver] at hnode
            omega
          have hstep : Trail g c s₀ (f :: fs) (as ++ [x]) s' := .cons htrail (hlink ▸ hx) hask heq hside
          rw [hfill] at h howned ⊢
          rw [← Shape.plug_cons] at h howned
          have hrest := ih h howned hstep hheight
          simp only [Shape.slotOf, hlink, hside, Shape.plug_cons, Search.after, List.append_assoc,
            List.singleton_append] at hrest
          cases answer with
          | eq => exact absurd rfl heq
          | lt | gt =>
            rw [searchWithin]
            simp only [hslot, hx, hask, Search.after]
            exact hrest

/-- A search through a carried shape concludes at a vacant place, at a match, or with the caller's failure. -/
theorem Carries.search_concludes {o : LinkId n} {t : Shape n} {tag : String} (h : g.Carries o t)
    (howned : g.Owned tag t) (c : Comparator σ α) (s : σ) : Concludes g o c s t (g.search c s o) := by
  have hheight := (Shape.height_le_length t).trans (Shape.length_inorder_le h.nodup)
  have hwhole : g.Carries o (.plug [] t) := h
  exact searchWithin_concludes (k := c.memory + n) hwhole howned .nil (by omega)

/-! ## From a trail to the search -/

section Trails

variable {o : LinkId n} {c : Comparator σ α} {s₀ s : σ} {fs : List (Frame n)} {as : List α}

/-- A search comes by the frames of a trail, and goes on from the place below them. -/
theorem SpansAbove.searchWithin_eq (h : g.SpansAbove o fs) (htrail : Trail g c s₀ fs as s) (k : Nat) :
    g.searchWithin c (fs.length + k) s₀ o .left =
      (g.searchWithin c k s (Shape.slotOf o fs).1 (Shape.slotOf o fs).2).after as := by
  induction htrail generalizing k with
  | nil => simp [Shape.slotOf, Search.after]
  | @cons f fs as a s s' answer _ howner hask hdiffers hside ih =>
    obtain ⟨hslot, -, -, habove⟩ := h
    have hstep : g.searchWithin c (k + 1) s (Shape.slotOf o fs).1 (Shape.slotOf o fs).2 =
        (g.searchWithin c k s' f.link f.side).after [a] := by
      rw [slotAt] at hslot
      cases answer with
      | eq => exact absurd rfl hdiffers
      | lt | gt =>
        rw [searchWithin]
        simp only [hslot, howner, hask, hside]
        rfl
    have hlength : (f :: fs).length + k = fs.length + (k + 1) := by
      rw [List.length_cons]
      omega
    rw [hlength, ih habove (k + 1), hstep]
    simp only [Shape.slotOf, Search.after, List.append_assoc]

/-- There are fewer frames above a place than links in the world, or as many if the place is vacant. -/
theorem Carries.length_frames_le {t : Shape n} (h : g.Carries o (.plug fs t)) :
    fs.length + t.inorder.length ≤ n := by
  have haround := Shape.length_le_around fs
  have hlength := Shape.length_inorder_plug fs t
  have hle := Shape.length_inorder_le h.nodup
  omega

/-- A search comes by the frames of a trail, and has at least as many elements left to hand on as are below them. -/
theorem Carries.search_of_trail {t : Shape n} (h : g.Carries o (.plug fs t)) (htrail : Trail g c s₀ fs as s) :
    ∃ k, t.inorder.length ≤ k ∧
      g.search c s₀ o = (g.searchWithin c k s (Shape.slotOf o fs).1 (Shape.slotOf o fs).2).after as := by
  have hlength := h.length_frames_le
  refine ⟨c.memory + n - fs.length, by omega, ?_⟩
  rw [← h.above.searchWithin_eq htrail, search]
  congr 1
  omega

/-- A trail that leads to a vacant place is the way of the search, which ends there. -/
theorem Carries.search_vacant (h : g.Carries o (.plug fs .empty)) (htrail : Trail g c s₀ fs as s) :
    g.search c s₀ o = ⟨as, .vacant (Shape.slotOf o fs).1 (Shape.slotOf o fs).2, s⟩ := by
  obtain ⟨k, -, hsearch⟩ := h.search_of_trail htrail
  have hslot : g.child (Shape.slotOf o fs).1 (Shape.slotOf o fs).2 = none := h.at_place
  rw [hsearch]
  cases k <;> simp only [searchWithin, hslot, Search.after, List.append_nil]

/-- A trail that leads to a link of the shape leads the search there, which has that link's element to hand on. -/
theorem Carries.search_reaches {a b : Shape n} {l : LinkId n} (h : g.Carries o (.plug fs (.node a l b)))
    (htrail : Trail g c s₀ fs as s) :
    ∃ parent side k, g.child parent side = some l ∧
      g.search c s₀ o = (g.searchWithin c (k + 1) s parent side).after as := by
  obtain ⟨k, hk, hsearch⟩ := h.search_of_trail htrail
  rw [Shape.inorder, List.length_append, List.length_cons] at hk
  obtain ⟨k, rfl⟩ : ∃ i, k = i + 1 := ⟨k - 1, by omega⟩
  exact ⟨_, _, k, h.at_place.1, hsearch⟩

/-- A trail that leads to a link whose element the comparator matches is the way of the search, which ends there. -/
theorem Carries.search_found {a b : Shape n} {l : LinkId n} {x : α} {s' : σ}
    (h : g.Carries o (.plug fs (.node a l b))) (htrail : Trail g c s₀ fs as s) (howner : g.owner l = some x)
    (hask : c.ask s x = .ok (.eq, s')) : g.search c s₀ o = ⟨as ++ [x], .found l, s'⟩ := by
  obtain ⟨parent, side, k, hslot, hsearch⟩ := h.search_reaches htrail
  rw [hsearch]
  simp only [searchWithin, hslot, howner, hask, Search.after]

/-- A trail that leads to a link whose element the comparator fails on is the way of the search, which fails there. -/
theorem Carries.search_failed {a b : Shape n} {l : LinkId n} {x : α} {message : String}
    (h : g.Carries o (.plug fs (.node a l b))) (htrail : Trail g c s₀ fs as s) (howner : g.owner l = some x)
    (hask : c.ask s x = .error message) :
    g.search c s₀ o = ⟨as ++ [x], .failed (.callback message), s⟩ := by
  obtain ⟨parent, side, k, hslot, hsearch⟩ := h.search_reaches htrail
  rw [hsearch]
  simp only [searchWithin, hslot, howner, hask, Search.after]

end Trails

end Links

end BalancedLinks
