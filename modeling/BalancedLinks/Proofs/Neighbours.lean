import BalancedLinks.Walk
import BalancedLinks.Proofs.Settling

/-!
# Walks over shapes

Where the walks of `Walk` lead in a carried shape of any heights: down one side to its first or last link,
up to the origin, and from a link to the next one in the order of the links.

The main statements are `Links.Carries.neighbour_eq`, a step to either side, and `Links.Carries.top_eq`.
-/

set_option autoImplicit false

namespace BalancedLinks

namespace Shape

variable {n : Nat}

/-- The links in the order that leads to the given side. -/
def linksTowards (s : Side) (t : Shape n) : List (LinkId n) :=
  match s with
  | .left => t.inorder.reverse
  | .right => t.inorder

/-- A direction passes no links in an empty shape. -/
@[simp] theorem linksTowards_empty (s : Side) : (Shape.empty : Shape n).linksTowards s = [] := by
  cases s <;> rfl

/-- A direction passes the links of the far side first, then the root, then those of the near side. -/
theorem linksTowards_fork (s : Side) (a : Shape n) (l : LinkId n) (b : Shape n) :
    (fork s a l b).linksTowards s = b.linksTowards s ++ l :: a.linksTowards s := by
  cases s <;> simp [fork, linksTowards, inorder]

/-- A direction passes exactly the links of the shape. -/
@[simp] theorem mem_linksTowards (s : Side) (t : Shape n) (k : LinkId n) :
    k ∈ t.linksTowards s ↔ k ∈ t.inorder := by
  cases s <;> simp [linksTowards]

/-- A direction passes no link twice. -/
theorem nodup_linksTowards {s : Side} {t : Shape n} (h : t.inorder.Nodup) : (t.linksTowards s).Nodup := by
  cases s
  · exact List.nodup_reverse.mpr h
  · exact h

/-- A shape with a topmost link has a first link in either direction. -/
theorem exists_head?_linksTowards (s : Side) {t : Shape n} {r : LinkId n} (hr : t.root? = some r) :
    ∃ x, (t.linksTowards s).head? = some x := by
  cases hlist : t.linksTowards s with
  | nil =>
    have hmem := (mem_linksTowards s t r).mpr (root?_mem hr)
    rw [hlist] at hmem
    simp at hmem
  | cons x xs => exact ⟨x, rfl⟩

/-- The links beyond a place, in the order that leads to the given side. -/
def beyond (s : Side) : List (Frame n) → List (LinkId n)
  | [] => []
  | f :: fs => (if f.side = s then [] else f.link :: f.rest.linksTowards s) ++ beyond s fs

/-- The order of the links towards one side, cut at a place. -/
theorem linksTowards_plug (s : Side) (fs : List (Frame n)) (t : Shape n) :
    ∃ xs, (plug fs t).linksTowards s = xs ++ t.linksTowards s ++ beyond s fs := by
  induction fs generalizing t with
  | nil => exact ⟨[], by simp [beyond]⟩
  | cons f fs ih =>
    obtain ⟨xs, hxs⟩ := ih (f.fill t)
    rw [plug_cons, hxs, Frame.fill]
    by_cases hs : f.side = s
    · refine ⟨xs ++ f.rest.linksTowards s ++ [f.link], ?_⟩
      rw [beyond, if_pos hs, hs, linksTowards_fork]
      simp
    · have hs' : f.side = s.other := by
        cases hf : f.side <;> cases s <;> simp_all [Side.other]
      refine ⟨xs, ?_⟩
      rw [beyond, if_neg hs, hs', fork_other, linksTowards_fork]
      simp

end Shape

namespace Links

variable {α : Type} {n : Nat} {g : Links α n}

/-- The way down one side of a spanned shape leads to the link that the other direction starts from. -/
theorem descendWithin_eq {s : Side} {k : Nat} {slot : Option (LinkId n)} {p r : LinkId n} {t : Shape n}
    (h : g.Spans slot p t) (hr : t.root? = some r) (hk : t.height ≤ k) :
    g.descendWithin s k r = (t.linksTowards s.other).head? := by
  induction k generalizing slot p r t with
  | zero =>
    rcases Shape.eq_empty_or_fork s t with rfl | ⟨a, l, b, rfl⟩
    · simp [Shape.root?] at hr
    · rw [Shape.height_fork] at hk
      omega
  | succ k ih =>
    rcases Shape.eq_empty_or_fork s t with rfl | ⟨a, l, b, rfl⟩
    · simp [Shape.root?] at hr
    · rw [Shape.root?_fork, Option.some.injEq] at hr
      subst hr
      obtain ⟨-, -, ha, -⟩ := (spans_fork s slot p l a b).mp h
      rw [Shape.height_fork] at hk
      rw [← Shape.fork_other, Shape.linksTowards_fork, List.head?_append]
      simp only [descendWithin, ha.slot_eq]
      cases hroot : a.root? with
      | none =>
        rw [Shape.root?_eq_none_iff] at hroot
        simp [hroot]
      | some c =>
        have hdown := ih ha hroot (by omega)
        obtain ⟨x, hx⟩ := Shape.exists_head?_linksTowards s.other hroot
        simp only [hdown, hx, Option.some_or]

/-- Down the left side of a link lies the first link of what hangs there, or nothing but the link itself. -/
theorem Spans.outermost_above {o : LinkId n} {t : Shape n} (h : g.Spans (g.child o .left) o t)
    (hheight : t.height < n) : g.outermost o .left = some (t.inorder.head?.getD o) := by
  have hdown : ∀ k, t.height < k → g.descendWithin .left k o = some (t.inorder.head?.getD o) := by
    intro k hk
    obtain ⟨k, rfl⟩ : ∃ m, k = m + 1 := ⟨k - 1, by omega⟩
    simp only [descendWithin, h.slot_eq]
    cases hr : t.root? with
    | none =>
      rw [Shape.root?_eq_none_iff] at hr
      simp [hr, Shape.inorder]
    | some r =>
      obtain ⟨x, hx⟩ := Shape.exists_head?_linksTowards .right hr
      have hroot := descendWithin_eq (s := .left) h hr (Nat.le_of_lt_succ hk)
      simp only [Side.other, Shape.linksTowards] at hroot hx
      simp only [hroot, hx, Option.getD_some]
  exact hdown n hheight

/-! ## Links that hang nowhere -/

section Loose

variable {l : LinkId n}

/-- A link that hangs nowhere is the top above it. -/
theorem top_of_parent_none (h : g.parent l = none) : g.top l = some l := by
  have hstay : ∀ k, 0 < k → g.topWithin k l = some l := by
    intro k hk
    obtain ⟨k, rfl⟩ : ∃ i, k = i + 1 := ⟨k - 1, by omega⟩
    simp only [topWithin, h]
  exact hstay n l.pos

/-- A step from a link that hangs nowhere, and from which nothing hangs, leads nowhere. -/
theorem neighbour_of_loose {s : Side} (h : g.parent l = none) (hchild : g.child l s = none) :
    g.neighbour l s = some l := by
  have hstay : ∀ k, 0 < k → g.ascendWithin s k l = some l := by
    intro k hk
    obtain ⟨k, rfl⟩ : ∃ i, k = i + 1 := ⟨k - 1, by omega⟩
    simp only [ascendWithin, h]
  simp only [neighbour, hchild, turningPoint]
  exact hstay n l.pos

/-- A link without a parent is its own successor. -/
theorem successor_of_parent_none (h : g.parent l = none) : g.successor l = some l := by
  rw [successor, if_pos (by simp [isOrigin, h])]

end Loose

namespace Carries

variable {o l : LinkId n} {f : Frame n} {fs : List (Frame n)} {t : Shape n}

/-- A shape that is carried is no higher than there are links. -/
theorem height_le (h : g.Carries o t) : t.height ≤ n :=
  (Shape.height_le_length t).trans (Shape.length_inorder_le h.nodup)

/-- A link that is carried has fewer links above it than there are, the origin not counted. -/
theorem length_frames_lt_of_root (h : g.Carries o (.plug fs t)) (hl : t.root? = some l) :
    fs.length + 2 ≤ n := by
  have hlt := Shape.length_inorder_lt h.nodup h.fresh
  rw [Shape.length_inorder_plug] at hlt
  have hle := Shape.length_le_around fs
  have hpos := List.length_pos_of_mem (Shape.root?_mem hl)
  omega

/-- A link is the child of the one above it on one side only. -/
theorem child_frame_eq_iff (h : g.Carries o (.plug (f :: fs) t)) (hl : t.root? = some l) (s : Side) :
    g.child f.link s = some l ↔ f.side = s := by
  have hslot : g.child f.link f.side = some l := h.at_place.slot_eq.trans hl
  have hother : g.child f.link f.side.other ≠ some l := h.child_other_ne (Shape.root?_mem hl)
  constructor
  · intro hchild
    by_contra hs
    have hs' : s = f.side.other := by
      cases hf : f.side <;> cases s <;> simp_all [Side.other]
    exact hother (hs' ▸ hchild)
  · rintro rfl
    exact hslot

/-- The way up from a place while it comes from one side. -/
theorem ascendWithin_eq {s : Side} {k : Nat} (h : g.Carries o (.plug fs t)) (hl : t.root? = some l)
    (hk : fs.length + 2 ≤ k) : g.ascendWithin s k l = some ((Shape.beyond s fs).head?.getD o) := by
  induction fs generalizing l t k with
  | nil =>
    obtain ⟨k, rfl⟩ : ∃ m, k = m + 2 := ⟨k - 2, by omega⟩
    have hparent : g.parent l = some o := h.parent_at hl
    have ho : g.ascendWithin s (k + 1) o = some o := by
      simp only [ascendWithin, h.parent]
    simp only [ascendWithin, hparent, Shape.beyond, List.head?_nil, Option.getD_none]
    split_ifs
    · exact ho
    · rfl
  | cons f fs ih =>
    obtain ⟨k, rfl⟩ : ∃ m, k = m + 1 := ⟨k - 1, by omega⟩
    have hparent : g.parent l = some f.link := h.parent_at hl
    simp only [ascendWithin, hparent, Shape.beyond]
    by_cases hs : f.side = s
    · rw [if_pos ((h.child_frame_eq_iff hl s).mpr hs), if_pos hs, List.nil_append]
      exact ih (t := f.fill t) h (f.root?_fill t) (by simpa using hk)
    · rw [if_neg (fun hchild => hs ((h.child_frame_eq_iff hl s).mp hchild)), if_neg hs]
      rfl

/-- The way up from a place leads to the origin. -/
theorem topWithin_eq {k : Nat} (h : g.Carries o (.plug fs t)) (hl : t.root? = some l)
    (hk : fs.length + 2 ≤ k) : g.topWithin k l = some o := by
  induction fs generalizing l t k with
  | nil =>
    obtain ⟨k, rfl⟩ : ∃ m, k = m + 2 := ⟨k - 2, by omega⟩
    have hparent : g.parent l = some o := h.parent_at hl
    simp only [topWithin, hparent, h.parent]
  | cons f fs ih =>
    obtain ⟨k, rfl⟩ : ∃ m, k = m + 1 := ⟨k - 1, by omega⟩
    have hparent : g.parent l = some f.link := h.parent_at hl
    simp only [topWithin, hparent]
    exact ih (t := f.fill t) h (f.root?_fill t) (by simpa using hk)

/-- The top above every link of a carried shape is the origin. -/
theorem top_eq (h : g.Carries o t) (hl : l ∈ t.inorder) : g.top l = some o := by
  obtain ⟨fs, a, b, rfl⟩ := Shape.exists_place hl
  exact h.topWithin_eq rfl (h.length_frames_lt_of_root rfl)

/-- A step from a link of a carried shape towards one side leads to the next link that way, or the origin. -/
theorem neighbour_eq {s : Side} {xs ys : List (LinkId n)} (h : g.Carries o t)
    (hsplit : t.linksTowards s = xs ++ l :: ys) : g.neighbour l s = some (ys.head?.getD o) := by
  have hl : l ∈ t.inorder := (Shape.mem_linksTowards s t l).mp (by simp [hsplit])
  obtain ⟨fs, a, b, rfl⟩ := Shape.exists_place hl
  obtain ⟨c, d, hnode⟩ : ∃ c d, Shape.node a l b = .fork s c l d := by
    cases s
    · exact ⟨a, b, rfl⟩
    · exact ⟨b, a, rfl⟩
  have hnodup := Shape.nodup_linksTowards (s := s) h.nodup
  obtain ⟨zs, hzs⟩ := Shape.linksTowards_plug s fs (.node a l b)
  rw [hnode, Shape.linksTowards_fork, ← hnode] at hzs
  -- links are distinct, so the order is cut in one way only
  have hys : ys = c.linksTowards s ++ Shape.beyond s fs := by
    rw [hsplit] at hzs hnodup
    have hcut : xs ++ l :: ys = (zs ++ d.linksTowards s) ++ l :: (c.linksTowards s ++ Shape.beyond s fs) := by
      rw [hzs]
      simp
    obtain ⟨-, htail, hapart⟩ := List.nodup_append.mp hnodup
    have hx : l ∉ xs := fun hmem => hapart l hmem l (by simp) rfl
    exact ((List.append_cons_inj_of_notMem hx (List.nodup_cons.mp htail).1).mp hcut).2.2
  have hspans := h.at_place
  rw [hnode] at hspans
  obtain ⟨-, -, hc, -⟩ := (spans_fork s _ _ l c d).mp hspans
  have hroot : (Shape.node a l b).root? = some l := rfl
  rw [hys, List.head?_append]
  simp only [neighbour, hc.slot_eq]
  cases hrc : c.root? with
  | none =>
    rw [Shape.root?_eq_none_iff] at hrc
    simp only [hrc, Shape.linksTowards_empty, List.head?_nil, Option.none_or]
    exact h.ascendWithin_eq hroot (h.length_frames_lt_of_root hroot)
  | some r =>
    have hheight : c.height ≤ n := by
      have hle := h.height_le
      have hsub := (Shape.height_le_length c).trans (Shape.length_inorder_le
        ((Shape.nodup_inorder_fork s c l d).mp (hnode ▸ h.nodup_at)).2.2.1)
      omega
    have hdown := descendWithin_eq (s := s.other) hc hrc hheight
    rw [Side.other_other] at hdown
    obtain ⟨x, hx⟩ := Shape.exists_head?_linksTowards s hrc
    simp only [outermost, hdown, hx, Option.some_or, Option.getD_some]

/-- A step forward from a link of a carried shape leads to the link after it, or the origin. -/
theorem successor_eq {xs ys : List (LinkId n)} (h : g.Carries o t) (hsplit : t.inorder = xs ++ l :: ys) :
    g.successor l = some (ys.head?.getD o) := by
  have hnot : ¬ g.isOrigin l = true := by
    have hl : l ∈ t.inorder := by simp [hsplit]
    obtain ⟨fs, a, b, rfl⟩ := Shape.exists_place hl
    have hparent : g.parent l = some _ := h.parent_at (t := .node a l b) rfl
    simp [isOrigin, hparent]
  rw [successor, if_neg hnot]
  exact h.neighbour_eq (s := .right) hsplit

/-- The origin follows itself. -/
theorem successor_origin (h : g.Carries o t) : g.successor o = some o := by
  rw [successor, if_pos h.isOrigin_origin]

/-- A step back from a link of a carried shape leads to the link before it, or the origin. -/
theorem predecessor_eq {xs ys : List (LinkId n)} (h : g.Carries o t) (hsplit : t.inorder = xs ++ l :: ys) :
    g.predecessor l = some (xs.getLast?.getD o) := by
  have hrev : t.linksTowards .left = ys.reverse ++ l :: xs.reverse := by
    simp [Shape.linksTowards, hsplit]
  rw [predecessor, h.neighbour_eq hrev, List.head?_reverse]

/-- The way down one side from the topmost link of a carried shape. -/
theorem outermost_root {s : Side} {r : LinkId n} (h : g.Carries o t) (hr : t.root? = some r) :
    g.outermost r s = (t.linksTowards s.other).head? :=
  descendWithin_eq h.spans hr h.height_le

/-- The first link of a carried shape, or the origin, lies down the left side of the origin. -/
theorem outermost_origin (h : g.Carries o t) : g.outermost o .left = some (t.inorder.head?.getD o) := by
  apply h.spans.outermost_above
  have hlt := Shape.length_inorder_lt h.nodup h.fresh
  have hheight := Shape.height_le_length t
  omega

/-- The last link of a carried shape, or the origin, comes before the origin. -/
theorem predecessor_origin (h : g.Carries o t) : g.predecessor o = some (t.inorder.getLast?.getD o) := by
  have hn : 0 < n := o.pos
  simp only [predecessor, neighbour, h.spans.slot_eq]
  cases hr : t.root? with
  | none =>
    rw [Shape.root?_eq_none_iff] at hr
    have hstay : ∀ m, 0 < m → g.ascendWithin .left m o = some o := by
      intro m hm
      obtain ⟨m, rfl⟩ : ∃ k, m = k + 1 := ⟨m - 1, by omega⟩
      simp only [ascendWithin, h.parent]
    simp only [turningPoint, hstay n hn, hr, Shape.inorder, List.getLast?_nil, Option.getD_none]
  | some r =>
    obtain ⟨x, hx⟩ := Shape.exists_head?_linksTowards .left hr
    have hroot := h.outermost_root (s := .right) hr
    simp only [Side.other, Shape.linksTowards, List.head?_reverse] at hroot hx ⊢
    simp only [hroot, hx, Option.getD_some]

end Carries

end Links

end BalancedLinks
