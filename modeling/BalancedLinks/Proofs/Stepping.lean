import BalancedLinks.Proofs.Listing
import Mathlib.Data.List.GetD
import Mathlib.Data.Nat.ModEq

/-!
# Steps of cursors

What any number of steps comes to, forward and back. The way forward goes through the links of a tree and stays at
the end. The way back goes round: from the end to the last link, down to the first one, and to the end again. Neither
depends on the heights of the tree or on the balances that it records.

The main statement is `LinkedTree.WellFormed.stepsThrough`.
-/

set_option autoImplicit false

namespace BalancedLinks

namespace Cursor

variable {α : Type} {n : Nat}

/-- The cursor one step further towards a side. -/
def step (c : Cursor n) (g : Links α n) : Side → Except Failure (Cursor n)
  | .right => c.next g
  | .left => c.previous g

/-- The cursor after a number of steps towards a side. -/
def steps (g : Links α n) (s : Side) : Nat → Cursor n → Except Failure (Cursor n)
  | 0, c => .ok c
  | k + 1, c => (c.step g s).bind (steps g s k)

/-- Whether a walk from a cursor, forward until it stands where it is to stop, reads these elements. -/
inductive Walks (g : Links α n) (stop : Cursor n) : Cursor n → List α → Prop
  | stop : Walks g stop stop []
  | step {c d : Cursor n} {a : α} {as : List α} (differs : c ≠ stop) (value : c.value g = .ok a)
      (next : c.next g = .ok d) (rest : Walks g stop d as) : Walks g stop c (a :: as)

/-- A step of a cursor is one of the link that it stands on. -/
theorem step_on (g : Links α n) (l : LinkId n) (s : Side) :
    (on l).step g s = (reached (g.step l s)).map on := by
  cases s <;> rfl

end Cursor

namespace LinkedTree

variable {α : Type} {n : Nat} {x : LinkedTree α n}

namespace Passes

variable {s : Side} {ls xs ys : List (LinkId n)} {l : LinkId n}

/-- A step leads a cursor to the next link on the way, and from the last one to the end. -/
theorem step_cursor (h : x.Passes s ls) (hsplit : ls = xs ++ l :: ys) :
    (Cursor.on l).step x.links s = .ok (.on (ys.head?.getD x.origin)) := by
  rw [Cursor.step_on, h.step hsplit]
  rfl

/-- A step leads a cursor from one position on the way to the next, and from the last one to the end. -/
theorem step_cursor_at (h : x.Passes s ls) {i : Nat} (hi : i < ls.length) :
    (Cursor.on ls[i]).step x.links s = .ok (.on (ls[i + 1]?.getD x.origin)) := by
  have hsplit : ls = ls.take i ++ ls[i] :: ls.drop (i + 1) := by
    rw [List.getElem_cons_drop, List.take_append_drop]
  rw [h.step_cursor hsplit, List.head?_drop]

/-! ## Forward -/

/-- Steps forward go through the links and stay at the end. -/
theorem steps_forward (h : x.Passes .right ls) (hend : x.links.successor x.origin = some x.origin) (i k : Nat) :
    Cursor.steps x.links .right k (.on (ls[i]?.getD x.origin)) = .ok (.on (ls[i + k]?.getD x.origin)) := by
  induction k generalizing i with
  | zero => rfl
  | succ k ih =>
    have hstep : (Cursor.on (ls[i]?.getD x.origin)).step x.links .right =
        .ok (.on (ls[i + 1]?.getD x.origin)) := by
      by_cases hi : i < ls.length
      · rw [List.getElem?_eq_getElem hi]
        exact h.step_cursor_at hi
      · have hstay : (Cursor.on x.origin).step x.links .right = .ok (.on x.origin) := by
          rw [Cursor.step_on, Links.step, hend]
          rfl
        rw [List.getElem?_eq_none (by omega), List.getElem?_eq_none (by omega)]
        exact hstay
    rw [Cursor.steps, hstep]
    show Cursor.steps x.links .right k _ = _
    rw [ih (i + 1), Nat.add_assoc, Nat.add_comm 1]

/-- The walk forward begins at the first link on the way. -/
theorem begin_eq (h : x.Passes .right ls) : x.beginCursor = .ok (.on (ls.head?.getD x.origin)) := by
  have hfirst : x.links.outermost x.origin .left = some (ls.head?.getD x.origin) := h.first
  rw [beginCursor, hfirst]
  rfl

/-- Steps forward from the beginning lead to the links by their positions, and then to the end. -/
theorem forward_eq (h : x.Passes .right ls) (hend : x.links.successor x.origin = some x.origin) (k : Nat) :
    x.beginCursor.bind (Cursor.steps x.links .right k) = .ok (.on (ls[k]?.getD x.origin)) := by
  have hsteps := h.steps_forward hend 0 k
  rw [Nat.zero_add, ← List.head?_eq_getElem?] at hsteps
  rw [h.begin_eq]
  exact hsteps

/-- A walk that goes on from a link on its way reads the elements from there on. -/
theorem walks (h : x.Passes .right ls) (hsplit : ls = xs ++ ys) :
    Cursor.Walks x.links x.endCursor (.on (ys.head?.getD x.origin)) (ys.filterMap x.links.owner) := by
  induction ys generalizing xs with
  | nil => exact .stop
  | cons l ys ih =>
    have hl : l ∈ ls := by simp [hsplit]
    obtain ⟨a, ha⟩ := h.owned l hl
    have hdiffers : Cursor.on l ≠ x.endCursor := by
      intro heq
      apply h.fresh
      have hlo : l = x.origin := Option.some.inj (congrArg Cursor.link heq)
      exact hlo ▸ hl
    have hvalue : (Cursor.on l).value x.links = .ok a := by
      simp only [Cursor.value, Cursor.on, ha]
    rw [List.filterMap_cons_some ha]
    apply Cursor.Walks.step hdiffers hvalue (h.step_cursor hsplit)
    have hrest : ls = (xs ++ [l]) ++ ys := by simp [hsplit]
    exact ih hrest

end Passes

/-! ## Back -/

/-- The positions of a way back, counted from the end of the tree and over again after the last. -/
def positionAt (x : LinkedTree α n) (ls : List (LinkId n)) (i : Nat) : LinkId n :=
  (x.origin :: ls).getD (i % (ls.length + 1)) x.origin

/-- Every link of the way back, and the end, has a position there. -/
theorem exists_positionAt {ls : List (LinkId n)} {l : LinkId n} (hl : l ∈ x.origin :: ls) :
    ∃ i ≤ ls.length, x.positionAt ls i = l := by
  obtain ⟨i, hi, rfl⟩ := List.mem_iff_getElem.mp hl
  refine ⟨i, Nat.le_of_lt_succ hi, ?_⟩
  have hmod : i % (ls.length + 1) = i := Nat.mod_eq_of_lt hi
  rw [positionAt, hmod, List.getD_eq_getElem _ _ hi]

namespace Passes

variable {ls : List (LinkId n)}

/-- Two positions of the way back are the same exactly if whole rounds lie between them. -/
theorem positionAt_inj (h : x.Passes .left ls) (i j : Nat) :
    x.positionAt ls i = x.positionAt ls j ↔ i ≡ j [MOD ls.length + 1] := by
  have hnodup : (x.origin :: ls).Nodup := List.nodup_cons.mpr ⟨h.fresh, h.nodup⟩
  have hlt : ∀ i, i % (ls.length + 1) < (x.origin :: ls).length := fun i => Nat.mod_lt i (Nat.succ_pos _)
  rw [positionAt, positionAt, List.getD_eq_getElem _ _ (hlt i), List.getD_eq_getElem _ _ (hlt j),
    hnodup.getElem_inj_iff]
  rfl

/-- A step back leads to the next position. -/
theorem step_back (h : x.Passes .left ls) (i : Nat) :
    (Cursor.on (x.positionAt ls i)).step x.links .left = .ok (.on (x.positionAt ls (i + 1))) := by
  have hlt := Nat.mod_lt i (Nat.succ_pos ls.length)
  rw [positionAt, positionAt, ← Nat.mod_add_mod]
  generalize i % (ls.length + 1) = j at hlt ⊢
  cases j with
  | zero =>
    have hfirst : x.links.predecessor x.origin = some (ls.head?.getD x.origin) := h.first
    rw [List.getD_cons_zero, Cursor.step_on, Links.step, hfirst]
    cases ls with
    | nil =>
      rw [List.length_nil, Nat.mod_self]
      rfl
    | cons l ls =>
      rw [Nat.mod_eq_of_lt (by simp)]
      rfl
  | succ j =>
    have hj : j < ls.length := by omega
    rw [List.getD_cons_succ, List.getD_eq_getElem _ _ hj, h.step_cursor_at hj]
    by_cases hlast : j + 1 < ls.length
    · rw [Nat.mod_eq_of_lt (by omega), List.getD_cons_succ, List.getD_eq_getElem?_getD]
    · have hround : j + 1 + 1 = ls.length + 1 := by omega
      rw [hround, Nat.mod_self, List.getElem?_eq_none (by omega)]
      rfl

/-- Steps back lead on by as many positions. -/
theorem steps_back (h : x.Passes .left ls) (i k : Nat) :
    Cursor.steps x.links .left k (.on (x.positionAt ls i)) = .ok (.on (x.positionAt ls (i + k))) := by
  induction k generalizing i with
  | zero => rfl
  | succ k ih =>
    rw [Cursor.steps, h.step_back]
    show Cursor.steps x.links .left k _ = _
    rw [ih (i + 1), Nat.add_assoc, Nat.add_comm 1]

/-- Steps back from a position return to it exactly after whole rounds. -/
theorem steps_back_eq_iff (h : x.Passes .left ls) {l : LinkId n} (hl : l ∈ x.origin :: ls) (k : Nat) :
    Cursor.steps x.links .left k (.on l) = .ok (.on l) ↔ ls.length + 1 ∣ k := by
  obtain ⟨i, -, rfl⟩ := exists_positionAt hl
  rw [h.steps_back, Except.ok.injEq, ← Nat.add_modEq_left_iff, ← h.positionAt_inj]
  constructor
  · intro heq
    exact Option.some.inj (congrArg Cursor.link heq)
  · intro heq
    rw [heq]

/-- Less than a whole round of steps back leads from each position to each. -/
theorem exists_steps_back (h : x.Passes .left ls) {l k : LinkId n} (hl : l ∈ x.origin :: ls)
    (hk : k ∈ x.origin :: ls) : ∃ d ≤ ls.length, Cursor.steps x.links .left d (.on l) = .ok (.on k) := by
  obtain ⟨i, hi, rfl⟩ := exists_positionAt hl
  obtain ⟨j, hj, rfl⟩ := exists_positionAt hk
  have hto : ∀ d, i + d ≡ j [MOD ls.length + 1] →
      Cursor.steps x.links .left d (.on (x.positionAt ls i)) = .ok (.on (x.positionAt ls j)) := by
    intro d hd
    rw [h.steps_back, (h.positionAt_inj _ _).mpr hd]
  by_cases hij : i ≤ j
  · refine ⟨j - i, by omega, hto _ ?_⟩
    rw [Nat.add_sub_cancel' hij]
  · refine ⟨j + (ls.length + 1) - i, by omega, hto _ ?_⟩
    rw [Nat.add_sub_cancel' (by omega)]
    exact Nat.add_modEq_right

end Passes

/-! ## Well-formed trees -/

/--
What steps come to in a tree of these links, which have these elements. A step leads to the neighbouring link, and
over the ends it leads to the origin, where only a step back leads on. Steps forward from the beginning come to each
link in turn, and to the end for ever. The step back permutes the links and the end in one round. Traversals and
the walk from the beginning to the end read all elements in order.
-/
structure StepsThrough (x : LinkedTree α n) (ls : List (LinkId n)) (as : List α) : Prop where
  owners : ls.map x.links.owner = as.map some
  successor : ∀ xs l ys, ls = xs ++ l :: ys → x.links.successor l = some (ys.head?.getD x.origin)
  successor_origin : x.links.successor x.origin = some x.origin
  predecessor : ∀ xs l ys, ls = xs ++ l :: ys → x.links.predecessor l = some (xs.getLast?.getD x.origin)
  predecessor_origin : x.links.predecessor x.origin = some (ls.getLast?.getD x.origin)
  undone : ∀ l ∈ ls, (x.links.successor l).bind x.links.predecessor = some l
  forward : ∀ k, x.beginCursor.bind (Cursor.steps x.links .right k) = .ok (.on (ls[k]?.getD x.origin))
  returns : ∀ l ∈ x.origin :: ls, ∀ k,
    Cursor.steps x.links .left k (.on l) = .ok (.on l) ↔ ls.length + 1 ∣ k
  cyclic : ∀ l ∈ x.origin :: ls, ∀ i ∈ x.origin :: ls,
    ∃ k ≤ ls.length, Cursor.steps x.links .left k (.on l) = .ok (.on i)
  ascending : x.collect .ascending = .ok as
  descending : x.collect .descending = .ok as.reverse
  walk : ∃ c, x.beginCursor = .ok c ∧ Cursor.Walks x.links x.endCursor c as

/-- Where each link has an owner, the owners are as many as the links. -/
theorem map_owner_eq {ls : List (LinkId n)} (howned : ∀ l ∈ ls, ∃ a, x.links.owner l = some a) :
    ls.map x.links.owner = (ls.filterMap x.links.owner).map some := by
  induction ls with
  | nil => rfl
  | cons l ls ih =>
    obtain ⟨⟨a, ha⟩, hrest⟩ := List.forall_mem_cons.mp howned
    rw [List.map_cons, List.filterMap_cons_some ha, List.map_cons, ih hrest, ha]

/-- Of a well-formed tree, whatever its shape, the links are stepped through in order. -/
theorem WellFormed.stepsThrough {t : Shape n} (h : x.WellFormed t) :
    x.StepsThrough t.inorder (t.inorder.filterMap x.links.owner) := by
  have hforward : x.Passes .right t.inorder := h.passes .right
  have hback : x.Passes .left t.inorder.reverse := h.passes .left
  have hend := h.carries.successor_origin
  have hpositions : ∀ l, l ∈ x.origin :: t.inorder → l ∈ x.origin :: t.inorder.reverse := by
    intro l hl
    rw [List.mem_cons] at hl ⊢
    exact hl.imp_right List.mem_reverse.mpr
  refine
    { owners := map_owner_eq h.owned
      successor := fun _ _ _ hsplit => h.carries.successor_eq hsplit
      successor_origin := hend
      predecessor := fun _ _ _ hsplit => h.carries.predecessor_eq hsplit
      predecessor_origin := h.carries.predecessor_origin
      undone := ?undone
      forward := hforward.forward_eq hend
      returns := ?returns
      cyclic := ?cyclic
      ascending := hforward.collect_eq
      descending := ?descending
      walk := ⟨_, hforward.begin_eq, hforward.walks (List.nil_append _).symm⟩ }
  case undone =>
    intro l hl
    obtain ⟨xs, ys, hsplit⟩ := List.append_of_mem hl
    rw [h.carries.successor_eq hsplit, Option.bind_some]
    cases ys with
    | nil =>
      show x.links.predecessor x.origin = some l
      rw [h.carries.predecessor_origin, hsplit, List.getLast?_concat]
      rfl
    | cons k ys =>
      have hsplit' : t.inorder = (xs ++ [l]) ++ k :: ys := by simp [hsplit]
      show x.links.predecessor k = some l
      rw [h.carries.predecessor_eq hsplit', List.getLast?_concat]
      rfl
  case returns =>
    intro l hl k
    rw [hback.steps_back_eq_iff (hpositions l hl), List.length_reverse]
  case cyclic =>
    intro l hl i hi
    obtain ⟨k, hk, hsteps⟩ := hback.exists_steps_back (hpositions l hl) (hpositions i hi)
    exact ⟨k, by rwa [List.length_reverse] at hk, hsteps⟩
  case descending =>
    rw [Traversal.descending, hback.collect_eq, List.filterMap_reverse]

/-- Four elements that hang in a zigzag, far from balanced, with balances that have never been recorded. -/
def zigzag : LinkedTree Nat 5 where
  tree := { tag := "", linkOf := fun a => Fin.ofNat 5 a, origin := 0, logger := none, verify := false,
            order := none, size := 4 }
  links := ⟨#v[{ owner := none, tag := "", parent := none, left := some 4, right := none, balance := .level },
    { owner := some 1, tag := "", parent := some 4, left := none, right := some 3, balance := .level },
    { owner := some 2, tag := "", parent := some 3, left := none, right := none, balance := .level },
    { owner := some 3, tag := "", parent := some 1, left := some 2, right := none, balance := .level },
    { owner := some 4, tag := "", parent := some 0, left := some 1, right := none, balance := .level }]⟩

/-- The shape of the zigzag: the way down turns at each link. -/
def zigzagShape : Shape 5 :=
  .node (.node .empty 1 (.node (.node .empty 2 .empty) 3 .empty)) 4 .empty

/-- That tree is well formed, whatever it records of heights. -/
theorem zigzag_wellFormed : zigzag.WellFormed zigzagShape := by
  have hspans : zigzag.links.Spans zigzag.root zigzag.origin zigzagShape :=
    ⟨rfl, rfl, ⟨rfl, rfl, rfl, ⟨rfl, rfl, ⟨rfl, rfl, rfl, rfl⟩, rfl⟩⟩, rfl⟩
  refine ⟨⟨hspans, by decide, by decide, rfl, rfl⟩, ?_⟩
  intro l hl
  have hmem : l = 1 ∨ l = 2 ∨ l = 3 ∨ l = 4 := by simpa [zigzagShape, Shape.inorder] using hl
  rcases hmem with rfl | rfl | rfl | rfl
  · exact ⟨1, rfl⟩
  · exact ⟨2, rfl⟩
  · exact ⟨3, rfl⟩
  · exact ⟨4, rfl⟩

/-- Cursors step through its four elements both ways. -/
theorem stepsThrough_zigzag :
    zigzag.WellFormed zigzagShape ∧ zigzag.StepsThrough [1, 2, 3, 4] [1, 2, 3, 4] :=
  ⟨zigzag_wellFormed, zigzag_wellFormed.stepsThrough⟩

end LinkedTree

end BalancedLinks
