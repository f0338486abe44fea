import BalancedLinks.Link
import Mathlib.Data.Fintype.Card
import Mathlib.Data.List.Nodup

/-!
# Shapes

A shape says which links stand where in a tree, without their records: it is what the references of a tree
unfold to. A place in a shape is the subshape there together with the frames above it, innermost first.

The main statements are `Shape.inorder_plug`, which cuts the order of the links at a place, and
`Shape.inorder_lifted`: lifting a child above its parent keeps that order.
-/

set_option autoImplicit false

namespace BalancedLinks

/-- The links of a tree in their places. -/
inductive Shape (n : Nat) where
  | empty
  | node (left : Shape n) (l : LinkId n) (right : Shape n)
  deriving DecidableEq, Repr

namespace Shape

variable {n : Nat}

/-- The number of links on the longest way down. -/
def height : Shape n → Nat
  | .empty => 0
  | .node a _ b => 1 + max a.height b.height

/-- The links from left to right. -/
def inorder : Shape n → List (LinkId n)
  | .empty => []
  | .node a l b => a.inorder ++ l :: b.inorder

/-- The topmost link. -/
def root? : Shape n → Option (LinkId n)
  | .empty => none
  | .node _ l _ => some l

/-- The height of the right subshape less that of the left one. -/
def tilt : Shape n → Int
  | .empty => 0
  | .node a _ b => b.height - a.height

/-- Whether the heights of the two subshapes differ by at most one at every link. -/
def Balanced : Shape n → Prop
  | .empty => True
  | .node a l b => (Shape.node a l b).tilt.natAbs ≤ 1 ∧ a.Balanced ∧ b.Balanced

/-- How much higher the subshape on the given side is. -/
def lead (s : Side) (t : Shape n) : Int :=
  match s with
  | .left => -t.tilt
  | .right => t.tilt

/-! ## Forks -/

/-- A link with a subshape on the given side, and another one on the other side. -/
def fork (s : Side) (near : Shape n) (l : LinkId n) (far : Shape n) : Shape n :=
  match s with
  | .left => .node near l far
  | .right => .node far l near

/-- A fork seen from the other side has its subshapes exchanged. -/
@[simp] theorem fork_other (s : Side) (a : Shape n) (l : LinkId n) (b : Shape n) :
    fork s.other a l b = fork s b l a := by
  cases s <;> rfl

/-- A shape that is not empty forks towards either side. -/
theorem eq_empty_or_fork (s : Side) (t : Shape n) : t = .empty ∨ ∃ a l b, t = fork s a l b := by
  cases t with
  | empty => exact Or.inl rfl
  | node a l b =>
    cases s with
    | left => exact Or.inr ⟨a, l, b, rfl⟩
    | right => exact Or.inr ⟨b, l, a, rfl⟩

/-- A fork is one level higher than the higher of its sides. -/
@[simp] theorem height_fork (s : Side) (a : Shape n) (l : LinkId n) (b : Shape n) :
    (fork s a l b).height = 1 + max a.height b.height := by
  cases s
  · rfl
  · simp [fork, height, max_comm]

/-- The root of a fork is its link. -/
@[simp] theorem root?_fork (s : Side) (a : Shape n) (l : LinkId n) (b : Shape n) :
    (fork s a l b).root? = some l := by
  cases s <;> rfl

/-- A fork leads on a side by the difference of the heights. -/
@[simp] theorem lead_fork (s : Side) (a : Shape n) (l : LinkId n) (b : Shape n) :
    (fork s a l b).lead s = a.height - b.height := by
  cases s
  · simp only [fork, lead, tilt]
    omega
  · rfl

/-- How far a fork tilts is the difference of the heights. -/
theorem natAbs_tilt_fork (s : Side) (a : Shape n) (l : LinkId n) (b : Shape n) :
    (fork s a l b).tilt.natAbs = ((a.height : Int) - b.height).natAbs := by
  cases s
  · simp only [fork, tilt]
    omega
  · rfl

/-- A fork is balanced if its sides are and their heights differ by one at most. -/
@[simp] theorem balanced_fork (s : Side) (a : Shape n) (l : LinkId n) (b : Shape n) :
    (fork s a l b).Balanced ↔
      ((a.height : Int) - b.height).natAbs ≤ 1 ∧ a.Balanced ∧ b.Balanced := by
  rw [← natAbs_tilt_fork s a l b]
  cases s
  · exact Iff.rfl
  · exact and_congr_right fun _ => and_comm

/-- The links of a fork are its own and those of its sides. -/
@[simp] theorem mem_inorder_fork (s : Side) (a : Shape n) (l : LinkId n) (b : Shape n) (k : LinkId n) :
    k ∈ (fork s a l b).inorder ↔ k = l ∨ k ∈ a.inorder ∨ k ∈ b.inorder := by
  cases s <;> simp only [fork, inorder, List.mem_append, List.mem_cons] <;> tauto

/-- The links of a fork are distinct where those of its subshapes are, and its own link is in neither. -/
theorem nodup_inorder_fork (s : Side) (a : Shape n) (l : LinkId n) (b : Shape n) :
    (fork s a l b).inorder.Nodup ↔
      l ∉ a.inorder ∧ l ∉ b.inorder ∧ a.inorder.Nodup ∧ b.inorder.Nodup ∧
        ∀ k ∈ a.inorder, k ∉ b.inorder := by
  cases s
  all_goals
    simp only [fork, inorder, List.nodup_append, List.nodup_cons, List.mem_cons, ne_eq]
    constructor
  · rintro ⟨ha, ⟨hl, hb⟩, hab⟩
    exact ⟨fun h => hab l h l (Or.inl rfl) rfl, hl, ha, hb, fun k hk hk' => hab k hk k (Or.inr hk') rfl⟩
  · rintro ⟨hla, hlb, ha, hb, hab⟩
    refine ⟨ha, ⟨hlb, hb⟩, ?_⟩
    rintro k hk k' (rfl | hk') rfl
    · exact hla hk
    · exact hab k hk hk'
  · rintro ⟨hb, ⟨hl, ha⟩, hab⟩
    exact ⟨hl, fun h => hab l h l (Or.inl rfl) rfl, ha, hb, fun k hk hk' => hab k hk' k (Or.inr hk) rfl⟩
  · rintro ⟨hla, hlb, ha, hb, hab⟩
    refine ⟨hb, ⟨hla, ha⟩, ?_⟩
    rintro k hk k' (rfl | hk') rfl
    · exact hlb hk
    · exact hab k hk' hk

/-- A node is a fork seen from the left. -/
theorem node_eq_fork (a : Shape n) (l : LinkId n) (b : Shape n) : Shape.node a l b = fork .left a l b :=
  rfl

/-- The links of a node are its own and those of its sides. -/
@[simp] theorem mem_inorder_node (a : Shape n) (l : LinkId n) (b : Shape n) (k : LinkId n) :
    k ∈ (Shape.node a l b).inorder ↔ k = l ∨ k ∈ a.inorder ∨ k ∈ b.inorder :=
  mem_inorder_fork .left a l b k

/-! ## Bounds -/

/-- A shape has at least as many links as levels. -/
theorem height_le_length (t : Shape n) : t.height ≤ t.inorder.length := by
  induction t with
  | empty => exact Nat.le_refl 0
  | node a l b iha ihb =>
    simp only [height, inorder, List.length_append, List.length_cons]
    omega

/-- Distinct links are at most as many as there are. -/
theorem length_inorder_le {t : Shape n} (h : t.inorder.Nodup) : t.inorder.length ≤ n := by
  simpa only [Fintype.card_fin] using h.length_le_card

/-- With a further link outside them, distinct links are fewer than there are. -/
theorem length_inorder_lt {t : Shape n} (h : t.inorder.Nodup) {o : LinkId n} (ho : o ∉ t.inorder) :
    t.inorder.length < n := by
  have hcons : (o :: t.inorder).Nodup := List.nodup_cons.mpr ⟨ho, h⟩
  have hle := hcons.length_le_card
  simp only [Fintype.card_fin, List.length_cons] at hle
  omega

/-- The root is one of the links. -/
theorem root?_mem {t : Shape n} {l : LinkId n} (h : t.root? = some l) : l ∈ t.inorder := by
  cases t with
  | empty => simp [root?] at h
  | node a k b =>
    simp only [root?, Option.some.injEq] at h
    simp [h]

/-- The empty shape alone has no root. -/
@[simp] theorem root?_eq_none_iff (t : Shape n) : t.root? = none ↔ t = .empty := by
  cases t <;> simp [root?]

/-- Every other shape has a root. -/
theorem exists_root? {t : Shape n} (h : t ≠ .empty) : ∃ l, t.root? = some l :=
  Option.ne_none_iff_exists'.mp (mt (root?_eq_none_iff t).mp h)

/-! ## Lifting a child -/

/-- The shape with the child on the given side lifted above the topmost link, which becomes its child. -/
def lifted (s : Side) (t : Shape n) : Shape n :=
  match s, t with
  | .left, .node (.node a p b) l c => .node a p (.node b l c)
  | .right, .node a l (.node b p c) => .node (.node a l b) p c
  | _, t => t

/-- Lifting the child of a fork makes its link the root. -/
@[simp] theorem lifted_fork (s : Side) (a b c : Shape n) (p l : LinkId n) :
    (fork s (fork s a p b) l c).lifted s = fork s a p (fork s b l c) := by
  cases s <;> rfl

/-- Lifting a child keeps the order of the links. -/
@[simp] theorem inorder_lifted (s : Side) (t : Shape n) : (t.lifted s).inorder = t.inorder := by
  match s, t with
  | .left, .empty => rfl
  | .left, .node .empty _ _ => rfl
  | .left, .node (.node _ _ _) _ _ => simp [lifted, inorder]
  | .right, .empty => rfl
  | .right, .node _ _ .empty => rfl
  | .right, .node _ _ (.node _ _ _) => simp [lifted, inorder]

/-- A fork whose child was lifted has its links in the same order. -/
theorem inorder_fork_lifted (s : Side) (a b c : Shape n) (p l : LinkId n) :
    (fork s a p (fork s b l c)).inorder = (fork s (fork s a p b) l c).inorder := by
  rw [← lifted_fork, inorder_lifted]

end Shape

/-! ## Places -/

/-- One link above a place: the side on which the place lies below it, and the subshape on the other side. -/
structure Frame (n : Nat) where
  side : Side
  link : LinkId n
  rest : Shape n
  deriving DecidableEq, Repr

namespace Frame

variable {n : Nat}

/-- The shape at the frame's link, given the one at the place below it. -/
def fill (f : Frame n) (t : Shape n) : Shape n :=
  .fork f.side t f.link f.rest

/-- The height at the frame's link, given the height at the place below it. -/
def heightOver (f : Frame n) (h : Nat) : Nat :=
  1 + max h f.rest.height

/-- How much higher the side of the place is than the other one, given the height at the place. -/
def leadOver (f : Frame n) (h : Nat) : Int :=
  h - f.rest.height

/-- The tilt at the frame's link, given the height at the place below it. -/
def tiltOver (f : Frame n) (h : Nat) : Int :=
  match f.side with
  | .left => -f.leadOver h
  | .right => f.leadOver h

/-- A filled frame is as high as the frame over the height of its filling. -/
@[simp] theorem height_fill (f : Frame n) (t : Shape n) : (f.fill t).height = f.heightOver t.height :=
  Shape.height_fork f.side t f.link f.rest

/-- The root of a filled frame is its link. -/
@[simp] theorem root?_fill (f : Frame n) (t : Shape n) : (f.fill t).root? = some f.link :=
  Shape.root?_fork f.side t f.link f.rest

/-- How far a filled frame leads depends on the height of its filling. -/
@[simp] theorem lead_fill (f : Frame n) (t : Shape n) : (f.fill t).lead f.side = f.leadOver t.height :=
  Shape.lead_fork f.side t f.link f.rest

/-- How far a filled frame tilts depends on the height of its filling. -/
@[simp] theorem tilt_fill (f : Frame n) (t : Shape n) : (f.fill t).tilt = f.tiltOver t.height := by
  obtain ⟨s, l, r⟩ := f
  cases s
  · simp only [fill, Shape.fork, Shape.tilt, tiltOver, leadOver]
    omega
  · rfl

/-- What the frame puts before the links of the place. -/
def before (f : Frame n) : List (LinkId n) :=
  match f.side with
  | .left => []
  | .right => f.rest.inorder ++ [f.link]

/-- What the frame puts after the links of the place. -/
def after (f : Frame n) : List (LinkId n) :=
  match f.side with
  | .left => f.link :: f.rest.inorder
  | .right => []

/-- The links of the frame stand around those of its filling. -/
theorem inorder_fill (f : Frame n) (t : Shape n) :
    (f.fill t).inorder = f.before ++ t.inorder ++ f.after := by
  obtain ⟨s, l, r⟩ := f
  cases s <;> simp [fill, before, after, Shape.fork, Shape.inorder]

/-- The links around a filling are those of the frame. -/
theorem mem_before_or_after_iff (f : Frame n) (k : LinkId n) :
    k ∈ f.before ∨ k ∈ f.after ↔ k = f.link ∨ k ∈ f.rest.inorder := by
  obtain ⟨s, l, r⟩ := f
  cases s <;> simp [before, after, or_comm]

end Frame

namespace Shape

variable {n : Nat}

/-- The whole shape, given the frames above a place and the subshape there. -/
def plug : List (Frame n) → Shape n → Shape n
  | [], t => t
  | f :: fs, t => plug fs (f.fill t)

/-- Without frames there is nothing around a subshape. -/
@[simp] theorem plug_nil (t : Shape n) : plug [] t = t :=
  rfl

/-- The lowest frame is filled first. -/
@[simp] theorem plug_cons (f : Frame n) (fs : List (Frame n)) (t : Shape n) :
    plug (f :: fs) t = plug fs (f.fill t) :=
  rfl

/-- Frames are filled one after the other. -/
theorem plug_append (fs gs : List (Frame n)) (t : Shape n) : plug (fs ++ gs) t = plug gs (plug fs t) := by
  induction fs generalizing t with
  | nil => rfl
  | cons f fs ih => exact ih (f.fill t)

/-- A place below the right child of a link is a place of the whole shape. -/
theorem plug_node_plug (fs ds : List (Frame n)) (a : Shape n) (l : LinkId n) (t : Shape n) :
    plug fs (.node a l (plug ds t)) = plug (ds ++ ⟨.right, l, a⟩ :: fs) t := by
  rw [plug_append]
  rfl

/-- The links before a place. -/
def linksBefore : List (Frame n) → List (LinkId n)
  | [] => []
  | f :: fs => linksBefore fs ++ f.before

/-- The links after a place. -/
def linksAfter : List (Frame n) → List (LinkId n)
  | [] => []
  | f :: fs => f.after ++ linksAfter fs

/-- The order of the links, cut at a place. -/
theorem inorder_plug (fs : List (Frame n)) (t : Shape n) :
    (plug fs t).inorder = linksBefore fs ++ t.inorder ++ linksAfter fs := by
  induction fs generalizing t with
  | nil => simp [linksBefore, linksAfter]
  | cons f fs ih =>
    simp only [plug_cons, ih, Frame.inorder_fill, linksBefore, linksAfter, List.append_assoc]

/-- The links before a place are those of the upper frames, then those of the lower ones. -/
@[simp] theorem linksBefore_append (fs gs : List (Frame n)) :
    linksBefore (fs ++ gs) = linksBefore gs ++ linksBefore fs := by
  induction fs with
  | nil => simp [linksBefore]
  | cons f fs ih => simp [linksBefore, ih]

/-- The links after a place are those of the lower frames, then those of the upper ones. -/
@[simp] theorem linksAfter_append (fs gs : List (Frame n)) :
    linksAfter (fs ++ gs) = linksAfter fs ++ linksAfter gs := by
  induction fs with
  | nil => rfl
  | cons f fs ih => simp [linksAfter, ih]

/-- The links on both sides of a place. -/
def around (fs : List (Frame n)) : List (LinkId n) :=
  linksBefore fs ++ linksAfter fs

/-- The links around a place are those of its frames. -/
@[simp] theorem mem_around_cons (f : Frame n) (fs : List (Frame n)) (k : LinkId n) :
    k ∈ around (f :: fs) ↔ k = f.link ∨ k ∈ f.rest.inorder ∨ k ∈ around fs := by
  have hf := f.mem_before_or_after_iff k
  simp only [around, linksBefore, linksAfter, List.mem_append]
  tauto

/-- The links of a whole are those at the place and those around it. -/
theorem mem_inorder_plug (fs : List (Frame n)) (t : Shape n) (k : LinkId n) :
    k ∈ (plug fs t).inorder ↔ k ∈ t.inorder ∨ k ∈ around fs := by
  rw [inorder_plug, around]
  simp only [List.mem_append]
  tauto

/-- The link at the place is one of the whole. -/
theorem link_mem_inorder_plug (fs : List (Frame n)) (a : Shape n) (l : LinkId n) (b : Shape n) :
    l ∈ (plug fs (.node a l b)).inorder :=
  (mem_inorder_plug fs (.node a l b) l).mpr (Or.inl (by simp))

/-- A whole shape is empty only where the place is at the top and vacant. -/
theorem plug_eq_empty {fs : List (Frame n)} {t : Shape n} (h : plug fs t = .empty) : fs = [] ∧ t = .empty := by
  cases fs with
  | nil => exact ⟨rfl, h⟩
  | cons f fs =>
    have hlink : f.link ∈ (plug (f :: fs) t).inorder :=
      (mem_inorder_plug (f :: fs) t f.link).mpr (Or.inr ((mem_around_cons f fs f.link).mpr (Or.inl rfl)))
    rw [h] at hlink
    simp [inorder] at hlink

/-- Around a vacant place there are all the links. -/
theorem inorder_plug_empty (fs : List (Frame n)) : (plug fs .empty).inorder = linksBefore fs ++ linksAfter fs := by
  rw [inorder_plug, inorder, List.append_nil]

/-- The links of a whole shape are distinct where those at a place and around it are, and none is both. -/
theorem nodup_inorder_plug (fs : List (Frame n)) (t : Shape n) :
    (plug fs t).inorder.Nodup ↔
      t.inorder.Nodup ∧ (around fs).Nodup ∧ ∀ k ∈ t.inorder, k ∉ around fs := by
  have hswap : (linksAfter fs ++ linksBefore fs).Nodup ↔ (linksBefore fs ++ linksAfter fs).Nodup :=
    List.nodup_append_comm
  rw [inorder_plug, around, List.append_assoc, List.nodup_append_comm, List.append_assoc,
    List.nodup_append, hswap]
  have hmem : ∀ k, k ∈ linksAfter fs ++ linksBefore fs ↔ k ∈ linksBefore fs ++ linksAfter fs := by
    intro k
    rw [List.mem_append, List.mem_append, or_comm]
  constructor
  · rintro ⟨ht, ha, hd⟩
    exact ⟨ht, ha, fun k hk hk' => hd k hk k ((hmem k).mpr hk') rfl⟩
  · rintro ⟨ht, ha, hd⟩
    refine ⟨ht, ha, ?_⟩
    rintro k hk k' hk' rfl
    exact hd k hk ((hmem k).mp hk')

/-- There are at most as many frames above a place as links around it. -/
theorem length_le_around (fs : List (Frame n)) : fs.length ≤ (around fs).length := by
  induction fs with
  | nil => exact Nat.le_refl 0
  | cons f fs ih =>
    have hlen : (around (f :: fs)).length = (around fs).length + (f.before.length + f.after.length) := by
      simp only [around, linksBefore, linksAfter, List.length_append]
      omega
    have hframe : 1 ≤ f.before.length + f.after.length := by
      obtain ⟨s, l, r⟩ := f
      cases s <;> simp [Frame.before, Frame.after]
    simp only [List.length_cons]
    omega

/-- The links of a whole are counted at the place and around it. -/
theorem length_inorder_plug (fs : List (Frame n)) (t : Shape n) :
    (plug fs t).inorder.length = t.inorder.length + (around fs).length := by
  rw [inorder_plug, around]
  simp only [List.length_append]
  omega

/-- Each link of a shape stands at a place. -/
theorem exists_place {t : Shape n} {l : LinkId n} (h : l ∈ t.inorder) :
    ∃ fs a b, t = plug fs (.node a l b) := by
  induction t with
  | empty => simp [inorder] at h
  | node a k b iha ihb =>
    rcases (mem_inorder_node a k b l).mp h with rfl | h | h
    · exact ⟨[], a, b, rfl⟩
    · obtain ⟨fs, c, d, rfl⟩ := iha h
      exact ⟨fs ++ [⟨.left, k, b⟩], c, d, by rw [plug_append]; rfl⟩
    · obtain ⟨fs, c, d, rfl⟩ := ihb h
      exact ⟨fs ++ [⟨.right, k, a⟩], c, d, by rw [plug_append]; rfl⟩

/-- The subshape on the outermost way towards one side, taken apart at its end. -/
theorem exists_outermost (s : Side) (t : Shape n) (h : t ≠ .empty) :
    ∃ fs l a, t = plug fs (fork s .empty l a) ∧ ∀ f ∈ fs, f.side = s := by
  induction t with
  | empty => exact absurd rfl h
  | node a l b iha ihb =>
    cases s with
    | left =>
      by_cases ha : a = .empty
      · exact ⟨[], l, b, by rw [ha]; rfl, by simp⟩
      · obtain ⟨fs, k, c, rfl, hfs⟩ := iha ha
        refine ⟨fs ++ [⟨.left, l, b⟩], k, c, by rw [plug_append]; rfl, ?_⟩
        simpa [or_imp, forall_and] using hfs
    | right =>
      by_cases hb : b = .empty
      · exact ⟨[], l, a, by rw [hb]; rfl, by simp⟩
      · obtain ⟨fs, k, c, rfl, hfs⟩ := ihb hb
        refine ⟨fs ++ [⟨.right, l, a⟩], k, c, by rw [plug_append]; rfl, ?_⟩
        simpa [or_imp, forall_and] using hfs

end Shape

end BalancedLinks
