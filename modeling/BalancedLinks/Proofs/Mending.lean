import BalancedLinks.Event
import BalancedLinks.Proofs.Shape

/-!
# Mending shapes

What growth and shrinkage at a place do to a whole shape, said on shapes alone: the shapes and the reports
that the walks up the links arrive at.

The main statements are `Shape.balanced_grown` and `Shape.balanced_shrunk`: a shape that was balanced before
one place in it grew or shrank by one is balanced after mending, and its links keep their order.
-/

set_option autoImplicit false

namespace BalancedLinks

namespace Shape

variable {n : Nat}

/-! ## One link -/

/-- The subshape on the given side. -/
def childOn (s : Side) (t : Shape n) : Shape n :=
  match s, t with
  | _, .empty => .empty
  | .left, .node a _ _ => a
  | .right, .node _ _ b => b

/-- The child on the side that comes first. -/
@[simp] theorem childOn_fork (s : Side) (a : Shape n) (l : LinkId n) (b : Shape n) :
    (fork s a l b).childOn s = a := by
  cases s <;> rfl

/-- The shape with the child on the given side turned inwards: its own inner child is lifted. -/
def turned (s : Side) (t : Shape n) : Shape n :=
  match s, t with
  | _, .empty => .empty
  | .left, .node a l b => .node (a.lifted .right) l b
  | .right, .node a l b => .node a l (b.lifted .left)

/-- Turning a child inwards lifts its inner child. -/
@[simp] theorem turned_fork (s : Side) (a : Shape n) (l : LinkId n) (b : Shape n) :
    (fork s a l b).turned s = fork s (a.lifted s.other) l b := by
  cases s <;> rfl

/-- Turning a child inwards keeps the order of the links. -/
@[simp] theorem inorder_turned (s : Side) (t : Shape n) : (t.turned s).inorder = t.inorder := by
  rcases eq_empty_or_fork s t with rfl | ⟨a, l, b, rfl⟩
  · rfl
  · rw [turned_fork]
    cases s <;> simp [fork, inorder]

/-- The heavy side of the topmost link; a level one counts as heavy on the left. -/
def heavy (t : Shape n) : Side :=
  if 0 < t.tilt then .right else .left

/-- The side that leads is the heavy one. -/
theorem heavy_eq_of_lead {s : Side} {t : Shape n} (h : 0 < t.lead s) : t.heavy = s := by
  cases s
  · simp only [lead] at h
    simp only [heavy]
    rw [if_neg (by omega)]
  · simp only [lead] at h
    simp only [heavy]
    rw [if_pos h]

/-- How a link that is heavy on one side is mended, and the shape afterwards. -/
def mended (t : Shape n) : RotationKind × Shape n :=
  if (t.childOn t.heavy).lead t.heavy < 0 then (.double, (t.turned t.heavy).lifted t.heavy)
  else (.single, t.lifted t.heavy)

/-- Mending keeps the order of the links. -/
@[simp] theorem inorder_mended (t : Shape n) : t.mended.2.inorder = t.inorder := by
  unfold mended
  split <;> simp

/-- The sizes of a lead and of a tilt agree. -/
theorem natAbs_lead (s : Side) (t : Shape n) : (t.lead s).natAbs = t.tilt.natAbs := by
  cases s
  · exact Int.natAbs_neg t.tilt
  · rfl

/-- Neither side leads exactly if the link is level. -/
theorem lead_eq_zero_iff (s : Side) (t : Shape n) : t.lead s = 0 ↔ t.tilt = 0 := by
  rw [← Int.natAbs_eq_zero, natAbs_lead, Int.natAbs_eq_zero]

/-- What mending a link with a level or outward heavy child leaves. -/
theorem mended_single {s : Side} {a b c : Shape n} {p l : LinkId n}
    (h : (fork s (fork s a p b) l c).lead s = 2) (hab : b.height ≤ a.height) :
    (fork s (fork s a p b) l c).mended = (.single, fork s a p (fork s b l c)) := by
  have hs := heavy_eq_of_lead (s := s) (by rw [h]; omega)
  unfold mended
  rw [hs, childOn_fork, lead_fork, if_neg (by omega), lifted_fork]

/-- What mending a link with an inward heavy child leaves. -/
theorem mended_double {s : Side} {a b d c : Shape n} {p q l : LinkId n}
    (h : (fork s (fork s a p (fork s b q d)) l c).lead s = 2)
    (hab : a.height < (fork s b q d).height) :
    (fork s (fork s a p (fork s b q d)) l c).mended =
      (.double, fork s (fork s a p b) q (fork s d l c)) := by
  have hs := heavy_eq_of_lead (s := s) (by rw [h]; omega)
  have hturn : (fork s a p (fork s b q d)).lifted s.other = fork s (fork s a p b) q d := by
    have hlift := lifted_fork s.other d b a q p
    rwa [fork_other, fork_other, fork_other, fork_other] at hlift
  unfold mended
  rw [hs, childOn_fork, lead_fork, if_pos (by omega), turned_fork, hturn, lifted_fork]

/--
Mending a link that is heavy by two over balanced subshapes: it becomes balanced, and it keeps its height
exactly when the heavy child was level, which is when the new topmost link is not level.
-/
theorem balanced_mended {s : Side} {a b c : Shape n} {p l : LinkId n}
    (h : (fork s (fork s a p b) l c).lead s = 2) (hp : (fork s a p b).Balanced) (hc : c.Balanced) :
    (fork s (fork s a p b) l c).mended.2.Balanced ∧
      ((fork s a p b).tilt = 0 →
        (fork s (fork s a p b) l c).mended.2.height = (fork s (fork s a p b) l c).height ∧
          (fork s (fork s a p b) l c).mended.2.tilt ≠ 0) ∧
      ((fork s a p b).tilt ≠ 0 →
        (fork s (fork s a p b) l c).mended.2.height + 1 = (fork s (fork s a p b) l c).height ∧
          (fork s (fork s a p b) l c).mended.2.tilt = 0) := by
  have hlead := h
  obtain ⟨hpab, ha, hb⟩ := (balanced_fork s a p b).mp hp
  rw [lead_fork, height_fork] at hlead
  have htilt : (fork s a p b).tilt = 0 ↔ (a.height : Int) - b.height = 0 := by
    rw [← lead_eq_zero_iff s, lead_fork]
  by_cases hab : b.height ≤ a.height
  · have htop : (fork s a p (fork s b l c)).tilt = 0 ↔
        (a.height : Int) - (1 + max b.height c.height : Nat) = 0 := by
      rw [← lead_eq_zero_iff s, lead_fork, height_fork]
    simp only [mended_single h hab, ne_eq, htilt, htop, balanced_fork, height_fork, ha, hb, hc, and_true,
      true_and]
    omega
  · rcases eq_empty_or_fork s b with rfl | ⟨d, q, e, rfl⟩
    · simp only [height] at hab
      omega
    · obtain ⟨hde, hd, he⟩ := (balanced_fork s d q e).mp hb
      have htop : (fork s (fork s a p d) q (fork s e l c)).tilt = 0 ↔
          ((1 + max a.height d.height : Nat) : Int) - (1 + max e.height c.height : Nat) = 0 := by
        rw [← lead_eq_zero_iff s, lead_fork, height_fork, height_fork]
      simp only [height_fork] at hlead hpab hab htilt
      simp only [mended_double h (by simp only [height_fork]; omega), ne_eq, htilt, htop, balanced_fork,
        height_fork, ha, hd, he, hc, and_true]
      omega

/-- That the height was kept shows in the child beforehand and in the new topmost link; else one of it is lost. -/
theorem height_mended {s : Side} {a b c : Shape n} {p l : LinkId n}
    (h : (fork s (fork s a p b) l c).lead s = 2) (hp : (fork s a p b).Balanced) (hc : c.Balanced) :
    ((fork s (fork s a p b) l c).mended.2.height = (fork s (fork s a p b) l c).height ↔
        (fork s a p b).tilt = 0) ∧
      ((fork s (fork s a p b) l c).mended.2.height = (fork s (fork s a p b) l c).height ↔
        (fork s (fork s a p b) l c).mended.2.tilt ≠ 0) ∧
      ((fork s (fork s a p b) l c).mended.2.height ≠ (fork s (fork s a p b) l c).height →
        (fork s (fork s a p b) l c).mended.2.height + 1 = (fork s (fork s a p b) l c).height) := by
  obtain ⟨-, hkept, hlower⟩ := balanced_mended h hp hc
  by_cases hlevel : (fork s a p b).tilt = 0
  · obtain ⟨hheight, htop⟩ := hkept hlevel
    exact ⟨iff_of_true hheight hlevel, iff_of_true hheight htop, fun hne => absurd hheight hne⟩
  · obtain ⟨hheight, htop⟩ := hlower hlevel
    have hne : (fork s (fork s a p b) l c).mended.2.height ≠ (fork s (fork s a p b) l c).height := by
      omega
    exact ⟨iff_of_false hne hlevel, iff_of_false hne fun htilt => htilt htop, fun _ => hheight⟩

/-! ## The way up -/

/-- Whether every link above a place is balanced when the place has the given height. -/
def BalancedAbove : List (Frame n) → Nat → Prop
  | [], _ => True
  | f :: fs, h => (f.leadOver h).natAbs ≤ 1 ∧ f.rest.Balanced ∧ BalancedAbove fs (f.heightOver h)

/-- A frame filled with a shape is balanced exactly if both are and their heights differ by one at most. -/
theorem balanced_fill (f : Frame n) (t : Shape n) :
    (f.fill t).Balanced ↔ (f.leadOver t.height).natAbs ≤ 1 ∧ t.Balanced ∧ f.rest.Balanced :=
  balanced_fork f.side t f.link f.rest

/-- A whole is balanced exactly if the part at a place is and the links above it are. -/
theorem balanced_plug (fs : List (Frame n)) (t : Shape n) :
    (plug fs t).Balanced ↔ t.Balanced ∧ BalancedAbove fs t.height := by
  induction fs generalizing t with
  | nil => simp [BalancedAbove]
  | cons f fs ih =>
    rw [plug_cons, ih, balanced_fill, Frame.height_fill]
    simp only [BalancedAbove]
    tauto

/-- The report of a repair. -/
def mendedEvent (t : Shape n) : Event :=
  .rotated t.mended.1 (.finite t.mended.2.tilt)

/--
What is reported and the whole shape at the end, after the subshape at a place grew by one: the way up ends
at the first link that becomes level or is mended.
-/
def grown : List (Frame n) → Shape n → List Event × Shape n
  | [], t => ([], t)
  | f :: fs, t =>
    let u := f.fill t
    if u.tilt = 0 then ([], plug fs u)
    else if 1 < u.tilt.natAbs then ([u.mendedEvent], plug fs u.mended.2)
    else grown fs u

/--
What is reported and the whole shape at the end, after the subshape at a place lost one of its height: the
way up ends at the first link that keeps its height.
-/
def shrunk : List (Frame n) → Shape n → List Event × Shape n
  | [], t => ([], t)
  | f :: fs, t =>
    let u := f.fill t
    if 1 < u.tilt.natAbs then
      if u.mended.2.tilt = 0 then
        (u.mendedEvent :: (shrunk fs u.mended.2).1, (shrunk fs u.mended.2).2)
      else ([u.mendedEvent], plug fs u.mended.2)
    else if u.tilt = 0 then shrunk fs u
    else ([], plug fs u)

/-- The order of the links depends on a subshape by the order of its own links alone. -/
theorem inorder_plug_congr {t u : Shape n} (fs : List (Frame n)) (h : t.inorder = u.inorder) :
    (plug fs t).inorder = (plug fs u).inorder := by
  rw [inorder_plug, inorder_plug, h]

/--
What becomes of the link above a place that grew by one: it is level and as high as before, or it is heavy
by two towards the place and mending brings back its height, or it is balanced and has grown by one as well.
-/
theorem fill_of_growth {f : Frame n} {t : Shape n} {h : Nat} (hheight : t.height = h + 1) (ht : t.Balanced)
    (hlevel : t.tilt = 0 → h = 0) (hlead : (f.leadOver h).natAbs ≤ 1) (hrest : f.rest.Balanced) :
    ((f.fill t).tilt = 0 → (f.fill t).height = f.heightOver h ∧ (f.fill t).Balanced) ∧
      (1 < (f.fill t).tilt.natAbs → (f.fill t).lead f.side = 2 ∧
        (f.fill t).mended.2.height = f.heightOver h ∧ (f.fill t).mended.2.Balanced) ∧
      ((f.fill t).tilt ≠ 0 → ¬ 1 < (f.fill t).tilt.natAbs →
        (f.fill t).height = f.heightOver h + 1 ∧ (f.fill t).Balanced) := by
  have hsize := natAbs_lead f.side (f.fill t)
  have hu : (f.fill t).lead f.side = f.leadOver h + 1 := by
    rw [Frame.lead_fill, hheight]
    simp only [Frame.leadOver]
    omega
  have hzero := lead_eq_zero_iff f.side (f.fill t)
  rw [hu] at hsize hzero
  have hover : (f.fill t).height = f.heightOver (h + 1) := by
    rw [Frame.height_fill, hheight]
  have hbal : (f.leadOver h + 1).natAbs ≤ 1 → (f.fill t).Balanced := by
    intro hle
    refine (balanced_fill f t).mpr ⟨?_, ht, hrest⟩
    rw [hheight]
    simp only [Frame.leadOver] at hle ⊢
    omega
  rw [hover]
  simp only [Frame.leadOver, Frame.heightOver] at *
  refine ⟨fun htilt => ⟨by omega, hbal (by omega)⟩, ?_, fun htilt hle => ⟨by omega, hbal (by omega)⟩⟩
  intro htilt
  have htwo : (f.fill t).lead f.side = 2 := by omega
  rcases eq_empty_or_fork f.side t with rfl | ⟨a, p, b, rfl⟩
  · simp only [height] at hheight
    omega
  · have hmended := balanced_mended (l := f.link) (c := f.rest) htwo ht hrest
    have hheights := hmended.2.2 (fun h0 => by have := hlevel h0; omega)
    have hsame : (fork f.side (fork f.side a p b) f.link f.rest).height = 1 + max (h + 1) f.rest.height := by
      rw [height_fork, hheight]
    refine ⟨htwo, ?_, hmended.1⟩
    show (fork f.side (fork f.side a p b) f.link f.rest).mended.2.height = _
    omega

/--
What becomes of the link above a place that lost one of its height: it is heavy by two away from the place,
and mending leaves it level and lower by one or not level and as high as before; or it is level and lower by
one; or it is balanced and as high as before.
-/
theorem fill_of_shrinkage {f : Frame n} {t : Shape n} {h : Nat} (hheight : t.height = h) (ht : t.Balanced)
    (hlead : (f.leadOver (h + 1)).natAbs ≤ 1) (hrest : f.rest.Balanced) :
    (1 < (f.fill t).tilt.natAbs → (f.fill t).lead f.side.other = 2 ∧ (f.fill t).mended.2.Balanced ∧
        ((f.fill t).mended.2.tilt = 0 → (f.fill t).mended.2.height + 1 = f.heightOver (h + 1)) ∧
        ((f.fill t).mended.2.tilt ≠ 0 → (f.fill t).mended.2.height = f.heightOver (h + 1))) ∧
      ((f.fill t).tilt = 0 → (f.fill t).height + 1 = f.heightOver (h + 1) ∧ (f.fill t).Balanced) ∧
      ((f.fill t).tilt ≠ 0 → ¬ 1 < (f.fill t).tilt.natAbs →
        (f.fill t).height = f.heightOver (h + 1) ∧ (f.fill t).Balanced) := by
  have hsize := natAbs_lead f.side (f.fill t)
  have hu : (f.fill t).lead f.side = f.leadOver (h + 1) - 1 := by
    rw [Frame.lead_fill, hheight]
    simp only [Frame.leadOver]
    omega
  have hzero := lead_eq_zero_iff f.side (f.fill t)
  rw [hu] at hsize hzero
  have hover : (f.fill t).height = f.heightOver h := by
    rw [Frame.height_fill, hheight]
  have hbal : (f.leadOver (h + 1) - 1).natAbs ≤ 1 → (f.fill t).Balanced := by
    intro hle
    refine (balanced_fill f t).mpr ⟨?_, ht, hrest⟩
    rw [hheight]
    simp only [Frame.leadOver] at hle ⊢
    omega
  have hswap : f.fill t = fork f.side.other f.rest f.link t := (fork_other f.side f.rest f.link t).symm
  have hfar : (f.fill t).lead f.side.other = f.rest.height - t.height := by
    rw [hswap, lead_fork]
  rw [hover]
  simp only [Frame.leadOver, Frame.heightOver] at *
  refine ⟨?_, fun htilt => ⟨by omega, hbal (by omega)⟩, fun htilt hle => ⟨by omega, hbal (by omega)⟩⟩
  intro htilt
  have htwo : (f.fill t).lead f.side.other = 2 := by omega
  refine ⟨htwo, ?_⟩
  rcases eq_empty_or_fork f.side.other f.rest with hempty | ⟨a, p, b, hfork⟩
  · rw [hempty] at hfar
    simp only [height] at hfar
    omega
  · have hmended := balanced_mended (s := f.side.other) (a := a) (b := b) (c := t) (p := p) (l := f.link)
      (by rw [← hfork, ← hswap]; exact htwo) (hfork ▸ hrest) ht
    rw [← hfork, ← hswap] at hmended
    refine ⟨hmended.1, ?_, ?_⟩
    · intro h0
      have hheights := hmended.2.2 (fun hp => (hmended.2.1 hp).2 h0)
      omega
    · intro h0
      have hheights := hmended.2.1 (by_contra fun hp => h0 (hmended.2.2 hp).2)
      omega

/-- A shape that was balanced before a place in it grew by one is balanced after mending. -/
theorem balanced_grown {fs : List (Frame n)} {t : Shape n} {h : Nat} (hheight : t.height = h + 1)
    (ht : t.Balanced) (hlevel : t.tilt = 0 → h = 0) (hfs : BalancedAbove fs h) :
    (grown fs t).2.Balanced := by
  induction fs generalizing t h with
  | nil => exact ht
  | cons f fs ih =>
    obtain ⟨hlead, hrest, hfs⟩ := hfs
    obtain ⟨hzero, htwo, hone⟩ := fill_of_growth hheight ht hlevel hlead hrest
    simp only [grown]
    split_ifs with h0 h2
    · exact (balanced_plug fs _).mpr ⟨(hzero h0).2, (hzero h0).1 ▸ hfs⟩
    · exact (balanced_plug fs _).mpr ⟨(htwo h2).2.2, (htwo h2).2.1 ▸ hfs⟩
    · exact ih (hone h0 h2).1 (hone h0 h2).2 (fun h => absurd h h0) hfs

/-- A shape that was balanced before a place in it lost one of its height is balanced after mending. -/
theorem balanced_shrunk {fs : List (Frame n)} {t : Shape n} {h : Nat} (hheight : t.height = h)
    (ht : t.Balanced) (hfs : BalancedAbove fs (h + 1)) : (shrunk fs t).2.Balanced := by
  induction fs generalizing t h with
  | nil => exact ht
  | cons f fs ih =>
    obtain ⟨hlead, hrest, hfs⟩ := hfs
    obtain ⟨htwo, hzero, hone⟩ := fill_of_shrinkage hheight ht hlead hrest
    simp only [shrunk]
    split_ifs with h2 hm h0
    · obtain ⟨-, hbal, hlow, -⟩ := htwo h2
      exact ih rfl hbal ((hlow hm) ▸ hfs)
    · obtain ⟨-, hbal, -, hsame⟩ := htwo h2
      exact (balanced_plug fs _).mpr ⟨hbal, (hsame hm) ▸ hfs⟩
    · exact ih rfl (hzero h0).2 ((hzero h0).1 ▸ hfs)
    · exact (balanced_plug fs _).mpr ⟨(hone h0 h2).2, (hone h0 h2).1 ▸ hfs⟩

/-- Growth keeps the order of the links. -/
theorem inorder_grown (fs : List (Frame n)) (t : Shape n) :
    (grown fs t).2.inorder = (plug fs t).inorder := by
  induction fs generalizing t with
  | nil => rfl
  | cons f fs ih =>
    simp only [grown, plug_cons]
    split_ifs
    · rfl
    · exact inorder_plug_congr fs (inorder_mended _)
    · exact ih _

/-- A link that a shape grows by comes between the links on the two sides of its place. -/
theorem inorder_grown_leaf (fs : List (Frame n)) (l : LinkId n) :
    (grown fs (.node .empty l .empty)).2.inorder = linksBefore fs ++ l :: linksAfter fs := by
  rw [inorder_grown, inorder_plug]
  simp [inorder]

/-- Shrinkage keeps the order of the links. -/
theorem inorder_shrunk (fs : List (Frame n)) (t : Shape n) :
    (shrunk fs t).2.inorder = (plug fs t).inorder := by
  induction fs generalizing t with
  | nil => rfl
  | cons f fs ih =>
    simp only [shrunk, plug_cons]
    split_ifs
    · exact (ih _).trans (inorder_plug_congr fs (inorder_mended _))
    · exact inorder_plug_congr fs (inorder_mended _)
    · exact ih _
    · rfl

end Shape

end BalancedLinks
