import BalancedLinks.Proofs.Growth
import BalancedLinks.Proofs.Merging
import BalancedLinks.Proofs.Ranges
import Mathlib.Data.Nat.Log

/-!
# Spines of perfect shapes

Elements that are inserted in order all come to hang at the outer end of one side. The shape that grows there is a
spine: along that side, each link has a perfect subshape on its inner side, and the outer one is as high as that, or
higher by one. An insertion at the outer end either makes the whole spine higher, or takes a single rotation at the
first link whose outer subshape was the higher one; then that subshape and the inner one become one perfect subshape,
as when a carry goes through a binary counter. So a spine is as low as its number of links allows.

The main statements are `Shape.Spine.grown` and `World.spines_run`.
-/

set_option autoImplicit false

namespace BalancedLinks

namespace Shape

variable {n : Nat}

/-! ## Perfect shapes -/

/-- Whether the two subshapes of every link are equally high. -/
def Perfect : Shape n → Prop
  | .empty => True
  | .node a _ b => a.height = b.height ∧ a.Perfect ∧ b.Perfect

/-- A fork is perfect exactly if its sides are, and are equally high. -/
theorem perfect_fork (s : Side) (a : Shape n) (l : LinkId n) (b : Shape n) :
    (fork s a l b).Perfect ↔ a.height = b.height ∧ a.Perfect ∧ b.Perfect := by
  cases s
  · exact Iff.rfl
  · simp only [fork, Perfect]
    tauto

/-- A fork has one link more than its sides have. -/
theorem length_inorder_fork (s : Side) (a : Shape n) (l : LinkId n) (b : Shape n) :
    (fork s a l b).inorder.length = a.inorder.length + b.inorder.length + 1 := by
  cases s <;> simp only [fork, inorder, List.length_append, List.length_cons] <;> omega

/-- A perfect shape has as many links as there is room for. -/
theorem Perfect.length_inorder {t : Shape n} (h : t.Perfect) : t.inorder.length + 1 = 2 ^ t.height := by
  induction t with
  | empty => rfl
  | node a l b iha ihb =>
    obtain ⟨hheight, ha, hb⟩ := h
    have hleft := iha ha
    have hright := ihb hb
    rw [← hheight] at hright
    rw [node_eq_fork, length_inorder_fork, height_fork, ← hheight, max_self, Nat.add_comm 1, pow_succ]
    omega

/-- The links of a perfect shape are level. -/
theorem Perfect.balance_eq {α : Type} {g : Links α n} {t : Shape n} (h : t.Perfect) (hx : g.Exact t) {l : LinkId n}
    (hl : l ∈ t.inorder) : g.balance l = .level := by
  induction t with
  | empty => simp [inorder] at hl
  | node a k b iha ihb =>
    obtain ⟨hheight, ha, hb⟩ := h
    obtain ⟨hk, hxa, hxb⟩ := hx
    rcases (mem_inorder_node a k b l).mp hl with rfl | hl | hl
    · rw [hk, tilt, hheight, sub_self]
      rfl
    · exact iha ha hxa hl
    · exact ihb hb hxb hl

/-! ## Spines -/

/-- Whether a shape is a spine on the given side: perfect subshapes inside, and outside as high or higher by one. -/
inductive Spine (s : Side) : Shape n → Prop
  | empty : Spine s .empty
  | fork {outer inner : Shape n} {l : LinkId n} (spine : Spine s outer) (perfect : inner.Perfect)
      (height : outer.height = inner.height ∨ outer.height = inner.height + 1) : Spine s (fork s outer l inner)

namespace Spine

variable {s : Side} {t : Shape n}

/-- A single link is a spine on either side. -/
theorem leaf (s : Side) (l : LinkId n) : Spine s (.node .empty l .empty) := by
  cases s <;> exact .fork (l := l) .empty trivial (Or.inl rfl)

/-- A fork that is a spine has one outside, and a perfect shape inside that is as high or lower by one. -/
theorem of_fork {a b : Shape n} {l : LinkId n} (h : Spine s (Shape.fork s a l b)) :
    Spine s a ∧ b.Perfect ∧ (a.height = b.height ∨ a.height = b.height + 1) := by
  generalize hfork : Shape.fork s a l b = u at h
  cases h with
  | empty => cases s <;> cases hfork
  | @fork outer inner k spine perfect height =>
    have hparts : a = outer ∧ b = inner := by
      cases s <;> simp only [Shape.fork, Shape.node.injEq] at hfork <;> exact ⟨by simp [hfork], by simp [hfork]⟩
    obtain ⟨rfl, rfl⟩ := hparts
    exact ⟨spine, perfect, height⟩

/-- A spine has at most as many links as there is room for, and more than there is room for in a lower one. -/
theorem length_inorder (h : Spine s t) :
    t.inorder.length + 1 ≤ 2 ^ t.height ∧ 2 ^ t.height ≤ 2 * t.inorder.length + 1 := by
  induction h with
  | empty => simp [inorder, Shape.height]
  | @fork outer inner l _ perfect height ih =>
    obtain ⟨hmost, hleast⟩ := ih
    have hinner := perfect.length_inorder
    rw [length_inorder_fork, height_fork]
    rcases height with heq | heq
    · rw [heq, max_self, Nat.add_comm 1, pow_succ]
      rw [heq] at hmost hleast
      omega
    · rw [heq, max_eq_left (Nat.le_succ _), Nat.add_comm 1, pow_succ, pow_succ]
      rw [heq, pow_succ] at hmost hleast
      omega

/-- The height of a spine is the least that its number of links allows. -/
theorem height_eq (h : Spine s t) (ht : t ≠ .empty) : t.height = Nat.log 2 t.inorder.length + 1 := by
  obtain ⟨hmost, hleast⟩ := h.length_inorder
  obtain ⟨k, hk⟩ : ∃ k, t.height = k + 1 := by
    cases t with
    | empty => exact absurd rfl ht
    | node a l b => exact ⟨max a.height b.height, Nat.add_comm 1 _⟩
  rw [hk] at hmost hleast ⊢
  rw [pow_succ] at hleast
  rw [Nat.log_eq_of_pow_le_of_lt_pow (m := k) (by omega) (by omega)]

/-- A spine that has as many links as there is room for is perfect. -/
theorem perfect (h : Spine s t) (hlength : t.inorder.length + 1 = 2 ^ t.height) : t.Perfect := by
  induction h with
  | empty => trivial
  | @fork outer inner l spine perfect height ih =>
    obtain ⟨hmost, -⟩ := spine.length_inorder
    have hinner := perfect.length_inorder
    rw [length_inorder_fork, height_fork] at hlength
    rw [perfect_fork]
    rcases height with heq | heq
    · rw [heq, max_self, Nat.add_comm 1, pow_succ] at hlength
      exact ⟨heq, ih (by rw [heq]; omega), perfect⟩
    · rw [heq, max_eq_left (Nat.le_succ _), Nat.add_comm 1, pow_succ, pow_succ] at hlength
      rw [heq, pow_succ] at hmost
      have hpositive := Nat.two_pow_pos inner.height
      omega

end Spine

/-- Whether the frames above a place make a spine of a spine of the given height there. -/
def SpineAbove : List (Frame n) → Nat → Prop
  | [], _ => True
  | f :: fs, h =>
    f.rest.Perfect ∧ (h = f.rest.height ∨ h = f.rest.height + 1) ∧ SpineAbove fs (f.heightOver h)

/-- A whole shape is a spine exactly if the outer place is, and the frames above it make one of it. -/
theorem spine_plug {s : Side} {fs : List (Frame n)} (hsides : ∀ f ∈ fs, f.side = s) (t : Shape n) :
    Spine s (plug fs t) ↔ Spine s t ∧ SpineAbove fs t.height := by
  induction fs generalizing t with
  | nil => simp [SpineAbove]
  | cons f fs ih =>
    obtain ⟨hside, hsides⟩ := List.forall_mem_cons.mp hsides
    rw [plug_cons, ih hsides, Frame.height_fill, SpineAbove]
    constructor
    · rintro ⟨hfill, habove⟩
      rw [Frame.fill, hside] at hfill
      obtain ⟨hspine, hperfect, hheight⟩ := hfill.of_fork
      exact ⟨hspine, hperfect, hheight, habove⟩
    · rintro ⟨hspine, hperfect, hheight, habove⟩
      refine ⟨?_, habove⟩
      rw [Frame.fill, hside]
      exact .fork hspine hperfect hheight

/-- A repair at a link of a spine that has grown makes one perfect subshape of its inner one and the next one out. -/
theorem Spine.mended {s : Side} {t inner : Shape n} {l : LinkId n} (ht : Spine s t) (htilt : t.tilt ≠ 0)
    (hperfect : inner.Perfect) (hheight : t.height = inner.height + 2) :
    (Shape.fork s t l inner).mended.1 = .single ∧ Spine s (Shape.fork s t l inner).mended.2 ∧
      (Shape.fork s t l inner).mended.2.height = t.height ∧ (Shape.fork s t l inner).mended.2.tilt = 0 := by
  cases ht with
  | empty => exact absurd rfl htilt
  | @fork outer middle p spine perfect height =>
    have hlead : (Shape.fork s (Shape.fork s outer p middle) l inner).lead s = 2 := by
      rw [lead_fork, hheight]
      omega
    rw [ne_eq, ← lead_eq_zero_iff s, lead_fork] at htilt
    have hmiddle : middle.height ≤ outer.height := by omega
    rw [height_fork, max_eq_left hmiddle] at hheight ⊢
    rw [mended_single hlead hmiddle]
    have hlevel : middle.height = inner.height := by omega
    have htop : (Shape.fork s middle l inner).height = outer.height := by
      rw [height_fork, hlevel, max_self]
      omega
    refine ⟨rfl, .fork spine ?_ (Or.inl htop.symm), ?_, ?_⟩
    · exact (perfect_fork s middle l inner).mpr ⟨hlevel, perfect, hperfect⟩
    · rw [height_fork, htop, max_self]
    · rw [← lead_eq_zero_iff s, lead_fork, htop, sub_self]

/-- A spine that grows at its outer end is a spine: either it is higher, or one single rotation has been made. -/
theorem Spine.grown {s : Side} {fs : List (Frame n)} {t : Shape n} {h : Nat} (hsides : ∀ f ∈ fs, f.side = s)
    (ht : Spine s t) (hheight : t.height = h + 1) (hlevel : t.tilt = 0 → h = 0) (hfs : SpineAbove fs h) :
    Spine s (Shape.grown fs t).2 ∧
      ((Shape.grown fs t).1 = [] ∧ (Shape.grown fs t).2.height = heightAbove fs h + 1 ∨
        (Shape.grown fs t).1 = [.ofRepair (.single, 0)] ∧ (Shape.grown fs t).2.height = heightAbove fs h) := by
  induction fs generalizing t h with
  | nil => exact ⟨ht, Or.inl ⟨rfl, hheight⟩⟩
  | cons f fs ih =>
    obtain ⟨hside, hsides⟩ := List.forall_mem_cons.mp hsides
    obtain ⟨hperfect, hinner, hfs⟩ := hfs
    have hfill : f.fill t = Shape.fork s t f.link f.rest := by rw [Frame.fill, hside]
    have hlead : (f.fill t).lead s = t.height - f.rest.height := by rw [hfill, lead_fork]
    have hsize := natAbs_lead s (f.fill t)
    have hover : f.heightOver h = h + 1 := by
      rw [Frame.heightOver]
      omega
    rw [heightAbove, hover]
    rw [hover] at hfs
    simp only [Shape.grown]
    have hzero : (f.fill t).tilt ≠ 0 := by omega
    rw [if_neg hzero]
    split_ifs with htwo
    -- the outer subshape was the higher one: the carry ends here
    · have htall : t.height = f.rest.height + 2 := by omega
      obtain ⟨hkind, hspine, hsame, htilt⟩ := ht.mended (l := f.link) (fun h0 => by have := hlevel h0; omega)
        hperfect htall
      rw [← hfill] at hkind hspine hsame htilt
      refine ⟨(spine_plug hsides _).mpr ⟨hspine, ?_⟩, Or.inr ⟨?_, ?_⟩⟩
      · rwa [hsame, hheight]
      · rw [mendedEvent, hkind, htilt]
        rfl
      · rw [height_plug, hsame, hheight]
    -- the two were equally high: the outer one is the higher one now
    · have hspine : Spine s (f.fill t) := by
        rw [hfill]
        exact .fork ht hperfect (by omega)
      have hhigher : (f.fill t).height = h + 1 + 1 := by
        rw [Frame.height_fill, Frame.heightOver]
        omega
      exact ih hsides hspine hhigher (fun h0 => absurd h0 hzero) hfs

end Shape

/-! ## Insertions at one end -/

variable {α : Type} {n m : Nat}

/-- Whether a report is that of a repair. -/
def Event.isRotation : Event → Bool
  | .rotated _ _ => true
  | _ => false

/--
Whether attempts offer some elements one after the other, each of them anew and through a comparator that has one
and the same answer about all the elements before it.
-/
inductive Outward (answer : Ordering) : List α → List α → List (Attempt α) → Prop
  | nil (earlier : List α) : Outward answer earlier [] []
  | cons {earlier elements : List α} {a : α} {r : Attempt α} {rs : List (Attempt α)}
      (supply : r.supply = .ok (some a)) (answers : r.comparator.AnswersAmong (fun _ => answer) earlier)
      (new : a ∉ elements) (rest : Outward answer (a :: earlier) elements rs) :
      Outward answer earlier (a :: elements) (r :: rs)

/-- A search that gives one and the same answer goes to one side all along. -/
theorem Links.Trail.sides {σ : Type} {g : Links α n} {c : Comparator σ α} {s₀ s : σ} {fs : List (Frame n)}
    {as elements : List α} {answer : Ordering} (h : Links.Trail g c s₀ fs as s)
    (hanswers : c.AnswersAmong (fun _ => answer) elements)
    (hamong : ∀ f ∈ fs, ∀ a, g.owner f.link = some a → a ∈ elements) : ∀ f ∈ fs, f.side = sideTowards answer := by
  induction h with
  | nil => simp
  | @cons f fs as a s s' answer' _ howner hask _ hside ih =>
    obtain ⟨hfirst, hrest⟩ := List.forall_mem_cons.mp hamong
    obtain rfl : answer = answer' := hanswers.of_ask (hfirst a howner) hask
    exact List.forall_mem_cons.mpr ⟨hside, ih hrest⟩

namespace LinkedTree

variable {x : LinkedTree α n} {t : Shape n} {answer : Ordering} {earlier elements : List α}

/-- An element can still join a tree after another one has been linked. -/
theorem Joins.after_linking {a b : α} {g : Links α n} (hb : x.Joins b) (h : x.Threads t) (ha : x.Joins a)
    (hedit : Links.Edit x.links g x.origin .left (x.tree.linkOf a :: t.inorder)) (hne : b ≠ a) :
    (x.resized g 1).Joins b := by
  obtain ⟨horigin, hout⟩ := h.not_mem_of_unlinked ⟨b, hb.owner⟩ hb.parent
  refine hb.of_edit ((Alike.refl x).resized g 1) hedit horigin ?_
  rw [List.mem_cons, not_or]
  refine ⟨fun hlinks => hne ?_, hout⟩
  have howner := ha.owner
  rw [← hlinks, hb.owner] at howner
  exact Option.some.inj howner

/-- A search with one and the same answer about all elements goes out to the end of one side. -/
theorem Threads.trail_outward {σ : Type} {c : Comparator σ α} (h : x.Threads t) (hdiffers : answer ≠ .eq)
    (hanswers : c.AnswersAmong (fun _ => answer) earlier)
    (howners : ∀ l ∈ t.inorder, ∃ e ∈ earlier, x.links.owner l = some e) (s : σ) :
    ∃ fs as s', x.links.Trail c s fs as s' ∧ t = .plug fs .empty ∧ ∀ f ∈ fs, f.side = sideTowards answer := by
  have hanswered : ∀ l ∈ t.inorder, ∀ e, x.links.owner l = some e → e ∈ earlier := by
    intro l hl e he
    obtain ⟨e', he', howner⟩ := howners l hl
    exact Option.some.inj (he.symm.trans howner) ▸ he'
  have hends := h.carries.search_concludes h.owned c s
  generalize x.links.search c s x.origin = r at hends
  cases hends with
  | found _ hplace howner hask =>
    have hmem := hanswered _ (hplace ▸ Shape.link_mem_inorder_plug _ _ _ _) _ howner
    exact absurd (hanswers.of_ask hmem hask) hdiffers
  | failed _ hplace howner hask =>
    have hmem := hanswered _ (hplace ▸ Shape.link_mem_inorder_plug _ _ _ _) _ howner
    exact absurd hask (hanswers.ne_error hmem)
  | @vacant fs as s' htrail hplace =>
    refine ⟨fs, as, s', htrail, hplace, htrail.sides hanswers fun f hf => hanswered _ ?_⟩
    rw [hplace, Shape.mem_inorder_plug]
    exact Or.inr (Shape.link_mem_around hf)

/--
An insertion at one end of a tree that threads a spine leaves a spine, of one more link. Either the tree is higher by
one, or one single rotation has been made. All other elements that could join it still can.
-/
theorem Threads.attempt_outward {r : Attempt α} {a : α} (h : x.Threads t) (hspine : t.Spine (sideTowards answer))
    (hdiffers : answer ≠ .eq) (hsupply : r.supply = .ok (some a))
    (hanswers : r.comparator.AnswersAmong (fun _ => answer) earlier)
    (howners : ∀ l ∈ t.inorder, ∃ e ∈ earlier, x.links.owner l = some e) (hjoin : x.Joins a) :
    ∃ u, (x.attempt r).state.Threads u ∧ u.Spine (sideTowards answer) ∧
      u.inorder.length = t.inorder.length + 1 ∧
      (∀ l ∈ u.inorder, ∃ e ∈ a :: earlier, (x.attempt r).state.links.owner l = some e) ∧
      (∀ b, b ≠ a → x.Joins b → (x.attempt r).state.Joins b) ∧
      ∃ rotations, (x.attempt r).log.filter Event.isRotation =
          List.replicate rotations (.rotated .single (.finite 0)) ∧ rotations + u.height = t.height + 1 := by
  obtain ⟨fs, as, s', htrail, rfl, hsides⟩ := h.trail_outward hdiffers hanswers howners r.state
  obtain ⟨g, hrun, hthreads, hedit⟩ := h.attempt_linked htrail hsupply hjoin.refuses?_eq_none
  obtain ⟨objection, hcheck, -⟩ := hthreads.checkAfter_cases .insert
  obtain ⟨hgrown, hreports⟩ := Shape.Spine.grown (h := 0) hsides (.leaf _ (x.tree.linkOf a)) rfl (fun _ => rfl)
    ((Shape.spine_plug hsides .empty).mp hspine).2
  have hinorder := Shape.inorder_grown_leaf fs (x.tree.linkOf a)
  have hbefore : (Shape.plug fs .empty).height = Shape.heightAbove fs 0 := Shape.height_plug fs .empty
  have hquiet : (Event.inserted (x.tree.size + 1) :: ((x.resized g 1).checkAfter .insert).log).filter
      Event.isRotation = [] := by
    rw [hcheck]
    cases objection <;> rfl
  rw [hrun]
  refine ⟨_, hthreads, hgrown, ?length, ?owners, fun b hne hb => hb.after_linking h hjoin hedit hne, ?rotations⟩
  case length =>
    rw [hinorder, Shape.inorder_plug_empty, List.length_append, List.length_append, List.length_cons, Nat.add_assoc]
  case owners =>
    intro l hl
    have hsame : (x.resized g 1).links.owner l = x.links.owner l := hedit.owner l
    rw [hsame]
    rcases (Shape.mem_inorder_grown_leaf fs _ l).mp hl with rfl | hl
    · exact ⟨a, by simp, hjoin.owner⟩
    · obtain ⟨e, he, howner⟩ := howners l hl
      exact ⟨e, by simp [he], howner⟩
  case rotations =>
    rw [List.filter_append, hquiet, hbefore]
    rcases hreports with ⟨hlog, hheight⟩ | ⟨hlog, hheight⟩
    · exact ⟨0, by rw [hlog]; rfl, by omega⟩
    · exact ⟨1, by rw [hlog]; rfl, by omega⟩

/-- After insertions at one end, the single rotations made make up for the height that the tree does not have. -/
theorem Threads.outward {rs : List (Attempt α)} (h : x.Threads t) (hspine : t.Spine (sideTowards answer))
    (hdiffers : answer ≠ .eq) (houtward : Outward answer earlier elements rs)
    (howners : ∀ l ∈ t.inorder, ∃ e ∈ earlier, x.links.owner l = some e) (hjoins : ∀ a ∈ elements, x.Joins a) :
    ∃ u, (x.afterInsertions rs).Threads u ∧ u.Spine (sideTowards answer) ∧
      u.inorder.length = t.inorder.length + elements.length ∧
      ∃ rotations, ((x.attemptAll rs).flatMap Outcome.log).filter Event.isRotation =
          List.replicate rotations (.rotated .single (.finite 0)) ∧
        rotations + u.height = t.height + elements.length := by
  induction houtward generalizing x t with
  | nil => exact ⟨t, h, hspine, rfl, 0, rfl, Nat.zero_add _⟩
  | @cons earlier elements a r rs hsupply hanswers hnew _ ih =>
    obtain ⟨hjoin, hjoins⟩ := List.forall_mem_cons.mp hjoins
    obtain ⟨u, hu, hspine', hlength, howners', hjoins', rotations, hlog, hsum⟩ :=
      h.attempt_outward hspine hdiffers hsupply hanswers howners hjoin
    obtain ⟨v, hv, hspine'', hlength', rotations', hlog', hsum'⟩ := ih hu hspine' howners'
      fun b hb => hjoins' b (fun hba => hnew (hba ▸ hb)) (hjoins b hb)
    rw [afterInsertions_cons, attemptAll, List.flatMap_cons, List.filter_append, hlog, hlog',
      ← List.replicate_add, List.length_cons]
    exact ⟨v, hv, hspine'', by omega, rotations + rotations', rfl, by omega⟩

/-! ## Insertions in order -/

/--
What insertions into a tree come to that fill it evenly: it is as low as its number of elements allows, single
rotations have made up for the rest, and where the elements fill all places of that height, the tree is perfect.
-/
structure FillsEvenly (x : LinkedTree α n) (rs : List (Attempt α)) : Prop where
  size : (x.afterInsertions rs).tree.size = rs.length
  height : (x.afterInsertions rs).verify none = .ok (Nat.log 2 rs.length + 1)
  rotations : ((x.attemptAll rs).flatMap Outcome.log).filter Event.isRotation =
    List.replicate (rs.length - Nat.log 2 rs.length - 1) (.rotated .single (.finite 0))
  reported : x.insertions rs = (x.attemptAll rs).map fun o => o.keeping x.tree.keeps
  perfect : ∀ k, rs.length = 2 ^ k - 1 → ∃ t, (x.afterInsertions rs).Threads t ∧ t.Perfect ∧ t.height = k ∧
    ∀ l ∈ t.inorder, (x.afterInsertions rs).links.balance l = .level

/-- An empty tree is filled evenly by insertions at one end. -/
theorem Threads.fillsEvenly {rs : List (Attempt α)} (h : x.Threads .empty) (hdiffers : answer ≠ .eq)
    (houtward : Outward answer [] elements rs) (hlength : elements.length = rs.length) (hne : elements ≠ [])
    (hjoins : ∀ a ∈ elements, x.Joins a) : x.FillsEvenly rs := by
  obtain ⟨t, ht, hspine, hcount, rotations, hlog, hsum⟩ :=
    h.outward .empty hdiffers houtward (by simp [Shape.inorder]) hjoins
  simp only [Shape.inorder, List.length_nil, Nat.zero_add, Shape.height, hlength] at hcount hsum
  have hpositive : 0 < rs.length := hlength ▸ List.length_pos_of_ne_nil hne
  have hnonempty : t ≠ .empty := by
    rintro rfl
    rw [Shape.inorder, List.length_nil] at hcount
    omega
  have hheight := hspine.height_eq hnonempty
  rw [hcount] at hheight
  refine ⟨?_, ?_, ?_, x.insertions_eq rs, ?_⟩
  · rw [ht.size, hcount]
  · rw [ht.verify_eq_ok (by simp), hheight]
  · rw [hlog]
    congr 1
    omega
  · intro k hk
    obtain ⟨hmost, hleast⟩ := hspine.length_inorder
    rw [hcount, hk] at hmost hleast
    have hpow := Nat.two_pow_pos k
    -- of all heights, only this one has room for just as many links
    have htk : t.height = k := by
      rcases Nat.lt_trichotomy t.height k with hlt | heq | hgt
      · have hroom : 2 ^ t.height < 2 ^ k := Nat.pow_lt_pow_right (by omega) hlt
        omega
      · exact heq
      · have hroom : 2 ^ (k + 1) ≤ 2 ^ t.height := Nat.pow_le_pow_right (by omega) hgt
        rw [pow_succ] at hroom
        omega
    have hperfect : t.Perfect := hspine.perfect (by rw [hcount, hk, htk]; omega)
    exact ⟨t, ht, hperfect, htk, fun l hl => hperfect.balance_eq ht.exact hl⟩

end LinkedTree

/--
Whether an attempt offers an element through a comparator of an order, which answers about the elements named by a
key of the order that matches the element.
-/
structure Attempt.Offers (r : Attempt α) (lt : α → α → Prop) (elements : List α) (a : α) : Prop where
  supply : r.supply = .ok (some a)
  comparator : ∃ key, Seeks lt key ∧ key a = .eq ∧ r.comparator.AnswersAmong key elements

/-- Elements offered one after the other are offered outward if each key lies on one side of all elements before. -/
theorem outward_of_offers {lt R : α → α → Prop} {answer : Ordering} {all earlier elements : List α}
    {rs : List (Attempt α)} (hdiffers : answer ≠ .eq)
    (hkey : ∀ key, Seeks lt key → ∀ e a, R e a → key a = .eq → key e = answer)
    (hoffers : List.Forall₂ (fun a r => r.Offers lt all a) elements rs) (hsorted : elements.Pairwise R)
    (hearlier : ∀ e ∈ earlier, e ∈ all ∧ ∀ a ∈ elements, R e a) (helements : ∀ a ∈ elements, a ∈ all) :
    Outward answer earlier elements rs := by
  induction hoffers generalizing earlier with
  | nil => exact .nil earlier
  | @cons a r elements rs hoffer _ ih =>
    obtain ⟨hsupply, key, hseeks, hmatch, hanswers⟩ := hoffer
    obtain ⟨hfirst, hsorted⟩ := List.pairwise_cons.mp hsorted
    obtain ⟨hmem, helements⟩ := List.forall_mem_cons.mp helements
    refine .cons hsupply ?_ ?_ (ih hsorted ?_ helements)
    · intro e he s
      obtain ⟨hall, hbefore⟩ := hearlier e he
      have hsame := hkey key hseeks e a (hbefore a (by simp)) hmatch
      exact hsame ▸ hanswers e hall s
    · intro hagain
      exact hdiffers ((hkey key hseeks a a (hfirst a hagain) hmatch).symm.trans hmatch)
    · intro e he
      rcases List.mem_cons.mp he with rfl | he
      · exact ⟨hmem, hfirst⟩
      · exact ⟨(hearlier e he).1, fun b hb => (hearlier e he).2 b (List.mem_cons_of_mem a hb)⟩

/-- In a linear order, comparing an element with the others is a key of the order. -/
theorem seeks_compare [LinearOrder α] (a : α) : Seeks (· < ·) (compare a) where
  apart b c hbc := by
    rcases lt_or_ge b a with hba | hab
    · exact Or.inl (compare_gt_iff_gt.mpr hba)
    · exact Or.inr (compare_lt_iff_lt.mpr (lt_of_le_of_lt hab hbc))
  alike b c hbc hcb := by rw [le_antisymm (not_lt.mp hcb) (not_lt.mp hbc)]

namespace World

/--
After any requests to the trees of a fresh world, any elements that can join an empty tree fill it evenly if they are
inserted in strictly ascending or in strictly descending order, through comparators of that order.
-/
theorem spines_run {w : World α n m} (h : w.Fresh) (before : List (Fin m × Request α n)) (k : Fin m)
    (hempty : ((w.run before).tree k).isEmpty = true) {lt : α → α → Prop} {elements : List α}
    {rs : List (Attempt α)} (hne : elements ≠ []) (hjoins : ∀ a ∈ elements, ((w.run before).tree k).Joins a)
    (hsorted : elements.Pairwise lt ∨ elements.Pairwise fun a b => lt b a)
    (hoffers : List.Forall₂ (fun a r => r.Offers lt elements a) elements rs) :
    ((w.run before).tree k).FillsEvenly rs := by
  obtain ⟨ts, hsound⟩ := sound_run h before
  have hthreads := (hsound.threads k).of_isEmpty hempty
  have hlength := hoffers.length_eq
  rcases hsorted with hascending | hdescending
  · have houtward : Outward .gt [] elements rs := by
      refine outward_of_offers (by simp) ?_ hoffers hascending (by simp) fun a ha => ha
      intro key hseeks e a hea hmatch
      exact (hseeks.apart e a hea).resolve_right (by simp [hmatch])
    exact hthreads.fillsEvenly (by simp) houtward hlength hne hjoins
  · have houtward : Outward .lt [] elements rs := by
      refine outward_of_offers (by simp) ?_ hoffers hdescending (by simp) fun a ha => ha
      intro key hseeks e a hae hmatch
      exact (hseeks.apart a e hae).resolve_left (by simp [hmatch])
    exact hthreads.fillsEvenly (by simp) houtward hlength hne hjoins

/-- Seven elements in descending order fill a tree of height three, which takes four single rotations. -/
theorem spines_run_descending :
    (single 7).Fresh ∧ (((single 7).run []).tree 0).isEmpty = true ∧
      (List.finRange 7).reverse.Pairwise (fun a b => b < a) ∧
      ((((single 7).run []).tree 0).afterInsertions (offerEach (List.finRange 7).reverse)).verify none = .ok 3 ∧
      (((((single 7).run []).tree 0).attemptAll (offerEach (List.finRange 7).reverse)).flatMap
        Outcome.log).filter Event.isRotation = List.replicate 4 (.rotated .single (.finite 0)) ∧
      ∃ t, ((((single 7).run []).tree 0).afterInsertions (offerEach (List.finRange 7).reverse)).Threads t ∧
        t.Perfect ∧ t.height = 3 := by
  have hempty : (((single 7).run []).tree 0).isEmpty = true := rfl
  have hsorted : (List.finRange 7).reverse.Pairwise fun a b => b < a := by decide
  have hjoins : ∀ a, (((single 7).run []).tree 0).Joins a := by decide +kernel
  have hoffers : List.Forall₂ (fun a r => r.Offers (· < ·) (List.finRange 7).reverse a)
      (List.finRange 7).reverse (offerEach (List.finRange 7).reverse) := by
    rw [offerEach, List.forall₂_map_right_iff, List.forall₂_same]
    intro a _
    exact ⟨rfl, compare a, seeks_compare a, compare_eq_iff_eq.mpr rfl, fun e _ _ => ⟨(), rfl⟩⟩
  have hfills := spines_run (fresh_single 7) [] 0 hempty (by decide) (fun a _ => hjoins a) (Or.inr hsorted) hoffers
  have hlength : (offerEach (List.finRange 7).reverse).length = 7 := rfl
  have hlog : Nat.log 2 7 = 2 := Nat.log_eq_of_pow_le_of_lt_pow (by decide) (by decide)
  refine ⟨fresh_single 7, hempty, hsorted, ?_, ?_, ?_⟩
  · rw [hfills.height, hlength, hlog]
  · rw [hfills.rotations, hlength, hlog]
  · obtain ⟨t, ht, hperfect, hheight, -⟩ := hfills.perfect 3 hlength
    exact ⟨t, ht, hperfect, hheight⟩

end World

end BalancedLinks
