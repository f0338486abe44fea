import BalancedLinks.Proofs.Atomicity
import BalancedLinks.Proofs.Growth
import BalancedLinks.Proofs.Positions

/-!
# Insertions in a mirror

If every answer of the comparators is turned round, a search goes to the other side at each link, and links and
repairs happen on the other side. So two runs of insertions, one with the answers of the other turned round, keep two
trees of which each is the mirror image of the other: children change places, and balances their sign. Only the
origins are alike in both, with the root as their left child.

The tree's own check of its order is not symmetric. It comes after the link has been linked, so that it can withhold
the result of an insertion in one of the runs, and nothing else.

The main statements are `Shape.Reflects.grown` and `World.reflects_run`.
-/

set_option autoImplicit false

namespace BalancedLinks

/-- An answer that is turned round sends a search to the other side. -/
theorem sideTowards_swap {answer : Ordering} (h : answer ≠ .eq) :
    sideTowards answer.swap = (sideTowards answer).other := by
  cases answer with
  | eq => exact absurd rfl h
  | lt | gt => rfl

/-! ## Shapes -/

namespace Shape

variable {n m : Nat} {R : LinkId n → LinkId m → Prop}

/-- Whether one shape is the mirror image of another, with related links in the places that reflect each other. -/
inductive Reflects (R : LinkId n → LinkId m → Prop) : Shape n → Shape m → Prop
  | empty : Reflects R .empty .empty
  | node {a b : Shape n} {c d : Shape m} {l : LinkId n} {k : LinkId m} (left : Reflects R a d) (link : R l k)
      (right : Reflects R b c) : Reflects R (.node a l b) (.node c k d)

/-- Nothing is lifted where there is no child on the given side. -/
theorem lifted_fork_empty (s : Side) (l : LinkId n) (b : Shape n) :
    (fork s .empty l b).lifted s = fork s .empty l b := by
  cases s <;> cases b <;> rfl

end Shape

/-- Whether two frames reflect each other: their places are on opposite sides, beside shapes that do so. -/
structure Frame.Reflects {n m : Nat} (R : LinkId n → LinkId m → Prop) (f : Frame n) (f' : Frame m) : Prop where
  side : f'.side = f.side.other
  link : R f.link f'.link
  rest : f.rest.Reflects R f'.rest

namespace Shape.Reflects

variable {n m : Nat} {R : LinkId n → LinkId m → Prop} {t : Shape n} {u : Shape m}

/-- A mirror image is as high as the original. -/
theorem height_eq (h : Reflects R t u) : u.height = t.height := by
  induction h with
  | empty => rfl
  | node _ _ _ iha ihb => rw [Shape.height, Shape.height, iha, ihb, max_comm]

/-- A mirror image tilts as far to the other side. -/
theorem tilt_eq (h : Reflects R t u) : u.tilt = -t.tilt := by
  cases h with
  | empty => rfl
  | node ha _ hb =>
    rw [tilt, tilt, ha.height_eq, hb.height_eq]
    omega

/-- A mirror image leads on the other side by as much. -/
theorem lead_eq (h : Reflects R t u) (s : Side) : u.lead s.other = t.lead s := by
  have htilt := h.tilt_eq
  cases s <;> simp only [lead, Side.other] <;> omega

/-- Mirror images of two sides make one of the fork, with the sides exchanged. -/
theorem fork {a b : Shape n} {c d : Shape m} {l : LinkId n} {k : LinkId m} (s : Side) (ha : Reflects R a c)
    (hl : R l k) (hb : Reflects R b d) : Reflects R (Shape.fork s a l b) (Shape.fork s.other c k d) := by
  cases s
  · exact .node ha hl hb
  · exact .node hb hl ha

/-- A mirror image of a fork is a fork the other way round. -/
theorem exists_fork {s : Side} {a b : Shape n} {l : LinkId n} (h : Reflects R (Shape.fork s a l b) u) :
    ∃ c k d, u = Shape.fork s.other c k d ∧ Reflects R a c ∧ R l k ∧ Reflects R b d := by
  cases s
  · cases h with
    | node ha hl hb => exact ⟨_, _, _, rfl, ha, hl, hb⟩
  · cases h with
    | node hb hl ha => exact ⟨_, _, _, rfl, ha, hl, hb⟩

/-- A mirror image of a node has a related link at its root. -/
theorem of_node {a b : Shape n} {l : LinkId n} (h : Reflects R (.node a l b) u) :
    ∃ c k d, u = .node c k d ∧ R l k := by
  cases h with
  | node _ hl _ => exact ⟨_, _, _, rfl, hl⟩

/-! ### Repairs -/

/-- The sides of a mirror image are mirror images of the other sides. -/
theorem childOn (h : Reflects R t u) (s : Side) : Reflects R (t.childOn s) (u.childOn s.other) := by
  rcases eq_empty_or_fork s t with rfl | ⟨a, l, b, rfl⟩
  · cases h
    cases s <;> exact .empty
  · obtain ⟨c, k, d, rfl, ha, -, -⟩ := h.exists_fork
    rwa [childOn_fork, childOn_fork]

/-- Lifting a child turns a mirror image into one, with the child of the other side. -/
theorem lifted (h : Reflects R t u) (s : Side) : Reflects R (t.lifted s) (u.lifted s.other) := by
  rcases eq_empty_or_fork s t with rfl | ⟨a, l, b, rfl⟩
  · cases h
    cases s <;> exact .empty
  obtain ⟨c, k, d, rfl, ha, hl, hb⟩ := h.exists_fork
  rcases eq_empty_or_fork s a with rfl | ⟨a₁, p, a₂, rfl⟩
  · cases ha
    rw [lifted_fork_empty, lifted_fork_empty]
    exact h
  · obtain ⟨c₁, q, c₂, rfl, ha₁, hp, ha₂⟩ := ha.exists_fork
    rw [lifted_fork, lifted_fork]
    exact ha₁.fork s hp (ha₂.fork s hl hb)

/-- Turning a child inwards turns a mirror image into one, with the child of the other side. -/
theorem turned (h : Reflects R t u) (s : Side) : Reflects R (t.turned s) (u.turned s.other) := by
  rcases eq_empty_or_fork s t with rfl | ⟨a, l, b, rfl⟩
  · cases h
    cases s <;> exact .empty
  · obtain ⟨c, k, d, rfl, ha, hl, hb⟩ := h.exists_fork
    rw [turned_fork, turned_fork]
    exact (ha.lifted s.other).fork s hl hb

/-- A link that is not level is heavy on the side opposite to that of its mirror image. -/
theorem heavy_eq (h : Reflects R t u) (htilt : t.tilt ≠ 0) : u.heavy = t.heavy.other := by
  have hnegated := h.tilt_eq
  unfold heavy
  by_cases hpositive : 0 < t.tilt
  · rw [if_pos hpositive, if_neg (by omega)]
    rfl
  · rw [if_neg hpositive, if_pos (by omega)]
    rfl

/-- Links that reflect each other are mended in the same way. -/
theorem mended (h : Reflects R t u) (htilt : t.tilt ≠ 0) :
    u.mended.1 = t.mended.1 ∧ Reflects R t.mended.2 u.mended.2 := by
  have hlead := (h.childOn t.heavy).lead_eq t.heavy
  unfold Shape.mended
  rw [h.heavy_eq htilt, hlead]
  split_ifs
  · exact ⟨rfl, (h.turned t.heavy).lifted t.heavy⟩
  · exact ⟨rfl, h.lifted t.heavy⟩

/-! ### Places -/

/-- Mirror images in mirrored frames fill them to mirror images. -/
theorem fill {f : Frame n} {f' : Frame m} (h : Reflects R t u) (hf : f.Reflects R f') :
    Reflects R (f.fill t) (f'.fill u) := by
  rw [Frame.fill, Frame.fill, hf.side]
  exact h.fork f.side hf.link hf.rest

/-- Mirror images at mirrored places make one of the whole. -/
theorem plug {fs : List (Frame n)} {fs' : List (Frame m)} (h : Reflects R t u)
    (hfs : List.Forall₂ (Frame.Reflects R) fs fs') : Reflects R (Shape.plug fs t) (Shape.plug fs' u) := by
  induction hfs generalizing t u with
  | nil => exact h
  | cons hf _ ih => exact ih (h.fill hf)

/-- A place in a shape has a place that reflects it in the mirror image. -/
theorem exists_plug {fs : List (Frame n)} (h : Reflects R (Shape.plug fs t) u) :
    ∃ fs' u', u = Shape.plug fs' u' ∧ List.Forall₂ (Frame.Reflects R) fs fs' ∧ Reflects R t u' := by
  induction fs generalizing t with
  | nil => exact ⟨[], u, rfl, .nil, h⟩
  | cons f fs ih =>
    obtain ⟨fs', u', rfl, hfs, hfill⟩ := ih h
    obtain ⟨c, k, d, rfl, hplace, hlink, hrest⟩ := hfill.exists_fork
    exact ⟨⟨f.side.other, k, d⟩ :: fs', c, rfl, .cons ⟨rfl, hlink, hrest⟩ hfs, hplace⟩

/-- Places that reflect each other grow into shapes that do so. -/
theorem grown {fs : List (Frame n)} {fs' : List (Frame m)} (h : Reflects R t u)
    (hfs : List.Forall₂ (Frame.Reflects R) fs fs') :
    Reflects R (Shape.grown fs t).2 (Shape.grown fs' u).2 := by
  induction hfs generalizing t u with
  | nil => exact h
  | @cons f f' fs fs' hf hfs ih =>
    have hfill := h.fill hf
    have htilt := hfill.tilt_eq
    have hsize : (f'.fill u).tilt.natAbs = (f.fill t).tilt.natAbs := by omega
    have hzero : (f'.fill u).tilt = 0 ↔ (f.fill t).tilt = 0 := by omega
    simp only [Shape.grown, hsize, hzero]
    split_ifs with h0 h2
    · exact hfill.plug hfs
    · exact (hfill.mended h0).2.plug hfs
    · exact ih hfill

end Shape.Reflects

/-! ## Links -/

namespace Links

variable {α β : Type} {n m : Nat} {g : Links α n} {g' : Links β m} {R : LinkId n → LinkId m → Prop}

/--
Whether what hangs from a slot of one link is the mirror image of what hangs from a slot of another, link by link:
every link refers back to the one it hangs from, children change places, and balances their sign.
-/
inductive Reflects (g : Links α n) (g' : Links β m) (R : LinkId n → LinkId m → Prop) :
    LinkId n → LinkId m → Option (LinkId n) → Option (LinkId m) → Prop
  | none (p : LinkId n) (p' : LinkId m) : Reflects g g' R p p' none none
  | some {p l : LinkId n} {p' k : LinkId m} (link : R l k) (parent : g.parent l = some p)
      (parent' : g'.parent k = some p') (balance : g'.balance k = -g.balance l)
      (left : Reflects g g' R l k (g.child l .left) (g'.child k .right))
      (right : Reflects g g' R l k (g.child l .right) (g'.child k .left)) : Reflects g g' R p p' (some l) (some k)

/-- Slots of exact links that unfold to mirror images reflect each other link by link. -/
theorem Spans.reflects {slot : Option (LinkId n)} {slot' : Option (LinkId m)} {p : LinkId n} {p' : LinkId m}
    {t : Shape n} {u : Shape m} (h : g.Spans slot p t) (h' : g'.Spans slot' p' u) (hx : g.Exact t)
    (hx' : g'.Exact u) (hreflects : t.Reflects R u) : Reflects g g' R p p' slot slot' := by
  induction hreflects generalizing slot slot' p p' with
  | empty =>
    obtain rfl : slot = Option.none := h
    obtain rfl : slot' = Option.none := h'
    exact .none p p'
  | @node a b c d l k hleft hlink hright ihleft ihright =>
    obtain ⟨rfl, hparent, ha, hb⟩ := h
    obtain ⟨rfl, hparent', hc, hd⟩ := h'
    obtain ⟨hbalance, hxa, hxb⟩ := hx
    obtain ⟨hbalance', hxc, hxd⟩ := hx'
    refine .some hlink hparent hparent' ?_ (ihleft ha hd hxa hxd) (ihright hb hc hxb hxc)
    rw [hbalance, hbalance', (Shape.Reflects.node hleft hlink hright).tilt_eq]
    rfl

end Links

/-! ## Answers that are turned round -/

section Answers

variable {α β σ τ : Type}

/-- Whether one comparator fails where another one does, and gives its answer turned round where it answers. -/
inductive Opposite : Except String Ordering → Except String Ordering → Prop
  | failed (message message' : String) : Opposite (.error message) (.error message')
  | answered (answer : Ordering) : Opposite (.ok answer) (.ok answer.swap)

/-- Whether comparators give opposite answers about paired elements, whatever they are asked about in turn. -/
def Comparator.Opposes (pair : α → β → Prop) (c : Comparator σ α) (s : σ) (d : Comparator τ β) (s' : τ) : Prop :=
  ∀ as bs, List.Forall₂ pair as bs → List.Forall₂ Opposite (c.answers s as) (d.answers s' bs)

variable {pair : α → β → Prop} {c : Comparator σ α} {d : Comparator τ β} {s s₁ : σ} {s' : τ} {a : α} {b : β}

namespace Comparator.Opposes

/-- Where one comparator fails, so does one that opposes it. -/
theorem ask_error {message : String} (h : c.Opposes pair s d s') (hab : pair a b)
    (hask : c.ask s a = .error message) :
    ∃ message', d.ask s' b = .error message' := by
  have hfirst := h [a] [b] (.cons hab .nil)
  rw [answers_cons_of_error hask] at hfirst
  cases hanswers : d.answers s' [b] with
  | nil =>
    rw [hanswers] at hfirst
    cases hfirst
  | cons o os =>
    rw [hanswers] at hfirst
    cases hfirst with
    | cons hopposite _ =>
      cases hopposite with
      | failed _ message' => exact ⟨message', ask_of_answers_error hanswers⟩

/-- After an answer, and its opposite, what the comparators still answer is opposite as well. -/
theorem ask_ok {answer : Ordering} (h : c.Opposes pair s d s') (hab : pair a b)
    (hask : c.ask s a = .ok (answer, s₁)) :
    ∃ s₁', d.ask s' b = .ok (answer.swap, s₁') ∧ c.Opposes pair s₁ d s₁' := by
  have hreply : ∀ as bs, List.Forall₂ pair as bs →
      ∃ s₁', d.ask s' b = .ok (answer.swap, s₁') ∧
        List.Forall₂ Opposite (c.answers s₁ as) (d.answers s₁' bs) := by
    intro as bs hpairs
    have hall := h (a :: as) (b :: bs) (.cons hab hpairs)
    rw [answers_cons_of_ok hask] at hall
    cases hanswers : d.answers s' (b :: bs) with
    | nil =>
      rw [hanswers] at hall
      cases hall
    | cons o os =>
      rw [hanswers] at hall
      cases hall with
      | cons hopposite hrest =>
        cases hopposite
        obtain ⟨s₁', hask', rfl⟩ := ask_of_answers_ok hanswers
        exact ⟨s₁', hask', hrest⟩
  obtain ⟨s₁', hask', -⟩ := hreply [] [] .nil
  refine ⟨s₁', hask', fun as bs hpairs => ?_⟩
  obtain ⟨s₂', hask'', hrest⟩ := hreply as bs hpairs
  rw [hask'] at hask''
  obtain ⟨-, rfl⟩ := Prod.mk.inj (Except.ok.inj hask'')
  exact hrest

end Comparator.Opposes

/-- A comparator that answers by the element alone is opposed by the one that turns its answers round. -/
theorem Comparator.opposes_swap (answer : α → Ordering) :
    (Comparator.ofOrdering answer).Opposes Eq () (.ofOrdering fun a => (answer a).swap) () := by
  intro as bs hpairs
  induction hpairs with
  | nil => exact .nil
  | @cons a b as bs hab _ ih =>
    subst hab
    exact .cons (.answered (answer a)) ih

end Answers

/-- A search by opposite answers comes by the frames that reflect those of the other search. -/
theorem Links.Trail.reflects {α β σ τ : Type} {n m : Nat} {g : Links α n} {g' : Links β m}
    {R : LinkId n → LinkId m → Prop} {pair : α → β → Prop} {c : Comparator σ α} {d : Comparator τ β} {s₀ s : σ}
    {s₀' : τ} {fs : List (Frame n)} {fs' : List (Frame m)} {as : List α} (h : Links.Trail g c s₀ fs as s)
    (hopposes : c.Opposes pair s₀ d s₀') (hfs : List.Forall₂ (Frame.Reflects R) fs fs')
    (howners : ∀ l k e, R l k → g.owner l = some e → ∃ e', g'.owner k = some e' ∧ pair e e') :
    ∃ bs s', Links.Trail g' d s₀' fs' bs s' ∧ c.Opposes pair s d s' := by
  induction h generalizing fs' with
  | nil =>
    cases hfs
    exact ⟨[], s₀', .nil, hopposes⟩
  | @cons f fs as a s s₁ answer _ howner hask hdiffers hside ih =>
    cases hfs with
    | @cons _ f' _ fs' hf hfs =>
      obtain ⟨bs, s', htrail, hrest⟩ := ih hfs
      obtain ⟨b, howner', hab⟩ := howners f.link f'.link a hf.link howner
      obtain ⟨s₁', hask', hopposes'⟩ := hrest.ask_ok hab hask
      refine ⟨bs ++ [b], s₁', .cons htrail howner' hask' ?_ ?_, hopposes'⟩
      · exact fun heq => hdiffers (Ordering.swap_inj.mp heq)
      · rw [hf.side, hside, sideTowards_swap hdiffers]

/-! ## Trees -/

/-- Whether two links are those that two selectors take of paired elements. -/
def LinkPair {α β : Type} {n m : Nat} (pair : α → β → Prop) (linkOf : α → LinkId n) (linkOf' : β → LinkId m)
    (l : LinkId n) (k : LinkId m) : Prop :=
  ∃ a b, pair a b ∧ linkOf a = l ∧ linkOf' b = k

/-- Whether callers supply paired elements, or both decline, or both fail. -/
inductive Attempt.Supplies {α β : Type} (pair : α → β → Prop) :
    Except String (Option α) → Except String (Option β) → Prop
  | failed (message message' : String) : Supplies pair (.error message) (.error message')
  | declined : Supplies pair (.ok none) (.ok none)
  | supplied {a : α} {b : β} (paired : pair a b) : Supplies pair (.ok (some a)) (.ok (some b))

/-- Whether one attempt is another one with opposite answers, for paired elements. -/
structure Attempt.Opposes {α β : Type} (pair : α → β → Prop) (r : Attempt α) (r' : Attempt β) : Prop where
  answers : r.comparator.Opposes pair r.state r'.comparator r'.state
  supply : Attempt.Supplies pair r.supply r'.supply

namespace LinkedTree

variable {α β : Type} {n m : Nat} {x x' : LinkedTree α n} {y y' : LinkedTree β m} {pair : α → β → Prop}
  {R : LinkId n → LinkId m → Prop} {t : Shape n} {u : Shape m}

/--
Whether paired elements correspond, for two trees: the selectors take one link of some of them where they take one of
their partners, the links have paired owners, and one can join its tree exactly if the other can.
-/
structure Corresponds (pair : α → β → Prop) (x : LinkedTree α n) (y : LinkedTree β m) : Prop where
  links : ∀ {a a' b b'}, pair a b → pair a' b' →
    (x.tree.linkOf a = x.tree.linkOf a' ↔ y.tree.linkOf b = y.tree.linkOf b')
  owners : ∀ {a b}, pair a b → ∀ e, x.links.owner (x.tree.linkOf a) = some e →
    ∃ e', y.links.owner (y.tree.linkOf b) = some e' ∧ pair e e'
  joins : ∀ {a b}, pair a b → (x.refuses? (x.tree.linkOf a) = none ↔ y.refuses? (y.tree.linkOf b) = none)

/-- The elements of a tree correspond to themselves. -/
theorem Corresponds.refl (x : LinkedTree α n) : Corresponds Eq x x where
  links hab hab' := by rw [hab, hab']
  owners hab e he := ⟨e, hab ▸ he, rfl⟩
  joins hab := by rw [hab]

/-- Whether an element has been linked in a tree that checks itself, and the tree's order objects to its elements. -/
def Withholds (x : LinkedTree α n) (p : Placement n) : Prop :=
  p.inserted = true ∧ x.tree.verify = true ∧
    ∃ elements, x.toList = .ok elements ∧ Disordered x.tree.order elements

/-- Whether an insertion has come to a placement: it is the result, unless the tree's own check withholds it. -/
structure ComesTo (x : LinkedTree α n) (result : Except Failure (Placement n)) (p : Placement n) : Prop where
  returned : ¬ x.Withholds p → result = .ok p
  withheld : x.Withholds p → result = .error (.violation .notIncreasing)

/-- Whether an insertion has failed before it came to a placement: with the caller, or because of the element. -/
def Fails (result : Except Failure (Placement n)) : Prop :=
  ∃ e, result = .error e ∧ e ≠ .violation .notIncreasing

/-- Whether two placements have the same flag, and are on related links or at the ends of the trees. -/
structure Placed (R : LinkId n → LinkId m → Prop) (x : LinkedTree α n) (y : LinkedTree β m) (p : Placement n)
    (q : Placement m) : Prop where
  inserted : p.inserted = q.inserted
  cursor : (∃ l k, R l k ∧ p.cursor = .on l ∧ q.cursor = .on k) ∨ p.cursor = x.endCursor ∧ q.cursor = y.endCursor

/--
Whether two insertions have ended in a mirror. They leave trees that reflect each other; and either both have failed,
or both have come to placements that agree.
-/
structure Mirrored (R : LinkId n → LinkId m → Prop) (o : Outcome (LinkedTree α n) Event (Placement n))
    (o' : Outcome (LinkedTree β m) Event (Placement m)) : Prop where
  tree : Links.Reflects o.state.links o'.state.links R o.state.origin o'.state.origin o.state.root o'.state.root
  result : Fails o.result ∧ Fails o'.result ∨ ∃ p q, Placed R o.state o'.state p q ∧
    o.state.ComesTo o.result p ∧ o'.state.ComesTo o'.result q

/-- What a logger keeps of the reports makes no difference to that. -/
theorem Mirrored.keeping {o : Outcome (LinkedTree α n) Event (Placement n)}
    {o' : Outcome (LinkedTree β m) Event (Placement m)} (h : Mirrored R o o') (keep keep' : Event → Bool) :
    Mirrored R (o.keeping keep) (o'.keeping keep') :=
  ⟨h.tree, h.result⟩

/-- Trees that thread mirror images reflect each other link by link. -/
theorem Threads.reflects (h : x.Threads t) (h' : y.Threads u) (hreflects : t.Reflects R u) :
    Links.Reflects x.links y.links R x.origin y.origin x.root y.root :=
  h.carries.spans.reflects h'.carries.spans h.exact h'.exact hreflects

/-- An insertion whose callback fails has failed before it came to a placement. -/
theorem fails_of_callback (message : String) : Fails (.error (.callback message) : Except Failure (Placement n)) :=
  ⟨_, rfl, by simp⟩

/-- An element that may not join is refused before anything is linked. -/
theorem fails_of_refuses? {l : LinkId n} {cause : Violation} (h : x.refuses? l = some cause) :
    Fails (.error (.violation cause) : Except Failure (Placement n)) := by
  refine ⟨_, rfl, fun heq => ?_⟩
  have hprecondition := precondition_of_refuses? h
  rw [Failure.violation.inj heq] at hprecondition
  cases hprecondition

/-- An insertion that has linked nothing has come to the placement that it returns. -/
theorem comesTo_of_unlinked (x : LinkedTree α n) (c : Cursor n) : x.ComesTo (.ok ⟨c, false⟩) ⟨c, false⟩ :=
  ⟨fun _ => rfl, fun hwithholds => absurd hwithholds.1 (by simp)⟩

/-- An insertion that has linked an element comes to its placement, and then to the tree's check. -/
theorem Threads.comesTo_of_linked (h : x.Threads t) (l : LinkId n) :
    x.ComesTo ((x.checkAfter .insert).result.map fun _ => ⟨.on l, true⟩) ⟨.on l, true⟩ := by
  have hlist : x.toList = .ok (t.inorder.filterMap x.links.owner) := h.collect_eq .right
  constructor
  · intro hreturns
    have hpasses : ¬ x.Objects t.inorder :=
      fun hobjects => hreturns ⟨rfl, hobjects.1, _, hlist, hobjects.2⟩
    simp only [h.checkAfter_of_not_objects hpasses, Outcome.pure, Except.map]
  · rintro ⟨-, hverify, elements, helements, hdisordered⟩
    obtain rfl := Except.ok.inj (hlist.symm.trans helements)
    have hobjects : x.Objects t.inorder := ⟨hverify, hdisordered⟩
    simp only [h.checkAfter_of_objects hobjects, Except.map]

/-- After a link has joined a tree, the links that may still join are the same, less that one. -/
theorem Threads.refuses?_resized {g : Links α n} {v : Shape n} {l k : LinkId n} (h : x.Threads t)
    (hthreads : (x.resized g 1).Threads v) (hinorder : ∀ i, i ∈ v.inorder ↔ i = l ∨ i ∈ t.inorder)
    (hedit : Links.Edit x.links g x.origin .left (l :: t.inorder)) :
    (x.resized g 1).refuses? k = none ↔ x.refuses? k = none ∧ k ≠ l := by
  -- a link that may join a tree is neither its origin nor in it, and only such links are left alone
  have hout : ∀ {z : LinkedTree α n} {w : Shape n}, z.Threads w → z.refuses? k = none →
      k ≠ z.origin ∧ k ∉ w.inorder := by
    intro z w hz hjoins
    obtain ⟨-, howner, hparent, -⟩ := (refuses?_eq_none_iff k).mp hjoins
    exact hz.not_mem_of_unlinked howner hparent
  have hsame : k ≠ x.origin → k ∉ l :: t.inorder → (x.resized g 1).refuses? k = x.refuses? k := by
    intro horigin hmem
    obtain ⟨howner, htag, hparent, hchild, -⟩ := (Links.get_eq_iff k).mp (hedit.outside k horigin hmem)
    simp only [refuses?, resized, howner, htag, hparent, hchild]
  constructor
  · intro hjoins
    obtain ⟨horigin, hmem⟩ := hout hthreads hjoins
    rw [hinorder, not_or] at hmem
    have hmem' : k ∉ l :: t.inorder := by simpa using hmem
    exact ⟨(hsame horigin hmem').symm.trans hjoins, hmem.1⟩
  · rintro ⟨hjoins, hkl⟩
    obtain ⟨horigin, hmem⟩ := hout h hjoins
    exact (hsame horigin (by simp [hkl, hmem])).trans hjoins

/-- Paired elements still correspond after two of them have been linked. -/
theorem Corresponds.linked {a : α} {b : β} {g : Links α n} {g' : Links β m} (h : Corresponds pair x y)
    (hab : pair a b) (howner : ∀ l, g.owner l = x.links.owner l) (howner' : ∀ k, g'.owner k = y.links.owner k)
    (hjoins : ∀ l, (x.resized g 1).refuses? l = none ↔ x.refuses? l = none ∧ l ≠ x.tree.linkOf a)
    (hjoins' : ∀ k, (y.resized g' 1).refuses? k = none ↔ y.refuses? k = none ∧ k ≠ y.tree.linkOf b) :
    Corresponds pair (x.resized g 1) (y.resized g' 1) := by
  have hlinks : ∀ {c d}, pair c d → (x.tree.linkOf c = x.tree.linkOf a ↔ y.tree.linkOf d = y.tree.linkOf b) :=
    fun hcd => h.links hcd hab
  refine ⟨h.links, ?_, ?_⟩
  · intro c d hcd e he
    obtain ⟨e', he', hpair⟩ := h.owners hcd e ((howner _).symm.trans he)
    exact ⟨e', (howner' _).trans he', hpair⟩
  · intro c d hcd
    rw [hjoins, hjoins', ne_eq, ne_eq]
    exact and_congr (h.joins hcd) (not_congr (hlinks hcd))

/-- The invariant of two trees in a mirror: they thread mirror images, and paired elements correspond. -/
structure Reflections (pair : α → β → Prop) (x : LinkedTree α n) (y : LinkedTree β m) (t : Shape n) (u : Shape m) :
    Prop where
  left : x.Threads t
  right : y.Threads u
  shapes : t.Reflects (LinkPair pair x.tree.linkOf y.tree.linkOf) u
  elements : Corresponds pair x y

/--
What an insertion into either of two trees in a mirror comes to: the two end in a mirror, and the trees that they leave
select links as before and reflect each other again.
-/
structure StepMirrored (pair : α → β → Prop) (x : LinkedTree α n) (y : LinkedTree β m)
    (o : Outcome (LinkedTree α n) Event (Placement n)) (o' : Outcome (LinkedTree β m) Event (Placement m)) :
    Prop where
  mirrored : Mirrored (LinkPair pair x.tree.linkOf y.tree.linkOf) o o'
  linkOf_left : o.state.tree.linkOf = x.tree.linkOf
  linkOf_right : o'.state.tree.linkOf = y.tree.linkOf
  reflections : ∃ t u, Reflections pair o.state o'.state t u

namespace Reflections

/-- Paired links have paired owners. -/
theorem owners (h : Reflections pair x y t u) :
    ∀ l k e, LinkPair pair x.tree.linkOf y.tree.linkOf l k → x.links.owner l = some e →
      ∃ e', y.links.owner k = some e' ∧ pair e e' := by
  rintro _ _ e ⟨a, b, hab, rfl, rfl⟩ he
  exact h.elements.owners hab e he

/-- An insertion that changes neither tree. -/
theorem unchanged (h : Reflections pair x y t u) {result : Except Failure (Placement n)}
    {result' : Except Failure (Placement m)} (hresult : Fails result ∧ Fails result' ∨
      ∃ p q, Placed (LinkPair pair x.tree.linkOf y.tree.linkOf) x y p q ∧ x.ComesTo result p ∧ y.ComesTo result' q) :
    StepMirrored pair x y ⟨x, [], result⟩ ⟨y, [], result'⟩ :=
  ⟨⟨h.left.reflects h.right h.shapes, hresult⟩, rfl, rfl, t, u, h⟩

/-- A search that has asked about the owner of a link stands, in the other tree, before the link's partner. -/
theorem facing {σ τ : Type} {c : Comparator σ α} {d : Comparator τ β} {s₀ s : σ} {s₀' : τ} {fs : List (Frame n)}
    {as : List α} {a b : Shape n} {l : LinkId n} {e : α} (h : Reflections pair x y t u)
    (hopposes : c.Opposes pair s₀ d s₀') (htrail : Links.Trail x.links c s₀ fs as s)
    (hplace : t = .plug fs (.node a l b)) (howner : x.links.owner l = some e) :
    ∃ fs' a' k b' bs s' e', u = .plug fs' (.node a' k b') ∧ LinkPair pair x.tree.linkOf y.tree.linkOf l k ∧
      Links.Trail y.links d s₀' fs' bs s' ∧ c.Opposes pair s d s' ∧ y.links.owner k = some e' ∧ pair e e' := by
  obtain ⟨fs', u', hplug, hframes, hnode⟩ := (hplace ▸ h.shapes).exists_plug
  obtain ⟨a', k, b', rfl, hlk⟩ := hnode.of_node
  obtain ⟨bs, s', htrail', hopposes'⟩ := htrail.reflects hopposes hframes h.owners
  obtain ⟨e', howner', hpair⟩ := h.owners l k e hlk howner
  exact ⟨fs', a', k, b', bs, s', e', hplug, hlk, htrail', hopposes', howner', hpair⟩

/-- An insertion that links paired elements at places that reflect each other. -/
theorem linked {fs : List (Frame n)} {fs' : List (Frame m)} {r : Attempt α} {r' : Attempt β}
    {as : List α} {bs : List β} {s : r.σ} {s' : r'.σ} {a : α} {b : β}
    (h : Reflections pair x y (.plug fs .empty) (.plug fs' .empty))
    (hframes : List.Forall₂ (Frame.Reflects (LinkPair pair x.tree.linkOf y.tree.linkOf)) fs fs')
    (htrail : Links.Trail x.links r.comparator r.state fs as s)
    (htrail' : Links.Trail y.links r'.comparator r'.state fs' bs s') (hab : pair a b)
    (hsupply : r.supply = .ok (some a)) (hsupply' : r'.supply = .ok (some b))
    (hjoins : x.refuses? (x.tree.linkOf a) = none) (hjoins' : y.refuses? (y.tree.linkOf b) = none) :
    StepMirrored pair x y (x.attempt r) (y.attempt r') := by
  have hlink : LinkPair pair x.tree.linkOf y.tree.linkOf (x.tree.linkOf a) (y.tree.linkOf b) := ⟨a, b, hab, rfl, rfl⟩
  obtain ⟨g, hrun, hthreads, hedit⟩ := h.left.attempt_linked htrail hsupply hjoins
  obtain ⟨g', hrun', hthreads', hedit'⟩ := h.right.attempt_linked htrail' hsupply' hjoins'
  have hgrown := (Shape.Reflects.node .empty hlink .empty).grown hframes
  have helements := h.elements.linked hab hedit.owner hedit'.owner
    (fun _ => h.left.refuses?_resized hthreads (Shape.mem_inorder_grown_leaf fs _) hedit)
    (fun _ => h.right.refuses?_resized hthreads' (Shape.mem_inorder_grown_leaf fs' _) hedit')
  rw [hrun, hrun']
  refine ⟨⟨hthreads.reflects hthreads' hgrown, Or.inr ⟨⟨.on (x.tree.linkOf a), true⟩, ⟨.on (y.tree.linkOf b), true⟩,
    ?_, ?_, ?_⟩⟩, rfl, rfl, _, _, hthreads, hthreads', hgrown, helements⟩
  · exact ⟨rfl, Or.inl ⟨_, _, hlink, rfl, rfl⟩⟩
  · exact hthreads.comesTo_of_linked (x.tree.linkOf a)
  · exact hthreads'.comesTo_of_linked (y.tree.linkOf b)

/-- Opposite attempts that both search their way to a vacant place. -/
theorem attempt_vacant {fs : List (Frame n)} {fs' : List (Frame m)} {r : Attempt α} {r' : Attempt β}
    {as : List α} {bs : List β} {s : r.σ} {s' : r'.σ}
    (h : Reflections pair x y (.plug fs .empty) (.plug fs' .empty))
    (hframes : List.Forall₂ (Frame.Reflects (LinkPair pair x.tree.linkOf y.tree.linkOf)) fs fs')
    (htrail : Links.Trail x.links r.comparator r.state fs as s)
    (htrail' : Links.Trail y.links r'.comparator r'.state fs' bs s')
    (hsupply : Attempt.Supplies pair r.supply r'.supply) :
    StepMirrored pair x y (x.attempt r) (y.attempt r') := by
  have hattempt : x.attempt r = x.supplyAt r.supply (Shape.slotOf x.origin fs).1 (Shape.slotOf x.origin fs).2 := by
    simp only [attempt, h.left.carries.search_vacant htrail]
  have hattempt' : y.attempt r' =
      y.supplyAt r'.supply (Shape.slotOf y.origin fs').1 (Shape.slotOf y.origin fs').2 := by
    simp only [attempt, h.right.carries.search_vacant htrail']
  generalize hgiven : r.supply = supply at hsupply
  generalize hgiven' : r'.supply = supply' at hsupply
  cases hsupply with
  | failed message message' =>
    rw [hattempt, hattempt', hgiven, hgiven']
    exact h.unchanged (Or.inl ⟨fails_of_callback message, fails_of_callback message'⟩)
  | declined =>
    rw [hattempt, hattempt', hgiven, hgiven']
    refine h.unchanged (Or.inr ⟨⟨x.endCursor, false⟩, ⟨y.endCursor, false⟩, ⟨rfl, Or.inr ⟨rfl, rfl⟩⟩, ?_, ?_⟩)
    · exact x.comesTo_of_unlinked x.endCursor
    · exact y.comesTo_of_unlinked y.endCursor
  | @supplied a b hab =>
    have hjoins := h.elements.joins hab
    cases hrefusal : x.refuses? (x.tree.linkOf a) with
    | some cause =>
      cases hrefusal' : y.refuses? (y.tree.linkOf b) with
      | none => simp [hrefusal, hrefusal'] at hjoins
      | some cause' =>
        rw [hattempt, hattempt', hgiven, hgiven']
        simp only [supplyAt, hrefusal, hrefusal']
        exact h.unchanged (Or.inl ⟨fails_of_refuses? hrefusal, fails_of_refuses? hrefusal'⟩)
    | none => exact h.linked hframes htrail htrail' hab hgiven hgiven' hrefusal (hjoins.mp hrefusal)

/-- Opposite attempts on trees that reflect each other end in a mirror, and leave such trees. -/
theorem attempt (h : Reflections pair x y t u) {r : Attempt α} {r' : Attempt β} (hr : r.Opposes pair r') :
    StepMirrored pair x y (x.attempt r) (y.attempt r') := by
  have hends := h.left.carries.search_concludes h.left.owned r.comparator r.state
  generalize hsearch : x.links.search r.comparator r.state x.origin = search at hends
  cases hends with
  | @found fs as s s₁ a b l e htrail hplace howner hask =>
    obtain ⟨fs', c, k, d, bs, s', e', rfl, hlk, htrail', hopposes, howner', hpair⟩ :=
      h.facing hr.answers htrail hplace howner
    obtain ⟨s₁', hask', -⟩ := hopposes.ask_ok hpair hask
    have hsearch' := h.right.carries.search_found htrail' howner' hask'
    simp only [LinkedTree.attempt, hsearch, hsearch']
    refine h.unchanged (Or.inr ⟨⟨.on l, false⟩, ⟨.on k, false⟩, ?_, ?_, ?_⟩)
    · exact ⟨rfl, Or.inl ⟨l, k, hlk, rfl, rfl⟩⟩
    · exact x.comesTo_of_unlinked (.on l)
    · exact y.comesTo_of_unlinked (.on k)
  | @failed fs as s a b l e message htrail hplace howner hask =>
    obtain ⟨fs', c, k, d, bs, s', e', rfl, -, htrail', hopposes, howner', hpair⟩ :=
      h.facing hr.answers htrail hplace howner
    obtain ⟨message', hask'⟩ := hopposes.ask_error hpair hask
    have hsearch' := h.right.carries.search_failed htrail' howner' hask'
    simp only [LinkedTree.attempt, hsearch, hsearch']
    exact h.unchanged (Or.inl ⟨fails_of_callback message, fails_of_callback message'⟩)
  | @vacant fs as s htrail hplace =>
    subst hplace
    obtain ⟨fs', u', rfl, hframes, hempty⟩ := h.shapes.exists_plug
    obtain rfl : u' = .empty := by cases hempty; rfl
    obtain ⟨bs, s', htrail', -⟩ := htrail.reflects hr.answers hframes h.owners
    exact h.attempt_vacant hframes htrail htrail' hr.supply

/-- Two runs of opposite attempts, from trees that reflect each other, are mirrored step by step. -/
theorem attemptAll {rs : List (Attempt α)} {rs' : List (Attempt β)} (h : Reflections pair x y t u)
    (hrs : List.Forall₂ (Attempt.Opposes pair) rs rs') :
    List.Forall₂ (Mirrored (LinkPair pair x.tree.linkOf y.tree.linkOf)) (x.attemptAll rs) (y.attemptAll rs') := by
  induction hrs generalizing x y t u with
  | nil => exact .nil
  | @cons r r' rs rs' hr _ ih =>
    have hstep := h.attempt hr
    obtain ⟨t', u', hnext⟩ := hstep.reflections
    have hrest := ih hnext
    rw [hstep.linkOf_left, hstep.linkOf_right] at hrest
    exact .cons hstep.mirrored hrest

end Reflections

end LinkedTree

namespace World

/--
After any requests to the trees of two fresh worlds, two runs of insertions into empty trees, for elements that
correspond and through comparators whose answers are turned round, are mirrored step by step.
-/
theorem reflects_run {α β : Type} {n m n' m' : Nat} {w : World α n m} {w' : World β n' m'} (h : w.Fresh)
    (h' : w'.Fresh) (before : List (Fin m × Request α n)) (before' : List (Fin m' × Request β n')) (k : Fin m)
    (k' : Fin m') (hempty : ((w.run before).tree k).isEmpty = true)
    (hempty' : ((w'.run before').tree k').isEmpty = true) {pair : α → β → Prop}
    (helements : LinkedTree.Corresponds pair ((w.run before).tree k) ((w'.run before').tree k'))
    {rs : List (Attempt α)} {rs' : List (Attempt β)} (hrs : List.Forall₂ (Attempt.Opposes pair) rs rs') :
    List.Forall₂
      (LinkedTree.Mirrored (LinkPair pair ((w.run before).trees k).linkOf ((w'.run before').trees k').linkOf))
      (((w.run before).tree k).insertions rs) (((w'.run before').tree k').insertions rs') := by
  obtain ⟨ts, hsound⟩ := sound_run h before
  obtain ⟨us, hsound'⟩ := sound_run h' before'
  have hthreads := (hsound.threads k).of_isEmpty hempty
  have hthreads' := (hsound'.threads k').of_isEmpty hempty'
  have hstart : LinkedTree.Reflections pair ((w.run before).tree k) ((w'.run before').tree k') .empty .empty :=
    ⟨hthreads, hthreads', .empty, helements⟩
  rw [LinkedTree.insertions_eq, LinkedTree.insertions_eq, List.forall₂_map_left_iff, List.forall₂_map_right_iff]
  exact (hstart.attemptAll hrs).imp fun _ _ hmirrored => hmirrored.keeping _ _

/-- The attempts that offer these elements of the world of one tree, each at its place in descending order. -/
def offerTurned {n : Nat} (elements : List (Fin n)) : List (Attempt (Fin n)) :=
  elements.map fun a => ⟨.ofOrdering fun e => (compare a e).swap, (), .ok (some a)⟩

/-- Offering elements in ascending order and offering them in descending order oppose each other. -/
theorem opposes_offerTurned {n : Nat} (elements : List (Fin n)) :
    List.Forall₂ (Attempt.Opposes Eq) (offerEach elements) (offerTurned elements) := by
  rw [offerEach, offerTurned, List.forall₂_map_left_iff, List.forall₂_map_right_iff, List.forall₂_same]
  exact fun a _ => ⟨Comparator.opposes_swap (compare a), .supplied rfl⟩

/-- Three elements of which the last one goes between the others take a double rotation in either run. -/
theorem reflects_run_between :
    (single 3).Fresh ∧ (((single 3).run []).tree 0).isEmpty = true ∧
      LinkedTree.Corresponds Eq (((single 3).run []).tree 0) (((single 3).run []).tree 0) ∧
      List.Forall₂ (Attempt.Opposes Eq) (offerEach [0, 2, 1]) (offerTurned [(0 : Fin 3), 2, 1]) ∧
      ((((single 3).run []).tree 0).attemptAll (offerTurned [0, 2, 1])).flatMap Outcome.log =
        [.inserted 1, .inserted 2, .rotated .double (.finite 0), .inserted 3] ∧
      List.Forall₂ (LinkedTree.Mirrored (LinkPair Eq Fin.succ Fin.succ))
        ((((single 3).run []).tree 0).insertions (offerEach [0, 2, 1]))
        ((((single 3).run []).tree 0).insertions (offerTurned [0, 2, 1])) := by
  have hfresh := fresh_single 3
  have helements := LinkedTree.Corresponds.refl (((single 3).run []).tree 0)
  have hopposes := opposes_offerTurned [(0 : Fin 3), 2, 1]
  exact ⟨hfresh, rfl, helements, hopposes, by decide +kernel,
    reflects_run hfresh hfresh [] [] 0 0 rfl rfl helements hopposes⟩

/-- A tree of two elements that checks itself by their order. -/
def strict : World (Fin 2) 3 1 :=
  (single 2).checking (fun _ => true) fun _ => some compare

/-- In a mirror, it links the second element as well, but its check withholds the result. -/
theorem reflected_withheld :
    strict.Fresh ∧ LinkedTree.Corresponds Eq (strict.tree 0) (strict.tree 0) ∧
      List.Forall₂ (Attempt.Opposes Eq) (offerEach [0, 1]) (offerTurned [(0 : Fin 2), 1]) ∧
      ((strict.tree 0).insertions (offerEach [0, 1])).map Outcome.result =
        [.ok ⟨.on 1, true⟩, .ok ⟨.on 2, true⟩] ∧
      ((strict.tree 0).insertions (offerTurned [0, 1])).map Outcome.result =
        [.ok ⟨.on 1, true⟩, .error (.violation .notIncreasing)] := by
  exact ⟨(fresh_single 2).checking _ _, .refl (strict.tree 0), opposes_offerTurned [0, 1], by decide +kernel,
    by decide +kernel⟩

end World

end BalancedLinks
