import BalancedLinks.Loading
import BalancedLinks.Proofs.Clearing
import BalancedLinks.Proofs.Descent

/-!
# Trees that thread a shape

`LinkedTree.Threads` is the invariant of one tree: its origin carries a balanced shape of owned links of the
tree's tag, every balance is recorded exactly, and the size counts the links. Linking, unlinking and clearing
keep it, whatever the tree's logger, check and order are, and each touches only the origin's child slot, the
links of the shape and the link that joins.

The main statements are `LinkedTree.Threads.linkAt_eq`, `LinkedTree.Threads.eraseLink_eq` and
`LinkedTree.Threads.clear`.
-/

set_option autoImplicit false

namespace BalancedLinks

namespace Links

variable {α : Type} {n : Nat} {g : Links α n}

/-- Hanging a link that hangs nowhere into a vacant place. -/
theorem Carries.hang {o l : LinkId n} {fs : List (Frame n)}
    (h : g.Carries o (.plug fs .empty)) (hlo : l ≠ o) (hl : l ∉ (Shape.plug fs .empty).inorder)
    (hchild : ∀ s, g.child l s = none) :
    (g.hang l (Shape.slotOf o fs).1 (Shape.slotOf o fs).2).Carries o (.plug fs (.node .empty l .empty)) ∧
      Edit g (g.hang l (Shape.slotOf o fs).1 (Shape.slotOf o fs).2) (Shape.slotOf o fs).1
        (Shape.slotOf o fs).2 [l] ∧
      (g.hang l (Shape.slotOf o fs).1 (Shape.slotOf o fs).2).balance l = .level := by
  have haround : l ∉ Shape.around fs := fun hk => hl ((Shape.mem_inorder_plug fs .empty l).mpr (Or.inr hk))
  have hp : (Shape.slotOf o fs).1 ≠ l := by
    intro heq
    rcases Shape.slotOf_mem o fs with hanchor | hanchor
    · exact hlo (heq.symm.trans hanchor)
    · exact haround (heq ▸ hanchor)
  have hedit : Edit g (g.hang l (Shape.slotOf o fs).1 (Shape.slotOf o fs).2) (Shape.slotOf o fs).1
      (Shape.slotOf o fs).2 [l] := by
    refine ⟨by simp [Links.hang], by simp [Links.hang], ?_, ?_, ?_, ?_⟩
    · intro k hkp hk
      have hlk : l ≠ k := fun heq => hk (by simp [heq])
      simp [Links.hang, Ne.symm hkp, hlk]
    · simp [Links.hang, Ne.symm hp]
    · simp [Links.hang, Side.ne_other]
    · simp [Links.hang, Ne.symm hp]
  have hnew : ∀ k ∈ [l], k ≠ o ∧ k ∉ Shape.around fs := by
    intro k hk
    obtain rfl := List.mem_singleton.mp hk
    exact ⟨hlo, haround⟩
  refine ⟨h.edit hedit hnew ?_ (by simp [Shape.inorder]) (by simpa [Shape.inorder] using ⟨hlo, haround⟩),
    hedit, ?_⟩
  · refine ⟨?_, ?_, ?_, ?_⟩
    · simp [Links.hang, slotAt]
    · simp [Links.hang]
    · simp [Links.hang, hp, hchild]
    · simp [Links.hang, hp, hchild]
  · simp [Links.hang]

end Links

namespace LinkedTree

variable {α : Type} {n : Nat} {x y : LinkedTree α n}

/-- Whether a tree threads exactly the links of a shape, and all that it records about them is right. -/
structure Threads (x : LinkedTree α n) (t : Shape n) : Prop where
  carries : x.links.Carries x.origin t
  exact : x.links.Exact t
  balanced : t.Balanced
  owned : x.links.Owned x.tree.tag t
  size : x.tree.size = t.inorder.length
  ownerless : x.links.owner x.origin = none
  level : x.links.balance x.origin = .level

/-! ## Checks -/

section Checking

variable {v : Bool} {order : Option (α → α → Ordering)}

/-- The tree with another check after its changes. -/
def checking (x : LinkedTree α n) (verify : Bool) (order : Option (α → α → Ordering)) : LinkedTree α n :=
  ⟨{ x.tree with verify, order }, x.links⟩

@[simp] theorem checking_checking (x : LinkedTree α n) (v v' : Bool) (order order' : Option (α → α → Ordering)) :
    (x.checking v order).checking v' order' = x.checking v' order' :=
  rfl

@[simp] theorem checking_links (x : LinkedTree α n) : (x.checking v order).links = x.links :=
  rfl

@[simp] theorem checking_origin (x : LinkedTree α n) : (x.checking v order).origin = x.origin :=
  rfl

@[simp] theorem checking_linkOf (x : LinkedTree α n) : (x.checking v order).tree.linkOf = x.tree.linkOf :=
  rfl

@[simp] theorem checking_keeps (x : LinkedTree α n) : (x.checking v order).tree.keeps = x.tree.keeps :=
  rfl

@[simp] theorem checking_refuses? (x : LinkedTree α n) : (x.checking v order).refuses? = x.refuses? :=
  rfl

/-- Which shape a tree threads does not depend on how it checks itself. -/
theorem Threads.checking {t : Shape n} (h : x.Threads t) (v : Bool) (order : Option (α → α → Ordering)) :
    (x.checking v order).Threads t :=
  ⟨h.carries, h.exact, h.balanced, h.owned, h.size, h.ownerless, h.level⟩

end Checking

/-- A check after a change looks and does not touch. -/
theorem checkAfter_state (x : LinkedTree α n) (change : Change) : (x.checkAfter change).state = x := by
  unfold checkAfter
  split_ifs
  · split <;> rfl
  · rfl

/-- A tree that does not check itself goes on as it is. -/
theorem checkAfter_of_not_verify (h : x.tree.verify = false) (change : Change) :
    x.checkAfter change = .pure x () := by
  simp [checkAfter, h]

/-- A link is linked where its place is settled; then the tree reports and checks itself. -/
theorem linkAt_of_settled {l p : LinkId n} {side : Side} {g : Links α n} {log : List Event}
    (h : (x.links.hang l p side).settleGrowth l = ⟨g, log, .ok ()⟩) :
    x.linkAt l p side =
      ⟨x.resized g 1, log ++ .inserted (x.tree.size + 1) :: ((x.resized g 1).checkAfter .insert).log,
        ((x.resized g 1).checkAfter .insert).result.map fun _ => ⟨.on l, true⟩⟩ := by
  have hstate := checkAfter_state (x.resized g 1) .insert
  simp only [resized] at hstate
  simp only [linkAt, resized, h, Outcome.within, Outcome.andThen_ok, Outcome.report, Outcome.map, hstate,
    List.singleton_append]

/-- After a link has been taken out, the tree reports and checks itself. -/
theorem eraseLink_of_unlink {l : LinkId n} {log : List Event} (h : x.unlink l = ⟨y, log, .ok ()⟩) :
    x.eraseLink l =
      ⟨y, log ++ .erased y.tree.size :: (y.checkAfter .erase).log, (y.checkAfter .erase).result⟩ := by
  have hstate := checkAfter_state y .erase
  simp only [eraseLink, h, Outcome.andThen_ok, Outcome.report, hstate, List.singleton_append]

/-- A link may join exactly if it has the tree's tag and an owner and hangs nowhere. -/
theorem refuses?_eq_none_iff (l : LinkId n) :
    x.refuses? l = none ↔
      x.links.tag l = x.tree.tag ∧ (∃ a, x.links.owner l = some a) ∧ x.links.parent l = none ∧
        ∀ s, x.links.child l s = none := by
  have hsides : (∀ s, x.links.child l s = none) ↔
      x.links.child l .left = none ∧ x.links.child l .right = none :=
    ⟨fun h => ⟨h .left, h .right⟩, fun h s => by cases s; exacts [h.1, h.2]⟩
  rw [hsides, refuses?]
  by_cases htag : x.links.tag l = x.tree.tag
  · rw [if_neg (not_not.mpr htag)]
    cases x.links.owner l <;> simp [htag, and_assoc]
  · simp [htag]

namespace Threads

variable {t u : Shape n} {l : LinkId n}

/-- A tree threads the same shape wherever its origin and the links of the shape are the same. -/
theorem congr (h : x.Threads t) (htree : y.tree = x.tree)
    (hget : ∀ k, k = x.origin ∨ k ∈ t.inorder → y.links.get k = x.links.get k) : y.Threads t := by
  have horigin : y.origin = x.origin := by rw [origin, htree, origin]
  have hpart := fun k hk => (Links.get_eq_iff k).mp (hget k hk)
  have ho := hpart x.origin (Or.inl rfl)
  refine ⟨⟨?_, h.carries.nodup, horigin ▸ h.carries.fresh, ?_, ?_⟩, ?_, h.balanced, ?_, ?_, ?_, ?_⟩
  · rw [horigin, ho.2.2.2.1]
    exact h.carries.spans.congr (fun k hk => (hpart k (Or.inr hk)).2.2.1)
      (fun k hk => (hpart k (Or.inr hk)).2.2.2.1)
  · rw [horigin, ho.2.2.1, h.carries.parent]
  · rw [horigin, ho.2.2.2.1, h.carries.right]
  · exact h.exact.congr fun k hk => (hpart k (Or.inr hk)).2.2.2.2
  · intro k hk
    rw [(hpart k (Or.inr hk)).1, (hpart k (Or.inr hk)).2.1, htree]
    exact h.owned k hk
  · rw [htree, h.size]
  · rw [horigin, ho.1, h.ownerless]
  · rw [horigin, ho.2.2.2.2, h.level]

/-- A tree threads one shape at most. -/
theorem unique (h : x.Threads t) (h' : x.Threads u) : t = u :=
  h.carries.spans.unique h'.carries.spans

/-- What a change within a shape leaves of the tree: its links' owners and tags, and the origin. -/
theorem of_edit (h : x.Threads t) {g : Links α n} {ls : List (LinkId n)} {change : Int}
    (hedit : Links.Edit x.links g x.origin .left ls) (hcarries : g.Carries x.origin u) (hexact : g.Exact u)
    (hbalanced : u.Balanced) (howned : x.links.Owned x.tree.tag u)
    (hsize : x.tree.size + change = u.inorder.length) : (x.resized g change).Threads u := by
  refine ⟨hcarries, hexact, hbalanced, ?_, hsize, ?_, ?_⟩
  · intro k hk
    obtain ⟨⟨a, ha⟩, htag⟩ := howned k hk
    exact ⟨⟨a, (hedit.owner k).trans ha⟩, (hedit.tag k).trans htag⟩
  · exact (hedit.owner x.origin).trans h.ownerless
  · exact hedit.balance.trans h.level

/-- An owned link that hangs nowhere is neither the origin nor within the shape. -/
theorem not_mem_of_unlinked (h : x.Threads t) (howner : ∃ a, x.links.owner l = some a)
    (hparent : x.links.parent l = none) : l ≠ x.origin ∧ l ∉ t.inorder := by
  constructor
  · rintro rfl
    obtain ⟨a, ha⟩ := howner
    simp [h.ownerless] at ha
  · intro hmem
    obtain ⟨p, -, -, hp, -⟩ := h.carries.parent_forth hmem
    simp [hparent] at hp

/-! ## Linking -/

/--
Linking a link that may join at a vacant place: the balances are settled, the tree threads the shape grown
there, and what remains to be seen is the check that the tree may ask for.
-/
theorem linkAt_eq {fs : List (Frame n)} (h : x.Threads (.plug fs .empty)) (hl : x.refuses? l = none) :
    ∃ g, x.linkAt l (Shape.slotOf x.origin fs).1 (Shape.slotOf x.origin fs).2 =
        ⟨x.resized g 1, (Shape.grown fs (.node .empty l .empty)).1 ++
            .inserted (x.tree.size + 1) :: ((x.resized g 1).checkAfter .insert).log,
          ((x.resized g 1).checkAfter .insert).result.map fun _ => ⟨.on l, true⟩⟩ ∧
      (x.resized g 1).Threads (Shape.grown fs (.node .empty l .empty)).2 ∧
      Links.Edit x.links g x.origin .left (l :: (Shape.plug fs .empty).inorder) := by
  obtain ⟨htag, ⟨a, ha⟩, hparent, hchild⟩ := (refuses?_eq_none_iff l).mp hl
  obtain ⟨hlo, hlt⟩ := h.not_mem_of_unlinked ⟨a, ha⟩ hparent
  obtain ⟨hc₁, hedit₁, hbalance⟩ := h.carries.hang hlo hlt hchild
  have hleaf : (Shape.plug fs (.node .empty l .empty)).inorder =
      Shape.linksBefore fs ++ l :: Shape.linksAfter fs := by
    simp [Shape.inorder_plug, Shape.inorder]
  have hmem : ∀ k, k ∈ (Shape.plug fs (.node .empty l .empty)).inorder ↔
      k ∈ l :: (Shape.plug fs .empty).inorder := by
    intro k
    simp only [hleaf, Shape.inorder_plug, Shape.inorder, List.mem_append, List.mem_cons, List.append_nil]
    tauto
  obtain ⟨-, hxup⟩ := (Links.exact_plug fs _).mp h.exact
  obtain ⟨-, hbup⟩ := (Shape.balanced_plug fs _).mp h.balanced
  have hxup₁ : (x.links.hang l (Shape.slotOf x.origin fs).1 (Shape.slotOf x.origin fs).2).ExactAbove fs 0 :=
    hxup.congr fun k hk => hedit₁.outside_balance fun hkl => hlt (by
      rw [← List.mem_singleton.mp hkl]
      exact (Shape.mem_inorder_plug fs .empty k).mpr (Or.inr hk))
  obtain ⟨g, hrun, hc₂, hx₂, hedit₂⟩ := Links.settleGrowth_eq hc₁ ⟨hbalance, trivial, trivial⟩ hxup₁ hbup
  have hedit : Links.Edit x.links g x.origin .left (l :: (Shape.plug fs .empty).inorder) :=
    ((hedit₁.widen_place hc₁.fresh (by simp)).trans hedit₂).mono fun k hk => (hmem k).mp hk
  have hinorder := Shape.inorder_grown fs (.node .empty l .empty)
  refine ⟨g, linkAt_of_settled hrun, h.of_edit hedit hc₂ hx₂ ?_ ?_ ?_, hedit⟩
  · exact Shape.balanced_grown (h := 0) (by simp [Shape.height]) (by simp [Shape.Balanced, Shape.tilt])
      (fun _ => rfl) hbup
  · intro k hk
    rw [hinorder, hmem] at hk
    rcases List.mem_cons.mp hk with rfl | hk
    · exact ⟨⟨a, ha⟩, htag⟩
    · exact h.owned k hk
  · rw [h.size, hinorder, Shape.length_inorder_plug, Shape.length_inorder_plug]
    simp only [Shape.inorder, List.nil_append, List.length_cons, List.length_nil]
    omega

/-! ## Unlinking -/

/--
Erasing a link of the tree: it is taken out and as it was before it first joined a tree, the tree threads the
shape shrunk at its place, and what remains to be seen is the check that the tree may ask for.
-/
theorem eraseLink_eq {fs : List (Frame n)} {d : Shape n} (h : x.Threads t) (hplace : t.Exposed l fs d) :
    ∃ g, x.eraseLink l =
        ⟨x.resized g (-1), (Shape.shrunk fs d).1 ++
            .erased (x.tree.size - 1) :: ((x.resized g (-1)).checkAfter .erase).log,
          ((x.resized g (-1)).checkAfter .erase).result⟩ ∧
      (x.resized g (-1)).Threads (Shape.shrunk fs d).2 ∧
      (Shape.shrunk fs d).2.inorder = t.inorder.erase l ∧
      Links.Edit x.links g x.origin .left t.inorder ∧ g.get l = (x.links.get l).pristine := by
  obtain ⟨g, hrun, herase, hb, hc, hx, hedit, hget⟩ := unlink_eq h.carries h.exact h.balanced hplace
  have hinorder := (Shape.inorder_shrunk fs d).trans herase
  refine ⟨g, eraseLink_of_unlink hrun, h.of_edit hedit hc hx hb ?_ ?_, hinorder, hedit, hget⟩
  · intro k hk
    rw [hinorder] at hk
    exact h.owned k (List.mem_of_mem_erase hk)
  · have hl := hplace.mem
    have hpos := List.length_pos_of_mem hl
    rw [h.size, hinorder, List.length_erase_of_mem hl]
    omega

/-! ## Clearing -/

/-- A clearing leaves the tree empty and every link that it had as it was before it first joined a tree. -/
theorem clear (h : x.Threads t) :
    x.clear.Threads .empty ∧ Links.Edit x.links x.clear.links x.origin .left t.inorder ∧
      ∀ k ∈ t.inorder, x.clear.links.get k = (x.links.get k).pristine := by
  obtain ⟨hcarries, hedit, hget⟩ := h.carries.clear
  refine ⟨⟨hcarries, trivial, trivial, ?_, rfl, ?_, ?_⟩, hedit, hget⟩
  · intro k hk
    simp [Shape.inorder] at hk
  · exact (hedit.owner x.origin).trans h.ownerless
  · exact hedit.balance.trans h.level

end Threads

/-! ## Inserting -/

/--
The ways in which an insertion into a tree that threads a shape can end. The search finds a match or fails
with its comparator, and otherwise arrives at a vacant place and asks for an element. None may be supplied, or
one that is refused; else its link is linked there, and the tree checks itself if it is to.
-/
inductive Inserts {σ : Type} (x : LinkedTree α n) (t : Shape n) (c : Comparator σ α) (s₀ : σ)
    (supply : Except String (Option α)) : Insertion σ α n → Prop
  | found {fs : List (Frame n)} {as : List α} {s s' : σ} {a b : Shape n} {l : LinkId n} {e : α}
      (trail : Links.Trail x.links c s₀ fs as s) (place : t = .plug fs (.node a l b))
      (owner : x.links.owner l = some e) (ask : c.ask s e = .ok (.eq, s')) :
      Inserts x t c s₀ supply ⟨.pure x ⟨.on l, false⟩, as ++ [e], 0, s'⟩
  | failed {fs : List (Frame n)} {as : List α} {s : σ} {a b : Shape n} {l : LinkId n} {e : α}
      {message : String} (trail : Links.Trail x.links c s₀ fs as s) (place : t = .plug fs (.node a l b))
      (owner : x.links.owner l = some e) (ask : c.ask s e = .error message) :
      Inserts x t c s₀ supply ⟨.fail x (.callback message), as ++ [e], 0, s⟩
  | unsupplied {fs : List (Frame n)} {as : List α} {s : σ} {message : String}
      (trail : Links.Trail x.links c s₀ fs as s) (place : t = .plug fs .empty)
      (supplied : supply = .error message) :
      Inserts x t c s₀ supply ⟨.fail x (.callback message), as, 1, s⟩
  | declined {fs : List (Frame n)} {as : List α} {s : σ} (trail : Links.Trail x.links c s₀ fs as s)
      (place : t = .plug fs .empty) (supplied : supply = .ok none) :
      Inserts x t c s₀ supply ⟨.pure x ⟨x.endCursor, false⟩, as, 1, s⟩
  | refused {fs : List (Frame n)} {as : List α} {s : σ} {a : α} {cause : Violation}
      (trail : Links.Trail x.links c s₀ fs as s) (place : t = .plug fs .empty)
      (supplied : supply = .ok (some a)) (refusal : x.refuses? (x.tree.linkOf a) = some cause) :
      Inserts x t c s₀ supply ⟨.fail x (.violation cause), as, 1, s⟩
  | linked {fs : List (Frame n)} {as : List α} {s : σ} {a : α} {g : Links α n}
      (trail : Links.Trail x.links c s₀ fs as s) (place : t = .plug fs .empty)
      (supplied : supply = .ok (some a)) (joins : x.refuses? (x.tree.linkOf a) = none)
      (threads : (x.resized g 1).Threads (Shape.grown fs (.node .empty (x.tree.linkOf a) .empty)).2)
      (edit : Links.Edit x.links g x.origin .left (x.tree.linkOf a :: t.inorder)) :
      Inserts x t c s₀ supply
        ⟨⟨x.resized g 1, ((Shape.grown fs (.node .empty (x.tree.linkOf a) .empty)).1 ++
              .inserted (x.tree.size + 1) :: ((x.resized g 1).checkAfter .insert).log).filter x.tree.keeps,
            ((x.resized g 1).checkAfter .insert).result.map fun _ => ⟨.on (x.tree.linkOf a), true⟩⟩,
          as, 1, s⟩

/-- An insertion ends in one of these ways, for any comparator and any supply. -/
theorem Threads.inserts {t : Shape n} {σ : Type} (h : x.Threads t) (c : Comparator σ α) (s : σ)
    (supply : Except String (Option α)) : x.Inserts t c s supply (x.insert c s supply) := by
  have hends := h.carries.search_concludes h.owned c s
  cases hsearch : x.links.search c s x.origin with
  | mk visited ending s' =>
    rw [hsearch] at hends
    cases hends with
    | found htrail hplace howner hask =>
      simp only [insert, hsearch]
      exact .found htrail hplace howner hask
    | failed htrail hplace howner hask =>
      simp only [insert, hsearch]
      exact .failed htrail hplace howner hask
    | vacant htrail hplace =>
      simp only [insert, hsearch, supplyAt]
      rcases supply with message | (_ | a)
      · exact .unsupplied htrail hplace rfl
      · exact .declined htrail hplace rfl
      · cases hrefuse : x.refuses? (x.tree.linkOf a) with
        | some cause =>
          simp only [hrefuse]
          exact .refused htrail hplace rfl hrefuse
        | none =>
          subst hplace
          obtain ⟨g, hrun, hthreads, hedit⟩ := h.linkAt_eq hrefuse
          simp only [hrefuse, hrun, Outcome.keeping]
          exact .linked htrail rfl rfl hrefuse hthreads hedit

/-! ## Loading -/

section Loading

variable {σ : Type} {less : Less σ α} {s : σ} {value : α} {values : List α}

/-- A load ends where linking its first value fails. -/
theorem load_cons_of_error {e : Failure}
    (h : (x.insert (less.comparator value) s (.ok (some value))).outcome.result = .error e) :
    x.load less s (value :: values) =
      ⟨(x.insert (less.comparator value) s (.ok (some value))).outcome.state,
        (x.insert (less.comparator value) s (.ok (some value))).outcome.log, .error e⟩ := by
  simp only [load, Outcome.andThen, h]

/-- A load goes on with its other values after the first one has been linked, or dropped. -/
theorem load_cons_of_ok {r : Insertion σ α n} {placement : Placement n}
    (hr : x.insert (less.comparator value) s (.ok (some value)) = r) (h : r.outcome.result = .ok placement) :
    x.load less s (value :: values) =
      ⟨(r.outcome.state.load less r.state values).state,
        r.outcome.log ++ (r.outcome.state.load less r.state values).log,
        (r.outcome.state.load less r.state values).result.map
          fun count => if placement.inserted then count + 1 else count⟩ := by
  subst hr
  simp only [load, Outcome.andThen, h, Outcome.map]

end Loading

/-! ## Settings -/

/-- What holds of the state after the first part, and is kept by what follows, holds in the end. -/
theorem andThen_invariant {σ ε β γ : Type} {P : σ → Prop} {o : Outcome σ ε β}
    {next : σ → β → Outcome σ ε γ} (h : P o.state) (hnext : ∀ s b, P s → P (next s b).state) :
    P (o.andThen next).state := by
  unfold Outcome.andThen
  split
  · exact h
  · exact hnext _ _ h

/-- Whether two trees were made with the same tag, selector, origin, logger and check. -/
def Alike (x y : LinkedTree α n) : Prop :=
  { x.tree with size := y.tree.size } = y.tree

/-- A tree is made like itself. -/
theorem Alike.refl (x : LinkedTree α n) : x.Alike x :=
  rfl

/-- A tree made like another is made like all that the other is made like. -/
theorem Alike.trans {x y z : LinkedTree α n} (h : x.Alike y) (h' : y.Alike z) : x.Alike z := by
  unfold Alike at *
  rw [← h', ← h]

/-- Two trees are made like each other. -/
theorem Alike.symm {x y : LinkedTree α n} (h : x.Alike y) : y.Alike x := by
  unfold Alike at *
  rw [← h]

/-- Trees made alike have one tag. -/
theorem Alike.tag_eq {x y : LinkedTree α n} (h : x.Alike y) : y.tree.tag = x.tree.tag := by
  rw [← h]

/-- Trees made alike have one origin. -/
theorem Alike.origin_eq {x y : LinkedTree α n} (h : x.Alike y) : y.origin = x.origin := by
  rw [origin, ← h, origin]

/-- Trees made alike have one selector. -/
theorem Alike.linkOf_eq {x y : LinkedTree α n} (h : x.Alike y) : y.tree.linkOf = x.tree.linkOf := by
  rw [← h]

/-- Trees made alike both check themselves, or neither does. -/
theorem Alike.verify_eq {x y : LinkedTree α n} (h : x.Alike y) : y.tree.verify = x.tree.verify := by
  rw [← h]

/-- The loggers of trees made alike keep the same reports. -/
theorem Alike.keeps_eq {x y : LinkedTree α n} (h : x.Alike y) : y.tree.keeps = x.tree.keeps := by
  rw [← h]
  rfl

/-- A tree is made alike with other links and another size. -/
theorem Alike.resized {x y : LinkedTree α n} (h : x.Alike y) (g : Links α n) (change : Int) :
    x.Alike (y.resized g change) := by
  unfold Alike LinkedTree.resized at *
  rw [← h]

/-- A check changes no setting. -/
theorem Alike.checkAfter {x y : LinkedTree α n} (h : x.Alike y) (change : Change) :
    x.Alike (y.checkAfter change).state := by
  rwa [checkAfter_state]

/-- An insertion changes no setting of the tree. -/
theorem insert_alike {σ : Type} (x : LinkedTree α n) (c : Comparator σ α) (s : σ)
    (supply : Except String (Option α)) : x.Alike (x.insert c s supply).outcome.state := by
  have hlink : ∀ l p side, x.Alike (x.linkAt l p side).state := fun l p side =>
    andThen_invariant ((Alike.refl x).resized _ 1) fun y _ hy =>
      andThen_invariant hy fun z _ hz => hz.checkAfter .insert
  simp only [insert]
  split
  · exact Alike.refl x
  · exact Alike.refl x
  · exact Alike.refl x
  · simp only [supplyAt, Outcome.keeping]
    split
    · exact Alike.refl x
    · exact Alike.refl x
    · split
      · exact Alike.refl x
      · exact hlink _ _ _

/-- Taking a link out changes no setting of the tree. -/
theorem unlink_alike (x : LinkedTree α n) (l : LinkId n) : x.Alike (x.unlink l).state := by
  unfold unlink
  split
  · exact Alike.refl x
  · split
    · exact Alike.refl x
    · exact (Alike.refl x).resized _ (-1)

/-- An erasure changes no setting of the tree. -/
theorem erase_alike (x : LinkedTree α n) (target : Target α n) : x.Alike (x.erase target).state := by
  unfold erase
  split
  · exact Alike.refl x
  · split
    · exact Alike.refl x
    · exact andThen_invariant (x.unlink_alike _) fun y _ hy =>
        andThen_invariant hy fun z _ hz => hz.checkAfter .erase

/-- A load changes no setting of the tree. -/
theorem load_alike {σ : Type} (x : LinkedTree α n) (less : Less σ α) (s : σ) (values : List α) :
    x.Alike (x.load less s values).state := by
  induction values generalizing x s with
  | nil => exact Alike.refl x
  | cons value values ih =>
    exact andThen_invariant (x.insert_alike _ s _) fun y _ hy => hy.trans (ih y _)

end LinkedTree

end BalancedLinks
