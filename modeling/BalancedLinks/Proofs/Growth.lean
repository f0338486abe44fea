import BalancedLinks.Proofs.Cascade
import BalancedLinks.Proofs.Withdrawal

/-!
# Growth by an insertion

An insertion that links an element makes one place of the shape grow by one, and the way up from there ends at the
latest at the first link that was not level. If that link was lighter towards the place, it becomes level; if it was
heavier, it is repaired, and the repair brings back its height, since its heavy child has just grown and is not level.
So there is one repair at most, and the whole tree grows exactly where the whole way up was level.

The main statements are `Shape.growth`, the three ways in which the way up can end, and `World.grows_run`.
-/

set_option autoImplicit false

namespace BalancedLinks

namespace Shape

variable {n : Nat}

/-! ## The way up -/

/-- Whether every link above a place is level when the place has the given height. -/
def LevelAbove : List (Frame n) → Nat → Prop
  | [], _ => True
  | f :: fs, h => f.leadOver h = 0 ∧ LevelAbove fs (f.heightOver h)

/-- The heights above a place add up along a way that is cut in two. -/
theorem heightAbove_append (fs gs : List (Frame n)) (h : Nat) :
    heightAbove (fs ++ gs) h = heightAbove gs (heightAbove fs h) := by
  induction fs generalizing h with
  | nil => rfl
  | cons f fs ih => exact ih (f.heightOver h)

/-- A repair that brings back the height of a link leaves a level link on top. -/
theorem tilt_mended_of_growth {f : Frame n} {t : Shape n} {h : Nat} (hheight : t.height = h + 1) (ht : t.Balanced)
    (hrest : f.rest.Balanced) (hlead : (f.fill t).lead f.side = 2)
    (hmended : (f.fill t).mended.2.height = f.heightOver h) : (f.fill t).mended.2.tilt = 0 := by
  have hsame := hlead
  rw [Frame.lead_fill, Frame.leadOver] at hsame
  rw [Frame.heightOver] at hmended
  rcases eq_empty_or_fork f.side t with rfl | ⟨a, p, b, rfl⟩
  · simp only [height] at hheight
    omega
  · obtain ⟨-, hlevel, htilted⟩ := balanced_mended (l := f.link) (c := f.rest) hlead ht hrest
    by_cases hchild : (fork f.side a p b).tilt = 0
    · have htall := (hlevel hchild).1
      rw [← Frame.fill, Frame.height_fill, Frame.heightOver] at htall
      omega
    · exact (htilted hchild).2

/--
The ways in which the way up from a place that grew by one, from the given height, can end. Every link was level, and
the whole shape has grown; or the first link that was not level has become level; or that link has been repaired.
-/
inductive Growth (fs : List (Frame n)) (h : Nat) (t : Shape n) : List Event × Shape n → Prop
  | risen (level : LevelAbove fs h) (height : (plug fs t).height = heightAbove fs h + 1) :
      Growth fs h t ([], plug fs t)
  | leveled (tilted : ¬ LevelAbove fs h) (height : (plug fs t).height = heightAbove fs h) :
      Growth fs h t ([], plug fs t)
  | repaired (below above : List (Frame n)) {f : Frame n} {kind : RotationKind} {u : Shape n}
      (tilted : ¬ LevelAbove fs h) (frames : fs = below ++ f :: above)
      (mended : (f.fill (plug below t)).mended = (kind, u))
      (level : u.tilt = 0) (height : u.height = heightAbove (below ++ [f]) h) :
      Growth fs h t ([.ofRepair (kind, 0)], plug above u)

/-- The way up from a place that grew by one ends in one of these ways. -/
theorem growth {fs : List (Frame n)} {t : Shape n} {h : Nat} (hheight : t.height = h + 1) (ht : t.Balanced)
    (hlevel : t.tilt = 0 → h = 0) (hfs : BalancedAbove fs h) : Growth fs h t (grown fs t) := by
  induction fs generalizing t h with
  | nil => exact .risen trivial hheight
  | cons f fs ih =>
    obtain ⟨hlead, hrest, hfs⟩ := hfs
    obtain ⟨hzero, htwo, hone⟩ := fill_of_growth hheight ht hlevel hlead hrest
    have hsize := natAbs_lead f.side (f.fill t)
    have hgrew : (f.fill t).lead f.side = f.leadOver h + 1 := by
      rw [Frame.lead_fill, Frame.leadOver, Frame.leadOver, hheight]
      omega
    simp only [grown]
    split_ifs with h0 h2
    -- the link becomes level, so that it was not before
    · refine .leveled (fun hall => ?_) ?_
      · have hlevelled := hall.1
        omega
      · rw [plug_cons, height_plug, (hzero h0).1, heightAbove]
    -- the link is repaired
    · obtain ⟨hdouble, hsame, -⟩ := htwo h2
      have htilt := tilt_mended_of_growth hheight ht hrest hdouble hsame
      have hevent : (f.fill t).mendedEvent = .ofRepair ((f.fill t).mended.1, 0) := by
        rw [mendedEvent, htilt]
        rfl
      rw [hevent]
      refine .repaired [] fs (fun hall => ?_) rfl rfl htilt hsame
      have hlevelled := hall.1
      omega
    -- the link was level and has grown as well
    · have hlevelled : f.leadOver h = 0 := by omega
      obtain ⟨hhigher, hbalanced⟩ := hone h0 h2
      have hrest := ih hhigher hbalanced (fun htilt => absurd htilt h0) hfs
      generalize grown fs (f.fill t) = r at hrest
      cases hrest with
      | risen level height => exact .risen ⟨hlevelled, level⟩ height
      | leveled tilted height => exact .leveled (fun hall => tilted hall.2) height
      | repaired below above tilted frames mended level height =>
        exact .repaired (f :: below) above (fun hall => tilted hall.2) (by rw [frames]; rfl) mended level height

/-- The links of a shape that a leaf has grown in are that leaf and the links before. -/
theorem mem_inorder_grown_leaf (fs : List (Frame n)) (l i : LinkId n) :
    i ∈ (grown fs (.node .empty l .empty)).2.inorder ↔ i = l ∨ i ∈ (plug fs .empty).inorder := by
  rw [inorder_grown_leaf, inorder_plug_empty, List.mem_append, List.mem_append, List.mem_cons]
  tauto

/-- The whole shape grows, without a repair, where all links were level, and else is as high as before. -/
theorem Growth.height_eq {fs : List (Frame n)} {t u : Shape n} {h : Nat} {es : List Event}
    (hgrowth : Growth fs h t (es, u)) :
    (LevelAbove fs h → es = [] ∧ u.height = heightAbove fs h + 1) ∧
      (¬ LevelAbove fs h → u.height = heightAbove fs h) := by
  cases hgrowth with
  | risen level height => exact ⟨fun _ => ⟨rfl, height⟩, fun tilted => absurd level tilted⟩
  | leveled tilted height => exact ⟨fun level => absurd level tilted, fun _ => height⟩
  | @repaired below above f _ u tilted frames _ _ height =>
    refine ⟨fun level => absurd level tilted, fun _ => ?_⟩
    rw [height_plug, height, frames, ← heightAbove_append, List.append_assoc, List.singleton_append]

/-- What is reported is one repair at most, which brings back the height of the subshape that it mends. -/
theorem Growth.exists_repair {fs : List (Frame n)} {t u : Shape n} {h : Nat} {es : List Event}
    (hgrowth : Growth fs h t (es, u)) :
    ∃ repair : Option RotationKind, es = (repair.map fun kind => .ofRepair (kind, 0)).toList ∧
      (repair = none → u = plug fs t) ∧
      ∀ kind, repair = some kind → ∃ below f above v, fs = below ++ f :: above ∧
        (f.fill (plug below t)).mended = (kind, v) ∧ u = plug above v ∧ v.height = heightAbove (below ++ [f]) h := by
  cases hgrowth with
  | risen | leveled => exact ⟨none, rfl, fun _ => rfl, nofun⟩
  | @repaired below above f kind v _ frames mended _ height =>
    refine ⟨some kind, rfl, nofun, ?_⟩
    rintro _ ⟨⟩
    exact ⟨below, f, above, v, frames, mended, rfl, height⟩

end Shape

/-! ## Balances -/

namespace Links

variable {α : Type} {n : Nat} {g g' : Links α n}

/-- Above a place, too, exact balances are the same where the place has one height. -/
theorem ExactAbove.balance_eq {fs : List (Frame n)} {h : Nat} (hx : g.ExactAbove fs h) (hx' : g'.ExactAbove fs h)
    {l : LinkId n} (hl : l ∈ Shape.around fs) : g'.balance l = g.balance l := by
  induction fs generalizing h with
  | nil => simp [Shape.around, Shape.linksBefore, Shape.linksAfter] at hl
  | cons f fs ih =>
    rcases (Shape.mem_around_cons f fs l).mp hl with rfl | hl | hl
    · exact hx'.1.trans hx.1.symm
    · exact hx.2.1.balance_eq hx'.2.1 hl
    · exact ih hx.2.2 hx'.2.2 hl

/-- The links above a place are level exactly if they are recorded so. -/
theorem ExactAbove.levelAbove_iff {fs : List (Frame n)} {h : Nat} (hx : g.ExactAbove fs h) :
    Shape.LevelAbove fs h ↔ ∀ f ∈ fs, g.balance f.link = .level := by
  induction fs generalizing h with
  | nil => simp [Shape.LevelAbove]
  | cons f fs ih =>
    obtain ⟨hbalance, -, hfs⟩ := hx
    have hlead : f.leadOver h = 0 ↔ f.tiltOver h = 0 := by
      unfold Frame.tiltOver
      cases f.side <;> simp
    rw [List.forall_mem_cons, Shape.LevelAbove, ih hfs, hbalance, Balance.finite_eq_level_iff, hlead]

end Links

/-! ## Attempts -/

/-- An outcome of which everything is kept. -/
theorem Outcome.keeping_eq_self {σ ε β : Type} {keep : ε → Bool} (h : ∀ e, keep e = true) (o : Outcome σ ε β) :
    o.keeping keep = o := by
  rw [Outcome.keeping, List.filter_eq_self.mpr fun e _ => h e]

/-- What the caller hands to one insertion: the comparator with its state, and what is supplied on a miss. -/
structure Attempt (α : Type) : Type 1 where
  {σ : Type}
  comparator : Comparator σ α
  state : σ
  supply : Except String (Option α)

namespace LinkedTree

variable {α : Type} {n : Nat} {x : LinkedTree α n}

/-- What an insertion comes to, with all that it reports, kept by the logger or not. -/
def attempt (x : LinkedTree α n) (r : Attempt α) : Outcome (LinkedTree α n) Event (Placement n) :=
  match (x.links.search r.comparator r.state x.origin).ending with
  | .found l => .pure x ⟨.on l, false⟩
  | .ownerless => .fail x (.violation .originBelowRoot)
  | .failed failure => .fail x failure
  | .vacant parent side => x.supplyAt r.supply parent side

/-- Of what an insertion reports, its outcome has what the logger keeps. -/
theorem insert_outcome {σ : Type} (x : LinkedTree α n) (c : Comparator σ α) (s : σ)
    (supply : Except String (Option α)) :
    (x.insert c s supply).outcome = (x.attempt ⟨c, s, supply⟩).keeping x.tree.keeps := by
  simp only [insert, attempt]
  split <;> simp_all

/-- What insertions come to, one after the other, with all that they report. -/
def attemptAll (x : LinkedTree α n) : List (Attempt α) → List (Outcome (LinkedTree α n) Event (Placement n))
  | [] => []
  | r :: rs => x.attempt r :: (x.attempt r).state.attemptAll rs

/-- The outcomes of insertions, one after the other. -/
def insertions (x : LinkedTree α n) : List (Attempt α) → List (Outcome (LinkedTree α n) Event (Placement n))
  | [] => []
  | r :: rs =>
    (x.insert r.comparator r.state r.supply).outcome ::
      (x.insert r.comparator r.state r.supply).outcome.state.insertions rs

/-- The tree after insertions, one after the other. -/
def afterInsertions (x : LinkedTree α n) (rs : List (Attempt α)) : LinkedTree α n :=
  rs.foldl (fun x r => (x.insert r.comparator r.state r.supply).outcome.state) x

/-- Attempts are made one after the other, each in the tree that the last one left. -/
theorem afterInsertions_cons (x : LinkedTree α n) (r : Attempt α) (rs : List (Attempt α)) :
    x.afterInsertions (r :: rs) = (x.attempt r).state.afterInsertions rs := by
  simp only [afterInsertions, List.foldl_cons, insert_outcome]
  rfl

/-- Of what insertions report, their outcomes have what the logger keeps. -/
theorem insertions_eq (x : LinkedTree α n) (rs : List (Attempt α)) :
    x.insertions rs = (x.attemptAll rs).map fun o => o.keeping x.tree.keeps := by
  induction rs generalizing x with
  | nil => rfl
  | cons r rs ih =>
    have hkeeps := (x.insert_alike r.comparator r.state r.supply).keeps_eq
    have hstate : (x.insert r.comparator r.state r.supply).outcome.state = (x.attempt r).state := by
      rw [insert_outcome]
      rfl
    rw [hstate] at hkeeps
    rw [insertions, attemptAll, List.map_cons, hstate, ih, hkeeps, insert_outcome]

namespace Threads

variable {fs : List (Frame n)} {r : Attempt α} {as : List α} {s : r.σ} {a : α}

/-- An insertion that arrives at a vacant place with an element that may join links it there. -/
theorem attempt_linked (h : x.Threads (.plug fs .empty)) (htrail : Links.Trail x.links r.comparator r.state fs as s)
    (hsupply : r.supply = .ok (some a)) (hjoins : x.refuses? (x.tree.linkOf a) = none) :
    ∃ g, x.attempt r = ⟨x.resized g 1, (Shape.grown fs (.node .empty (x.tree.linkOf a) .empty)).1 ++
            .inserted (x.tree.size + 1) :: ((x.resized g 1).checkAfter .insert).log,
          ((x.resized g 1).checkAfter .insert).result.map fun _ => ⟨.on (x.tree.linkOf a), true⟩⟩ ∧
      (x.resized g 1).Threads (Shape.grown fs (.node .empty (x.tree.linkOf a) .empty)).2 ∧
      Links.Edit x.links g x.origin .left (x.tree.linkOf a :: (Shape.plug fs .empty).inorder) := by
  have hsearch := h.carries.search_vacant htrail
  obtain ⟨g, hrun, hthreads, hedit⟩ := h.linkAt_eq hjoins
  refine ⟨g, ?_, hthreads, hedit⟩
  simp only [attempt, hsearch, supplyAt, hsupply, hjoins, hrun]

/-- A tree of size zero threads nothing. -/
theorem of_isEmpty {t : Shape n} (h : x.Threads t) (hempty : x.isEmpty = true) : x.Threads .empty := by
  have hsize := h.size
  rw [isEmpty, beq_iff_eq] at hempty
  cases t with
  | empty => exact h
  | node a l b =>
    rw [hempty, Shape.inorder, List.length_append, List.length_cons] at hsize
    omega

/-- The check after an insertion passes with no more to report, or is reported and is the result. -/
theorem checkAfter_cases {t : Shape n} (h : x.Threads t) (change : Change) :
    ∃ objection : Option Violation,
      (x.checkAfter change).log = (objection.map fun cause => .violated change cause).toList ∧
        (x.checkAfter change).result = objection.elim (.ok ()) fun cause => .error (.violation cause) := by
  by_cases hobjects : x.Objects t.inorder
  · have hcheck := h.checkAfter_of_disordered hobjects.2 change
    have hself : x.checking true x.tree.order = x := by
      rw [← hobjects.1]
      rfl
    rw [hself] at hcheck
    exact ⟨some .notIncreasing, by rw [hcheck]; rfl, by rw [hcheck]; rfl⟩
  · rw [h.checkAfter_of_not_objects hobjects change]
    exact ⟨none, rfl, rfl⟩

end Threads

/-! ## Reports -/

/--
How an insertion links an element at the end of the way `fs` through a shape, and how it is reported to a logger that
keeps everything. There is a line for the repair, if there is one, which leaves a level link on top; a line with the
new size; and a line for what the tree's own check objects to, if it does. A repair changes the subtree that has grown
and keeps its height, so that the tree is as high as before and no balance above that subtree has changed. The tree
becomes higher, by one, exactly if all links on the way were level, and there is no repair then.
-/
structure ReportsInsertion (x : LinkedTree α n) (t : Shape n) (l : LinkId n) (fs : List (Frame n))
    (repair : Option RotationKind) (objection : Option Violation) (u : Shape n)
    (o : Outcome (LinkedTree α n) Event (Placement n)) : Prop where
  place : t = .plug fs .empty
  threads : o.state.Threads u
  order : u.inorder = Shape.linksBefore fs ++ l :: Shape.linksAfter fs
  verified : o.state.verify none = .ok u.height
  log : o.log = (repair.map fun kind => .rotated kind (.finite 0)).toList ++
    .inserted (x.tree.size + 1) :: (objection.map fun cause => .violated .insert cause).toList
  lines : o.log.map Event.line =
    (repair.map fun kind =>
      { level := .trace
        fields := [("rotation", .text kind.name), ("balance", .balance (.finite 0))]
        message := "AVL rotation" }).toList ++
    { level := .trace, fields := [("size", .integer (x.tree.size + 1))], message := "AVL insert" } ::
    (objection.map fun cause =>
      { level := .error
        fields := [("operation", .text "findOrInsert"), ("reason", .text cause.message)]
        message := "AVL invariant violated" }).toList
  result : o.result = objection.elim (.ok ⟨.on l, true⟩) fun cause => .error (.violation cause)
  unrepaired : repair = none → u = .plug fs (.node .empty l .empty)
  repaired : ∀ kind, repair = some kind → u.height = t.height ∧
    ∃ below f above v, fs = below ++ f :: above ∧
      (f.fill (.plug below (.node .empty l .empty))).mended = (kind, v) ∧ u = .plug above v ∧
      ∀ i ∈ Shape.around above, o.state.links.balance i = x.links.balance i
  raised_iff : u.height = t.height + 1 ↔ ∀ f ∈ fs, x.links.balance f.link = .level
  level : (∀ f ∈ fs, x.links.balance f.link = .level) → repair = none
  height : u.height = t.height ∨ u.height = t.height + 1

/-- Above a place where one subshape has taken the place of another of its height, no balance has changed. -/
theorem Threads.balance_above {y : LinkedTree α n} {fs : List (Frame n)} {t u : Shape n} (h : x.Threads (.plug fs t))
    (h' : y.Threads (.plug fs u)) (hheight : u.height = t.height) {l : LinkId n} (hl : l ∈ Shape.around fs) :
    y.links.balance l = x.links.balance l := by
  have hexact := ((Links.exact_plug fs t).mp h.exact).2
  have hexact' := ((Links.exact_plug fs u).mp h'.exact).2
  rw [hheight] at hexact'
  exact hexact.balance_eq hexact' hl

/-- An insertion that links an element is reported in this way, where everything is kept. -/
theorem Threads.reportsInsertion {fs : List (Frame n)} {r : Attempt α} {as : List α} {s : r.σ} {a : α}
    (h : x.Threads (.plug fs .empty)) (htrail : Links.Trail x.links r.comparator r.state fs as s)
    (hsupply : r.supply = .ok (some a)) (hjoins : x.refuses? (x.tree.linkOf a) = none) :
    ∃ repair objection u,
      x.ReportsInsertion (.plug fs .empty) (x.tree.linkOf a) fs repair objection u (x.attempt r) := by
  obtain ⟨g, hrun, hthreads, -⟩ := h.attempt_linked htrail hsupply hjoins
  obtain ⟨objection, hlog, hresult⟩ := hthreads.checkAfter_cases .insert
  obtain ⟨-, hbalanced⟩ := (Shape.balanced_plug fs _).mp h.balanced
  have hexact : x.links.ExactAbove fs 0 := ((Links.exact_plug fs .empty).mp h.exact).2
  have horder := Shape.inorder_grown_leaf fs (x.tree.linkOf a)
  have hgrowth : Shape.Growth fs 0 (.node .empty (x.tree.linkOf a) .empty) _ :=
    Shape.growth (by simp [Shape.height]) (by simp [Shape.Balanced, Shape.tilt]) (fun _ => rfl) hbalanced
  have hbefore : (Shape.plug fs .empty).height = Shape.heightAbove fs 0 := Shape.height_plug fs .empty
  have hafter : (((x.resized g 1).checkAfter .insert).result.map fun _ => ⟨.on (x.tree.linkOf a), true⟩) =
      objection.elim (.ok ⟨.on (x.tree.linkOf a), true⟩) fun cause =>
        (.error (.violation cause) : Except Failure (Placement n)) := by
    rw [hresult]
    cases objection <;> rfl
  rw [hrun, hlog, hafter]
  generalize Shape.grown fs (.node .empty (x.tree.linkOf a) .empty) = grown at hgrowth hthreads horder
  obtain ⟨es, u⟩ := grown
  obtain ⟨hlevel, htilted⟩ := hgrowth.height_eq
  obtain ⟨repair, rfl, hunrepaired, hrepaired⟩ := hgrowth.exists_repair
  rw [hexact.levelAbove_iff, ← hbefore] at hlevel htilted
  refine ⟨repair, objection, u, rfl, hthreads, horder, hthreads.verify_eq_ok (by simp), rfl, ?lines, rfl,
    hunrepaired, ?repaired, ?raised_iff, ?level, ?height⟩
  case lines => cases repair <;> cases objection <;> rfl
  case repaired =>
    intro kind hkind
    obtain ⟨below, f, above, v, hframes, hmended, hplug, hheight⟩ := hrepaired kind hkind
    have hsame : u.height = (Shape.plug fs .empty).height :=
      htilted fun hall => by simpa [hkind] using (hlevel hall).1
    have hsplit : Shape.plug fs .empty = Shape.plug above (Shape.plug (below ++ [f]) .empty) := by
      rw [← Shape.plug_append, hframes, List.append_assoc, List.singleton_append]
    have hheight' : v.height = (Shape.plug (below ++ [f]) .empty).height := by
      rw [hheight, Shape.height_plug, Shape.height]
    exact ⟨hsame, below, f, above, v, hframes, hmended, hplug,
      fun i hi => (hsplit ▸ h).balance_above (hplug ▸ hthreads) hheight' hi⟩
  case raised_iff =>
    constructor
    · intro hraised
      by_contra htilt
      have hsame := htilted htilt
      omega
    · exact fun hall => (hlevel hall).2
  case level =>
    intro hall
    simpa using (hlevel hall).1
  case height =>
    by_cases hall : ∀ f ∈ fs, x.links.balance f.link = .level
    · exact Or.inr (hlevel hall).2
    · exact Or.inl (htilted hall)

end LinkedTree

namespace World

variable {α : Type} {n m : Nat} {w : World α n m} {ts : Fin m → Shape n} {k : Fin m}

/-- After any requests, a tree whose logger keeps traces keeps everything. -/
theorem keeps_run (w : World α n m) (rs : List (Fin m × Request α n)) (hlogger : (w.trees k).logger = some .trace)
    (e : Event) : ((w.run rs).tree k).tree.keeps e = true := by
  have hsame : ((w.run rs).tree k).tree.keeps = (w.trees k).keeps := (w.run_alike rs k).keeps_eq
  rw [hsame, Tree.keeps, hlogger]
  cases e <;> rfl

/-- A link that a tree owns after an insertion only is that of the element supplied, for a vacant place on the way. -/
theorem Sound.linked_of_owns {σ : Type} {c : Comparator σ α} {s : σ} {supply : Except String (Option α)}
    {l : LinkId n} (h : w.Sound ts) (hout : (w.tree k).owns l = .ok false)
    (hin : ((w.tree k).insert c s supply).outcome.state.owns l = .ok true) :
    ∃ fs as s' a, w.links.Trail c s fs as s' ∧ ts k = .plug fs .empty ∧ supply = .ok (some a) ∧
      (w.trees k).linkOf a = l ∧ (w.tree k).refuses? l = none := by
  obtain ⟨u, hm⟩ := h.insert_moves k c s supply
  have howns := (hm.sound h).owns_eq k l
  have hends := (h.threads k).inserts c s supply
  rw [tree_put_self, Function.update_self, hin] at howns
  have hmem : l ∈ u.inorder := of_decide_eq_true (Except.ok.inj howns).symm
  have hnot : l ∉ (ts k).inorder := of_decide_eq_false (Except.ok.inj ((h.owns_eq k l).symm.trans hout))
  generalize (w.tree k).insert c s supply = r at hends hm
  cases hends with
  | @linked fs as s' a g htrail hplace hsupply hjoins hthreads hedit =>
    obtain rfl := hm.threads.unique hthreads
    obtain rfl : (w.trees k).linkOf a = l := by
      rw [hplace, Shape.inorder_plug_empty, List.mem_append] at hnot
      rw [Shape.inorder_grown_leaf, List.mem_append, List.mem_cons] at hmem
      exact (hmem.resolve_left fun hl => hnot (Or.inl hl)).resolve_right (fun hl => hnot (Or.inr hl)) |>.symm
    exact ⟨fs, as, s', a, htrail, hplace, hsupply, rfl, hjoins⟩
  | _ => exact absurd (((h.threads k).unique hm.threads) ▸ hmem) hnot

/--
After any requests to the trees of a fresh world, with any comparators, every insertion by which a tree whose logger
keeps traces comes to own a link reports one repair at most, and the tree grows exactly if the way to the vacant place
that the search found was level.
-/
theorem grows_run {w : World α n m} (h : w.Fresh) (rs : List (Fin m × Request α n)) (k : Fin m)
    (hlogger : (w.trees k).logger = some .trace) :
    ∃ t, ((w.run rs).tree k).Threads t ∧ ((w.run rs).tree k).verify none = .ok t.height ∧
      ∀ {σ : Type} (c : Comparator σ α) (s : σ) (supply : Except String (Option α)) (l : LinkId n),
        ((w.run rs).tree k).owns l = .ok false →
        (((w.run rs).tree k).insert c s supply).outcome.state.owns l = .ok true →
        ∃ fs repair objection u,
          ((w.run rs).links.search c s (w.trees k).origin).ending =
            .vacant (Shape.slotOf (w.trees k).origin fs).1 (Shape.slotOf (w.trees k).origin fs).2 ∧
          ((w.run rs).tree k).ReportsInsertion t l fs repair objection u
            (((w.run rs).tree k).insert c s supply).outcome := by
  obtain ⟨ts, hsound⟩ := sound_run h rs
  have hthreads := hsound.threads k
  refine ⟨ts k, hthreads, hthreads.verify_eq_ok (by simp), fun c s supply l hout hin => ?_⟩
  obtain ⟨fs, as, s', a, htrail, hplace, hsupply, rfl, hjoins⟩ := hsound.linked_of_owns hout hin
  rw [hplace] at hthreads ⊢
  have hsearch := hthreads.carries.search_vacant htrail
  have horigin : ((w.run rs).tree k).origin = (w.trees k).origin := (w.run_alike rs k).origin_eq
  obtain ⟨repair, objection, u, hreports⟩ :=
    hthreads.reportsInsertion (r := ⟨c, s, supply⟩) htrail hsupply hjoins
  rw [horigin] at hsearch
  refine ⟨fs, repair, objection, u, congrArg Search.ending hsearch, ?_⟩
  rw [LinkedTree.insert_outcome, Outcome.keeping_eq_self (w.keeps_run rs hlogger)]
  exact hreports

/-- The attempts that offer these elements of the world of one tree, each at its place in ascending order. -/
def offerEach {n : Nat} (elements : List (Fin n)) : List (Attempt (Fin n)) :=
  elements.map fun a => ⟨.ofOrdering (compare a), (), .ok (some a)⟩

/--
Inserting an element between two of which the larger one is below the smaller one takes a double rotation, and the
tree stays as high as it was.
-/
theorem grows_run_between :
    traced.Fresh ∧ (traced.trees 0).logger = some .trace ∧ (traced.afterEach [0, 2]).verify none = .ok 2 ∧
      (traced.afterEach [0, 2]).owns 2 = .ok false ∧
      ((traced.afterEach [0, 2]).insert (.ofOrdering (compare 1)) () (.ok (some 1))).outcome.state.owns 2 =
        .ok true ∧
      ((traced.afterEach [0, 2]).insert (.ofOrdering (compare 1)) () (.ok (some 1))).outcome.log =
        [.rotated .double (.finite 0), .inserted 3] ∧
      ∃ t fs objection u, t.height = 2 ∧ u.height = 2 ∧
        (traced.afterEach [0, 2]).ReportsInsertion t 2 fs (some .double) objection u
          ((traced.afterEach [0, 2]).insert (.ofOrdering (compare 1)) () (.ok (some 1))).outcome := by
  have hsingle := fresh_single 12
  have hfresh : traced.Fresh := ⟨hsingle.pristine, hsingle.ownerless, hsingle.origins, hsingle.size⟩
  have hheight : (traced.afterEach [0, 2]).verify none = .ok 2 := by decide +kernel
  have hout : (traced.afterEach [0, 2]).owns 2 = .ok false := by decide +kernel
  have hin : ((traced.afterEach [0, 2]).insert (.ofOrdering (compare 1)) () (.ok (some 1))).outcome.state.owns 2 =
      .ok true := by
    decide +kernel
  have hlog : ((traced.afterEach [0, 2]).insert (.ofOrdering (compare 1)) () (.ok (some 1))).outcome.log =
      [.rotated .double (.finite 0), .inserted 3] := by
    decide +kernel
  obtain ⟨t, -, hverify, hgrows⟩ := grows_run hfresh (insertEach [0, 2]) 0 rfl
  have htwo : t.height = 2 := Except.ok.inj (hverify.symm.trans hheight)
  obtain ⟨fs, repair, objection, u, -, hreports⟩ := hgrows (.ofOrdering (compare 1)) () (.ok (some 1)) 2 hout hin
  obtain rfl : repair = some .double := by
    have hboth := hreports.log.symm.trans hlog
    cases repair with
    | none => cases hboth
    | some kind => simpa using (List.cons.inj hboth).1
  refine ⟨hfresh, rfl, hheight, hout, hin, hlog, t, fs, objection, u, htwo, ?_, hreports⟩
  exact (hreports.repaired .double rfl).1.trans htwo

end World

end BalancedLinks
