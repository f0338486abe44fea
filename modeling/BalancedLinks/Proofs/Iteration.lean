import BalancedLinks.Proofs.Ranking
import Mathlib.Order.RelClasses

/-!
# Traversals of a tree that changes

A traversal settles on the link to go on from before it hands out an element. Between two of its steps other
requests may change the tree: as long as they keep to the order of the elements and leave that one link in the
tree, its place among the elements is settled by the order, whatever happens to the shape, and the traversal
goes on from there.

The main statement is `World.iterates_run`.
-/

set_option autoImplicit false

namespace BalancedLinks

variable {α : Type} {n m : Nat} {lt : α → α → Prop}

/-- The order in which a traversal towards one side hands out elements. -/
def Side.along (s : Side) (lt : α → α → Prop) : α → α → Prop :=
  match s with
  | .right => lt
  | .left => fun a b => lt b a

instance (s : Side) [IsStrictOrder α lt] : IsStrictOrder α (s.along lt) := by
  cases s with
  | right => exact ‹IsStrictOrder α lt›
  | left => exact inferInstanceAs (IsStrictOrder α (Function.swap lt))

/-- Links that increase are passed in the order of a traversal towards either side. -/
theorem Links.Increase.towards {g : Links α n} {t : Shape n} (h : g.Increase lt t.inorder) (s : Side) :
    g.Increase (s.along lt) (t.linksTowards s) := by
  cases s with
  | right => exact h
  | left => exact List.pairwise_reverse.mpr (h.imp fun hlt a b ha hb => hlt b a hb ha)

/-- Among increasing links, those with elements beyond that of a given one come after it. -/
theorem Links.Increase.mem_after {g : Links α n} [IsStrictOrder α lt] {xs ys : List (LinkId n)}
    {p l : LinkId n} {a e : α} (h : g.Increase lt (xs ++ p :: ys)) (ha : g.owner p = some a)
    (he : g.owner l = some e) (hae : lt a e) (hl : l ∈ xs ++ p :: ys) : l ∈ ys := by
  obtain ⟨-, -, hcross⟩ := List.pairwise_append.mp h
  rcases List.mem_append.mp hl with hl | hl
  · exact absurd hae (asymm (hcross l hl p (by simp) e a he ha))
  rcases List.mem_cons.mp hl with rfl | hl
  · obtain rfl := Option.some.inj (ha.symm.trans he)
    exact absurd hae (irrefl a)
  · exact hl

/-- Different elements that embed links are at most as many as the links. -/
theorem Links.length_le_of_owned (g : Links α n) {as : List α} (hnodup : as.Nodup)
    (h : ∀ a ∈ as, ∃ l, g.owner l = some a) : as.length ≤ n := by
  have hsub : as.map some ⊆ (List.finRange n).map g.owner := by
    intro o ho
    obtain ⟨a, ha, rfl⟩ := List.mem_map.mp ho
    obtain ⟨l, hl⟩ := h a ha
    exact List.mem_map.mpr ⟨l, List.mem_finRange l, hl⟩
  have hle := (List.subperm_of_subset (hnodup.map (Option.some_injective α)) hsub).length_le
  simpa using hle

/-! ## Requests between two steps -/

/-- Whether a request leaves a link in the tree. -/
def Request.Spares (x : LinkedTree α n) (l : LinkId n) : Request α n → Prop
  | .erase target => x.linkOfTarget target ≠ some l
  | .clear => False
  | _ => True

/-- What a request spares depends on the tree's selector alone. -/
theorem Request.Spares.congr {x y : LinkedTree α n} {l : LinkId n} {r : Request α n} (h : r.Spares x l)
    (hlinkOf : y.tree.linkOf = x.tree.linkOf) : r.Spares y l := by
  cases r with
  | erase target =>
    have hlink : y.linkOfTarget target = x.linkOfTarget target := by
      cases target with
      | element a => exact congrArg some (congrFun hlinkOf a)
      | cursor c => rfl
    change y.linkOfTarget target ≠ some l
    rwa [hlink]
  | insert | load | clear => exact h

namespace World

variable {w : World α n m} {ts : Fin m → Shape n} {k : Fin m} {u : Shape n} {l : LinkId n}

/--
Whether the requests that come after a step of a traversal of one tree keep to the order where they are to the
same tree, and leave the link in it that the traversal has settled on, unless it has come to the end.
-/
def Considerate (w : World α n m) (k : Fin m) (lt : α → α → Prop) (t : Traversal n)
    (round : List (Fin m × Request α n)) : Prop :=
  ∀ r ∈ round, r.1 = k → r.2.Respects (w.tree k) lt ∧
    ∀ l, t.stage = .pending l → l ≠ (w.trees k).origin → r.2.Spares (w.tree k) l

namespace Sound

/-- An insertion takes no link out of the tree. -/
theorem insert_keeps {σ : Type} {c : Comparator σ α} {s : σ} {supply : Except String (Option α)}
    (h : w.Sound ts) (hm : w.Moves ts k ((w.tree k).insert c s supply).outcome.state u)
    (hl : l ∈ (ts k).inorder) : l ∈ u.inorder := by
  have hends := (h.threads k).inserts c s supply
  generalize (w.tree k).insert c s supply = r at hends hm
  cases hends with
  | linked _ hplace _ _ hthreads =>
    obtain rfl := hm.threads.unique hthreads
    rw [hplace, Shape.mem_inorder_plug] at hl
    rw [Shape.inorder_grown, Shape.mem_inorder_plug]
    exact hl.imp_left (by simp [Shape.inorder])
  | _ =>
    obtain rfl := hm.threads.unique (h.threads k)
    exact hl

/-- A load takes no link out of the tree, however many of its values join. -/
theorem load_keeps {σ : Type} {less : Less σ α} {s : σ} {values : List α} (h : w.Sound ts)
    (hm : w.Moves ts k ((w.tree k).load less s values).state u) (hl : l ∈ (ts k).inorder) : l ∈ u.inorder := by
  have hinsert : ∀ {w : World α n m} {ts}, w.Sound ts → l ∈ (ts k).inorder → ∀ value ∈ values, ∀ s, ∃ u,
      w.Moves ts k ((w.tree k).insert (less.comparator value) s (.ok (some value))).outcome.state u ∧
        l ∈ (Function.update ts k u k).inorder := by
    intro w ts hw hl value _ s
    obtain ⟨u, hm⟩ := hw.insert_moves k (less.comparator value) s (.ok (some value))
    exact ⟨u, hm, by rw [Function.update_self]; exact hw.insert_keeps hm hl⟩
  obtain ⟨u', hm', hl'⟩ := h.load_invariant (I := fun _ ts => l ∈ (ts k).inorder) hl hinsert s
  rw [Function.update_self] at hl'
  obtain rfl := hm.threads.unique hm'.threads
  exact hl'

/-- A request takes no link out of its tree that it spares. -/
theorem step_keeps {r : Request α n} (h : w.Sound ts) (hm : w.Moves ts k (r.run (w.tree k)) u)
    (hspares : r.Spares (w.tree k) l) (hl : l ∈ (ts k).inorder) : l ∈ u.inorder := by
  cases r with
  | insert c s supply => exact h.insert_keeps hm hl
  | load less s values => exact h.load_keeps hm hl
  | clear => exact hspares.elim
  | erase target =>
    have hends := h.erases k target
    simp only [Request.run] at hm
    generalize (w.tree k).erase target = r at hends hm
    cases hends with
    | refused =>
      obtain rfl := hm.threads.unique (h.threads k)
      exact hl
    | @erased l' xs ys _ _ _ hlink hsplit hthreads hrest =>
      obtain rfl := hm.threads.unique hthreads
      have hne : l ≠ l' := fun heq => hspares (heq ▸ hlink)
      rw [hsplit] at hl
      rw [hrest]
      simpa [hne] using hl

/-- Considerate requests keep a tree increasing, and the link in it that a traversal has settled on. -/
theorem run_considerate [IsTrans α lt] {t : Traversal n} {p : LinkId n} {round : List (Fin m × Request α n)}
    (h : w.Sound ts) (hincrease : w.links.Increase lt (ts k).inorder) (hstage : t.stage = .pending p)
    (hp : p = (w.trees k).origin ∨ p ∈ (ts k).inorder) (hround : w.Considerate k lt t round) :
    ∃ us, (w.run round).Sound us ∧ (w.run round).links.Increase lt (us k).inorder ∧
      (p = ((w.run round).trees k).origin ∨ p ∈ (us k).inorder) := by
  induction round generalizing w ts with
  | nil => exact ⟨ts, h, hincrease, hp⟩
  | cons r round ih =>
    obtain ⟨j, r⟩ := r
    have hstep : ∃ u, w.Moves ts j (r.run (w.tree j)) u ∧
        w.links.Increase lt (Function.update ts j u k).inorder ∧
        (p = (w.trees k).origin ∨ p ∈ (Function.update ts j u k).inorder) := by
      by_cases hj : j = k
      · subst hj
        obtain ⟨hrespects, hspares⟩ := hround (j, r) (by simp) rfl
        obtain ⟨u, hm, hincrease'⟩ := h.step_increase j hrespects hincrease
        refine ⟨u, hm, by rwa [Function.update_self], ?_⟩
        rw [Function.update_self]
        by_cases horigin : p = (w.trees j).origin
        · exact Or.inl horigin
        · exact Or.inr (h.step_keeps hm (hspares p hstage horigin) (hp.resolve_left horigin))
      · obtain ⟨u, hm⟩ := h.step_moves j r
        rw [← Function.update_of_ne (Ne.symm hj) u ts] at hincrease hp
        exact ⟨u, hm, hincrease, hp⟩
    obtain ⟨u, hm, hincrease', hp'⟩ := hstep
    have halike := w.put_alike hm.alike k
    have horigin : ((w.step j r).trees k).origin = (w.trees k).origin := halike.origin_eq
    refine ih (hm.sound h) (hincrease'.congr hm.edit.owner) (horigin ▸ hp') ?_
    intro i hi hik
    obtain ⟨hrespects, hspares⟩ := hround i (List.mem_cons_of_mem _ hi) hik
    exact ⟨hrespects.congr halike.linkOf_eq hm.edit.owner,
      fun l hl hlo => (hspares l hl (horigin ▸ hlo)).congr halike.linkOf_eq⟩

end Sound

/-! ## Stepping through -/

/--
A traversal of one tree stepped through while the given requests change the world, some after each step: the
world that each step sees, and what it yields. The steps stop where the traversal fails or ends.
-/
def stepThrough (k : Fin m) :
    World α n m → Traversal n → List (List (Fin m × Request α n)) →
      List (World α n m × Except Failure (Option α))
  | _, _, [] => []
  | w, t, round :: rounds =>
    match (w.tree k).advance t with
    | .error failure => [(w, .error failure)]
    | .ok (none, _) => [(w, .ok none)]
    | .ok (some a, t) => (w, .ok (some a)) :: stepThrough k (w.run round) t rounds

/-- Whether all requests between the steps of a traversal are considerate. -/
def ConsiderateAll (k : Fin m) (lt : α → α → Prop) :
    World α n m → Traversal n → List (List (Fin m × Request α n)) → Prop
  | _, _, [] => True
  | w, t, round :: rounds =>
    match (w.tree k).advance t with
    | .ok (some _, t) => w.Considerate k lt t round ∧ ConsiderateAll k lt (w.run round) t rounds
    | _ => True

/-- Rounds are considerate where the first one is and the others are after it. -/
theorem considerateAll_cons {t t' : Traversal n} {a : α} {round : List (Fin m × Request α n)}
    {rounds : List (List (Fin m × Request α n))} (h : (w.tree k).advance t = .ok (some a, t')) :
    ConsiderateAll k lt w t (round :: rounds) ↔
      w.Considerate k lt t' round ∧ ConsiderateAll k lt (w.run round) t' rounds := by
  simp only [ConsiderateAll, h]

/-- Without requests between its steps, a traversal is undisturbed. -/
theorem considerateAll_of_quiet (k : Fin m) (lt : α → α → Prop) (w : World α n m) (t : Traversal n)
    (count : Nat) : ConsiderateAll k lt w t (List.replicate count []) := by
  induction count generalizing w t with
  | zero => trivial
  | succ count ih =>
    rw [List.replicate_succ, ConsiderateAll]
    split
    · exact ⟨by simp [Considerate], ih _ _⟩
    · trivial

/-- The elements that steps have yielded. -/
def yielded (steps : List (World α n m × Except Failure (Option α))) : List α :=
  steps.filterMap fun step => step.2.toOption.join

/-- Whether steps have come to the end of their traversal. -/
def Ended (steps : List (World α n m × Except Failure (Option α))) : Prop :=
  ∃ w, steps.getLast? = some (w, .ok none)

/-- Whether steps have ended is told by the last one. -/
theorem ended_cons_iff {a : α} {steps : List (World α n m × Except Failure (Option α))} :
    Ended ((w, .ok (some a)) :: steps) ↔ Ended steps := by
  cases steps <;> simp [Ended]

/--
What the steps of a traversal come to that goes on from a link of an increasing tree, or from its end: none
fails, they yield elements in order from that link's on, and at the end all those that have been in the tree
throughout. Where they do not end, each of them yields an element.
-/
structure Continues (w : World α n m) (k : Fin m) (lt : α → α → Prop) (s : Side) (p : LinkId n)
    (steps : List (World α n m × Except Failure (Option α))) (most : Nat) : Prop where
  unfailing : ∀ step ∈ steps, ∃ a, step.2 = .ok a
  ordered : (yielded steps).Pairwise (s.along lt)
  beyond : ∀ a ∈ yielded steps, ∃ b, w.links.owner p = some b ∧ (a = b ∨ s.along lt b a)
  complete : Ended steps → ∀ l a b, w.links.owner l = some a → w.links.owner p = some b →
    (l = p ∨ s.along lt b a) → (∀ step ∈ steps, (step.1.tree k).owns l = .ok true) → a ∈ yielded steps
  embedded : ∀ a ∈ yielded steps, ∃ l, w.links.owner l = some a
  full : ¬ Ended steps → (yielded steps).length = most

/-- From the end, there is one step, and it yields nothing. -/
theorem Sound.continues_origin (h : w.Sound ts) (k : Fin m) (s : Side) (most : Nat) :
    w.Continues k lt s (w.trees k).origin [(w, .ok none)] most := by
  have hownerless : w.links.owner (w.trees k).origin = none := (h.threads k).ownerless
  have hnone : yielded [((w, .ok none) : World α n m × Except Failure (Option α))] = [] := rfl
  refine ⟨by simp, by simp [hnone], by simp [hnone], ?_, by simp [hnone], ?_⟩
  · intro _ l a b _ hb
    rw [hownerless] at hb
    cases hb
  · intro hended
    exact absurd ⟨w, rfl⟩ hended

/-- From a link of the tree, the first step yields its element, and the others go on from the next link. -/
theorem Sound.continues_cons [IsStrictOrder α lt] {s : Side} {p : LinkId n} {xs ys : List (LinkId n)} {a : α}
    {v : World α n m} {steps : List (World α n m × Except Failure (Option α))} {most : Nat} (h : w.Sound ts)
    (hincrease : w.links.Increase lt (ts k).inorder) (hsplit : (ts k).linksTowards s = xs ++ p :: ys)
    (ha : w.links.owner p = some a) (howner : ∀ l, v.links.owner l = w.links.owner l)
    (hrest : v.Continues k lt s (ys.head?.getD (w.trees k).origin) steps most) :
    w.Continues k lt s p ((w, .ok (some a)) :: steps) (most + 1) := by
  have hordered := hincrease.towards s
  rw [hsplit] at hordered
  obtain ⟨-, htail, -⟩ := List.pairwise_append.mp hordered
  obtain ⟨hhead, hys⟩ := List.pairwise_cons.mp htail
  have hownerless : w.links.owner (w.trees k).origin = none := (h.threads k).ownerless
  have hlater : ∀ c ∈ yielded steps, s.along lt a c := by
    intro c hc
    obtain ⟨b, hb, hbc⟩ := hrest.beyond c hc
    rw [howner] at hb
    have hab : s.along lt a b := by
      cases ys with
      | nil => simp [hownerless] at hb
      | cons y ys => exact hhead y (by simp) a b ha hb
    rcases hbc with rfl | hbc
    · exact hab
    · exact IsTrans.trans a b c hab hbc
  refine ⟨?_, ?_, ?_, ?_, ?_, ?_⟩
  · intro step hstep
    rcases List.mem_cons.mp hstep with rfl | hstep
    · exact ⟨some a, rfl⟩
    · exact hrest.unfailing step hstep
  · exact List.pairwise_cons.mpr ⟨hlater, hrest.ordered⟩
  · intro c hc
    rcases List.mem_cons.mp hc with rfl | hc
    · exact ⟨c, ha, Or.inl rfl⟩
    · exact ⟨a, ha, Or.inr (hlater c hc)⟩
  · intro hended l e b he hb hplace hthroughout
    obtain rfl := Option.some.inj (ha.symm.trans hb)
    rcases hplace with rfl | hae
    · obtain rfl := Option.some.inj (ha.symm.trans he)
      exact List.mem_cons_self
    -- the link is in the tree at this step, and only links further on have elements beyond this one
    have hl : l ∈ (ts k).linksTowards s := by
      have howns := hthroughout _ List.mem_cons_self
      simp only [h.owns_eq] at howns
      simpa using howns
    have hlys : l ∈ ys := hordered.mem_after ha he hae (hsplit ▸ hl)
    cases ys with
    | nil => simp at hlys
    | cons y ys =>
      have hy : y ∈ (ts k).inorder := (Shape.mem_linksTowards s (ts k) y).mp (by simp [hsplit])
      obtain ⟨⟨c, hc⟩, -⟩ := (h.threads k).owned y hy
      refine List.mem_cons_of_mem _ (hrest.complete (ended_cons_iff.mp hended) l e c ((howner l).trans he)
        ((howner y).trans hc) ?_ fun step hstep => hthroughout step (List.mem_cons_of_mem _ hstep))
      rcases List.mem_cons.mp hlys with rfl | hlys
      · exact Or.inl rfl
      · exact Or.inr ((List.pairwise_cons.mp hys).1 l hlys c e hc he)
  · intro c hc
    rcases List.mem_cons.mp hc with rfl | hc
    · exact ⟨p, ha⟩
    · obtain ⟨l, hl⟩ := hrest.embedded c hc
      exact ⟨l, (howner l).symm.trans hl⟩
  · intro hended
    have hrest' := hrest.full fun hrest' => hended (ended_cons_iff.mpr hrest')
    exact congrArg (· + 1) hrest'

/-- A traversal goes on like this from any link of an increasing tree, or from its end. -/
theorem Sound.continues [IsStrictOrder α lt] {s : Side} {p : LinkId n}
    {rounds : List (List (Fin m × Request α n))} (h : w.Sound ts)
    (hincrease : w.links.Increase lt (ts k).inorder) (hp : p = (w.trees k).origin ∨ p ∈ (ts k).inorder)
    (hconsiderate : ConsiderateAll k lt w ⟨s, .pending p⟩ rounds) :
    w.Continues k lt s p (stepThrough k w ⟨s, .pending p⟩ rounds) rounds.length := by
  induction rounds generalizing w ts p with
  | nil => exact ⟨by simp [stepThrough], by simp [stepThrough, yielded], by simp [stepThrough, yielded],
      by simp [stepThrough, Ended], by simp [stepThrough, yielded], by simp [stepThrough, yielded]⟩
  | cons round rounds ih =>
    rcases hp with rfl | hp
    · have hend := (w.tree k).advance_origin s
      simp only [LinkedTree.origin, tree] at hend
      simp only [stepThrough, tree, hend]
      exact h.continues_origin k s _
    obtain ⟨xs, ys, hsplit⟩ := List.append_of_mem ((Shape.mem_linksTowards s (ts k) p).mpr hp)
    obtain ⟨a, ha, hadvance⟩ := ((h.threads k).passes s).advance_pending hsplit
    rw [considerateAll_cons hadvance] at hconsiderate
    simp only [stepThrough, hadvance]
    have hnext : ys.head?.getD (w.tree k).origin = (w.trees k).origin ∨
        ys.head?.getD (w.tree k).origin ∈ (ts k).inorder := by
      cases ys with
      | nil => exact Or.inl rfl
      | cons y ys => exact Or.inr ((Shape.mem_linksTowards s (ts k) y).mp (by simp [hsplit]))
    obtain ⟨us, hsound, hincrease', hnext'⟩ := h.run_considerate hincrease rfl hnext hconsiderate.1
    exact h.continues_cons hincrease hsplit ha (fun l => (h.run_identity round l).1)
      (ih hsound hincrease' hnext' hconsiderate.2)

/-! ## Whole traversals -/

/--
What the steps of a traversal come to that starts at the beginning of an increasing tree: none fails, they
yield elements in order and none twice, and at the end all those that have been in the tree throughout. More
steps than there are links come to the end.
-/
structure Iterates (w : World α n m) (k : Fin m) (lt : α → α → Prop) (s : Side)
    (steps : List (World α n m × Except Failure (Option α))) (most : Nat) : Prop where
  unfailing : ∀ step ∈ steps, ∃ a, step.2 = .ok a
  ordered : (yielded steps).Pairwise (s.along lt)
  nodup : (yielded steps).Nodup
  complete : Ended steps → ∀ l a, w.links.owner l = some a →
    (∀ step ∈ steps, (step.1.tree k).owns l = .ok true) → a ∈ yielded steps
  ends : n < most → Ended steps

/-- Steps that have come to an end have begun in the world that they started from. -/
theorem mem_stepThrough_of_ended {t : Traversal n} {rounds : List (List (Fin m × Request α n))}
    (h : Ended (stepThrough k w t rounds)) : ∃ r, (w, r) ∈ stepThrough k w t rounds := by
  cases rounds with
  | nil => simp [stepThrough, Ended] at h
  | cons round rounds =>
    simp only [stepThrough]
    split <;> exact ⟨_, List.mem_cons_self⟩

/-- A traversal from the beginning of an increasing tree, stepped through with considerate requests between. -/
theorem Sound.iterates [IsStrictOrder α lt] {s : Side} {rounds : List (List (Fin m × Request α n))}
    (h : w.Sound ts) (hincrease : w.links.Increase lt (ts k).inorder)
    (hconsiderate : ConsiderateAll k lt w ⟨s, .unstarted⟩ rounds) :
    w.Iterates k lt s (stepThrough k w ⟨s, .unstarted⟩ rounds) rounds.length := by
  have hfirst := ((h.threads k).passes s).advance_unstarted
  have hfirstMem : ((ts k).linksTowards s).head?.getD (w.tree k).origin = (w.trees k).origin ∨
      ((ts k).linksTowards s).head?.getD (w.tree k).origin ∈ (ts k).inorder := by
    cases hlist : (ts k).linksTowards s with
    | nil => exact Or.inl rfl
    | cons l ls => exact Or.inr ((Shape.mem_linksTowards s (ts k) l).mp (by simp [hlist]))
  have hsteps : stepThrough k w ⟨s, .unstarted⟩ rounds =
      stepThrough k w ⟨s, .pending (((ts k).linksTowards s).head?.getD (w.tree k).origin)⟩ rounds := by
    cases rounds with
    | nil => rfl
    | cons round rounds => simp only [stepThrough, hfirst]
  have hconsiderate' : ConsiderateAll k lt w
      ⟨s, .pending (((ts k).linksTowards s).head?.getD (w.tree k).origin)⟩ rounds := by
    cases rounds with
    | nil => trivial
    | cons round rounds => simpa only [ConsiderateAll, hfirst] using hconsiderate
  have hcontinues := h.continues hincrease hfirstMem hconsiderate'
  rw [hsteps]
  refine ⟨hcontinues.unfailing, hcontinues.ordered, hcontinues.ordered.nodup, ?_, ?_⟩
  · intro hended l a ha hthroughout
    obtain ⟨r, hr⟩ := mem_stepThrough_of_ended hended
    have howns := hthroughout _ hr
    simp only [h.owns_eq] at howns
    have hl : l ∈ (ts k).linksTowards s := by simpa using howns
    have hordered := hincrease.towards s
    cases hlist : (ts k).linksTowards s with
    | nil => simp [hlist] at hl
    | cons p ls =>
      rw [hlist] at hl hordered
      have hp : p ∈ (ts k).inorder := (Shape.mem_linksTowards s (ts k) p).mp (by simp [hlist])
      obtain ⟨⟨b, hb⟩, -⟩ := (h.threads k).owned p hp
      simp only [hlist, List.head?_cons, Option.getD_some] at hcontinues hended hthroughout ⊢
      refine hcontinues.complete hended l a b ha hb ?_ hthroughout
      rcases List.mem_cons.mp hl with rfl | hl
      · exact Or.inl rfl
      · exact Or.inr ((List.pairwise_cons.mp hordered).1 l hl b a hb ha)
  · intro hmany
    by_contra hended
    have hfull := hcontinues.full hended
    have hlength := w.links.length_le_of_owned hcontinues.ordered.nodup hcontinues.embedded
    omega

/--
A tree of a reachable world that is sorted by a strict order is traversed towards either side, while requests
change it between the steps: as long as they keep to the order, and take out every link but the one that the
traversal has settled on, the steps yield what is there throughout, in order and each element once, and end.
-/
theorem iterates_run {w : World α n m} (h : w.Fresh) (rs : List (Fin m × Request α n)) {k : Fin m}
    [IsStrictOrder α lt] {as : List α} (hlist : ((w.run rs).tree k).toList = .ok as) (hsorted : as.Pairwise lt)
    (s : Side) {rounds : List (List (Fin m × Request α n))}
    (hconsiderate : ConsiderateAll k lt (w.run rs) ⟨s, .unstarted⟩ rounds) :
    (w.run rs).Iterates k lt s (stepThrough k (w.run rs) ⟨s, .unstarted⟩ rounds) rounds.length := by
  obtain ⟨ts, hsound⟩ := h.sound.run rs
  have hcollect := (hsound.threads k).collect_eq .right
  obtain rfl := Except.ok.inj (hlist.symm.trans hcollect)
  exact hsound.iterates ((Links.increase_iff _ lt _).mpr hsorted) hconsiderate

/-- What changes a tree of three elements while it is traversed: one of them is erased and put in again. -/
def eraseAndInsert (k : Fin 1) (a : Fin 3) : List (List (Fin 1 × Request (Fin 3) 4)) :=
  [[(k, .erase (.element a))],
    [(k, .insert (.ofOrdering (triState (· < ·) a)) () (.ok (some a)))], [], [], []]

/-- The traversal ends nevertheless, and has yielded the last element. -/
theorem iterates_eraseAndInsert :
    Ended (stepThrough 0 ((single 3).run (insertAll 3)) ⟨.right, .unstarted⟩ (eraseAndInsert 0 0)) ∧
      2 ∈ yielded (stepThrough 0 ((single 3).run (insertAll 3)) ⟨.right, .unstarted⟩ (eraseAndInsert 0 0)) := by
  have hlist : (((single 3).run (insertAll 3)).tree 0).toList = .ok [0, 1, 2] := by decide +kernel
  have hconsiderate : ConsiderateAll 0 (· < ·) ((single 3).run (insertAll 3)) ⟨.right, .unstarted⟩
      (eraseAndInsert 0 0) := by
    have hfirst : (((single 3).run (insertAll 3)).tree 0).advance ⟨.right, .unstarted⟩ =
        .ok (some 0, ⟨.right, .pending 2⟩) := by decide +kernel
    have hsecond : ((((single 3).run (insertAll 3)).run [(0, .erase (.element 0))]).tree 0).advance
        ⟨.right, .pending 2⟩ = .ok (some 1, ⟨.right, .pending 3⟩) := by decide +kernel
    have howner : ∀ a b, (((single 3).run (insertAll 3)).run [(0, .erase (.element 0))]).links.owner
        (Fin.succ a) = some b → a = b := by decide +kernel
    refine (considerateAll_cons hfirst).mpr ⟨?_, (considerateAll_cons hsecond).mpr
      ⟨?_, considerateAll_of_quiet 0 _ _ _ 3⟩⟩
    · intro r hr _
      obtain rfl := List.mem_singleton.mp hr
      refine ⟨trivial, ?_⟩
      intro l hl _
      obtain rfl := Stage.pending.inj hl
      exact show some (Fin.succ (0 : Fin 3)) ≠ some 2 by decide
    · intro r hr _
      obtain rfl := List.mem_singleton.mp hr
      refine ⟨?_, fun _ _ _ => trivial⟩
      intro a b ha hb
      obtain rfl := Option.some.inj (Except.ok.inj ha)
      obtain rfl := howner 0 b hb
      exact Comparator.Answers.ranks fun _ _ => ⟨(), rfl⟩
  have hsteps := iterates_run (fresh_single 3) (insertAll 3) hlist (by decide) .right hconsiderate
  have hends := hsteps.ends (by decide)
  exact ⟨hends, hsteps.complete hends 3 2 (by decide +kernel) (by decide +kernel)⟩

end World

end BalancedLinks
