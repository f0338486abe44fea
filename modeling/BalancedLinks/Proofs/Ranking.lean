import BalancedLinks.Proofs.Holding
import BalancedLinks.Proofs.World

/-!
# Requests that keep to an order

For the elements of a tree to increase, comparators need not answer by one key each: it is enough that the
answers about an element that is linked place it where the order does. Such requests keep a tree increasing by
the transitivity of the order alone, whether or not they succeed.

The main statement is `World.Sound.step_increase`.
-/

set_option autoImplicit false

namespace BalancedLinks

variable {α : Type} {n m : Nat} {lt : α → α → Prop}

/-- Whether a comparator's answers, other than a match, say where an element belongs among the others. -/
def Comparator.Ranks {σ : Type} (c : Comparator σ α) (lt : α → α → Prop) (b : α) : Prop :=
  ∀ s x s', (c.ask s x = .ok (.lt, s') → lt b x) ∧ (c.ask s x = .ok (.gt, s') → lt x b)

/-- A comparator that compares an element with each other one says where it belongs. -/
theorem Comparator.Answers.ranks {σ : Type} [DecidableRel lt] {c : Comparator σ α} {b : α}
    (h : c.Answers (triState lt b)) : c.Ranks lt b := by
  intro s x s'
  constructor
  · intro hask
    have hlt := h.of_ask hask
    unfold triState at hlt
    split_ifs at hlt with hbx
    exact hbx
  · intro hask
    have hgt := h.of_ask hask
    unfold triState at hgt
    split_ifs at hgt with _ hxb
    exact hxb

/-- Whether the comparators of a request say where the elements belong that it may link. -/
def Request.Respects (x : LinkedTree α n) (lt : α → α → Prop) : Request α n → Prop
  | .insert c _ supply =>
    ∀ a b, supply = .ok (some a) → x.links.owner (x.tree.linkOf a) = some b → c.Ranks lt b
  | .load less _ values =>
    ∀ a ∈ values, ∀ b, x.links.owner (x.tree.linkOf a) = some b → (less.comparator a).Ranks lt b
  | _ => True

/-- What a request respects depends on the tree's selector and on the owners of links alone. -/
theorem Request.Respects.congr {x y : LinkedTree α n} {r : Request α n} (h : r.Respects x lt)
    (hlinkOf : y.tree.linkOf = x.tree.linkOf) (howner : ∀ l, y.links.owner l = x.links.owner l) :
    r.Respects y lt := by
  cases r with
  | insert c s supply =>
    intro a b hsupply hb
    rw [hlinkOf, howner] at hb
    exact h a b hsupply hb
  | load less s values =>
    intro a ha b hb
    rw [hlinkOf, howner] at hb
    exact h a ha b hb
  | erase | clear => trivial

namespace Links

variable {g g' : Links α n} {ls : List (LinkId n)}

/-- Whether elements increase depends on the owners of links alone. -/
theorem Increase.congr (h : g.Increase lt ls) (howner : ∀ l, g'.owner l = g.owner l) : g'.Increase lt ls := by
  simpa only [Increase, howner] using h

/-- Links increase exactly if their owners do. -/
theorem increase_iff (g : Links α n) (lt : α → α → Prop) (ls : List (LinkId n)) :
    g.Increase lt ls ↔ (ls.filterMap g.owner).Pairwise lt := by
  rw [List.pairwise_filterMap]
  constructor
  · exact fun h => h.imp fun hlt a ha b hb => hlt a b ha hb
  · exact fun h => h.imp fun hlt a b ha hb => hlt a ha b hb

/-- An element that is placed by a search through an increasing shape leaves it increasing. -/
theorem Trail.increase {σ : Type} [IsTrans α lt] {c : Comparator σ α} {s₀ s : σ} {fs : List (Frame n)}
    {as : List α} {l : LinkId n} (h : Trail g c s₀ fs as s) (hranks : ∀ b, g.owner l = some b → c.Ranks lt b)
    (hincrease : g.Increase lt (Shape.plug fs .empty).inorder) :
    g.Increase lt (Shape.plug fs (.node .empty l .empty)).inorder := by
  have hwhole : (Shape.plug fs (.node .empty l .empty)).inorder =
      Shape.linksBefore fs ++ l :: Shape.linksAfter fs := by
    simp [Shape.inorder_plug, Shape.inorder]
  have hparts : ∀ b, g.owner l = some b →
      (∀ k ∈ Shape.linksBefore fs, ∀ a, g.owner k = some a → lt a b) ∧
        ∀ k ∈ Shape.linksAfter fs, ∀ a, g.owner k = some a → lt b a := fun b hb =>
    h.parts (P := fun a => lt a b) (Q := fun a => lt b a) (fun a a' haa' ha' => IsTrans.trans a a' b haa' ha')
      (fun a a' haa' ha => IsTrans.trans b a a' ha haa') (fun s a s' => (hranks b hb s a s').2)
      (fun s a s' => (hranks b hb s a s').1) hincrease
  rw [Shape.inorder_plug, Shape.inorder, List.append_nil] at hincrease
  obtain ⟨hbefore, hafter, hcross⟩ := List.pairwise_append.mp hincrease
  rw [hwhole]
  refine List.pairwise_append.mpr ⟨hbefore, List.pairwise_cons.mpr ⟨?_, hafter⟩, ?_⟩
  · exact fun k hk b a hb ha => (hparts b hb).2 k hk a ha
  · intro k hk i hi
    rcases List.mem_cons.mp hi with rfl | hi
    · exact fun a b ha hb => (hparts b hb).1 k hk a ha
    · exact hcross k hk i hi

end Links

namespace World.Sound

variable {w : World α n m} {ts : Fin m → Shape n} {k : Fin m} {x : LinkedTree α n} {u : Shape n}

/-- An insertion that places its element truly keeps the tree increasing. -/
theorem insert_increase {σ : Type} [IsTrans α lt] (h : w.Sound ts) (k : Fin m) {c : Comparator σ α} {s : σ}
    {supply : Except String (Option α)} (hrespects : (Request.insert c s supply).Respects (w.tree k) lt)
    (hincrease : w.links.Increase lt (ts k).inorder) :
    ∃ u, w.Moves ts k ((w.tree k).insert c s supply).outcome.state u ∧ w.links.Increase lt u.inorder := by
  obtain ⟨u, hm⟩ := h.insert_moves k c s supply
  refine ⟨u, hm, ?_⟩
  have hends := (h.threads k).inserts c s supply
  generalize (w.tree k).insert c s supply = r at hends hm
  cases hends with
  | linked htrail hplace hsupply _ hthreads =>
    obtain rfl := hm.threads.unique hthreads
    rw [Shape.inorder_grown]
    rw [hplace] at hincrease
    exact htrail.increase (fun b hb => hrespects _ b hsupply hb) hincrease
  | _ =>
    obtain rfl := hm.threads.unique (h.threads k)
    exact hincrease

/-- What an erasure leaves increases if what it found did. -/
theorem erase_increase (h : w.Sound ts) (k : Fin m) (target : Target α n)
    (hincrease : w.links.Increase lt (ts k).inorder) :
    ∃ u, w.Moves ts k ((w.tree k).erase target).state u ∧ w.links.Increase lt u.inorder := by
  obtain ⟨u, hm⟩ := h.erase_moves k target
  refine ⟨u, hm, ?_⟩
  have hends := h.erases k target
  generalize (w.tree k).erase target = r at hends hm
  cases hends with
  | refused =>
    obtain rfl := hm.threads.unique (h.threads k)
    exact hincrease
  | @erased l xs ys _ _ _ _ hsplit hthreads hrest =>
    obtain rfl := hm.threads.unique hthreads
    rw [hsplit] at hincrease
    rw [hrest]
    exact hincrease.sublist ((List.sublist_cons_self l ys).append_left xs)

/-- Whether a tree is increasing in a world that another one has changed to, by changes of that tree alone. -/
def IncreasingFrom (w : World α n m) (k : Fin m) (lt : α → α → Prop) (v : World α n m) (us : Fin m → Shape n) :
    Prop :=
  (w.tree k).Alike (v.tree k) ∧ (∀ l, v.links.owner l = w.links.owner l) ∧ v.links.Increase lt (us k).inorder

/-- A load that places its values truly keeps the tree increasing, also where it fails on the way. -/
theorem load_increase {σ : Type} [IsTrans α lt] (h : w.Sound ts) (k : Fin m) {less : Less σ α} {s : σ}
    {values : List α} (hrespects : (Request.load less s values).Respects (w.tree k) lt)
    (hincrease : w.links.Increase lt (ts k).inorder) :
    ∃ u, w.Moves ts k ((w.tree k).load less s values).state u ∧ w.links.Increase lt u.inorder := by
  have hinsert : ∀ {v us}, Sound v us → IncreasingFrom w k lt v us → ∀ value ∈ values, ∀ s, ∃ u,
      v.Moves us k ((v.tree k).insert (less.comparator value) s (.ok (some value))).outcome.state u ∧
        IncreasingFrom w k lt
          (v.put k ((v.tree k).insert (less.comparator value) s (.ok (some value))).outcome.state)
          (Function.update us k u) := by
    intro v us hv hfrom value hvalue s
    obtain ⟨halike, howner, hincrease⟩ := hfrom
    have hvalue : (Request.insert (less.comparator value) s (.ok (some value))).Respects (v.tree k) lt := by
      refine Request.Respects.congr (x := w.tree k) ?_ halike.linkOf_eq howner
      intro a b ha hb
      obtain rfl := Option.some.inj (Except.ok.inj ha)
      exact hrespects value hvalue b hb
    obtain ⟨u, hm, hincrease'⟩ := hv.insert_increase k hvalue hincrease
    refine ⟨u, hm, halike.trans (v.put_alike hm.alike k), fun l => (hm.edit.owner l).trans (howner l), ?_⟩
    rw [Function.update_self]
    exact hincrease'.congr hm.edit.owner
  have hfrom : IncreasingFrom w k lt w ts := ⟨.refl _, fun _ => rfl, hincrease⟩
  obtain ⟨u, hm, -, -, hincrease'⟩ := h.load_invariant hfrom hinsert s
  rw [Function.update_self] at hincrease'
  exact ⟨u, hm, hincrease'.congr fun l => (hm.edit.owner l).symm⟩

/-- A request that keeps to a transitive order keeps its tree increasing. -/
theorem step_increase [IsTrans α lt] (h : w.Sound ts) (k : Fin m) {r : Request α n}
    (hrespects : r.Respects (w.tree k) lt) (hincrease : w.links.Increase lt (ts k).inorder) :
    ∃ u, w.Moves ts k (r.run (w.tree k)) u ∧ w.links.Increase lt u.inorder := by
  cases r with
  | insert c s supply => exact h.insert_increase k hrespects hincrease
  | erase target => exact h.erase_increase k target hincrease
  | load less s values => exact h.load_increase k hrespects hincrease
  | clear => exact ⟨_, h.clear_moves k, List.Pairwise.nil⟩

end World.Sound

end BalancedLinks
