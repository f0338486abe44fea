import BalancedLinks.Proofs.Transparency

/-!
# Erasures by identity

An erasure takes out the one link that it is given, whatever the order of the elements is. The other links keep
their places in the order and their elements, so that cursors on them are still good; and the link that followed
is the one that the erasure returns, even where it has changed places with the link taken out and has been turned
by the rotations after that.

The main statement is `World.withdraws_run`.
-/

set_option autoImplicit false

namespace BalancedLinks

variable {α : Type} {n m : Nat}

namespace LinkedTree

variable {x y : LinkedTree α n} {t : Shape n}

/-! ## Checks -/

/-- Whether a tree checks itself, and the elements of some links in turn do not increase in its own order. -/
def Objects (x : LinkedTree α n) (ls : List (LinkId n)) : Prop :=
  x.tree.verify = true ∧ Disordered x.tree.order (ls.filterMap x.links.owner)

/-- The check after a change passes, unless the tree objects to the order that the change has left. -/
theorem Threads.checkAfter_of_not_objects (h : x.Threads t) (hpasses : ¬ x.Objects t.inorder) (change : Change) :
    x.checkAfter change = .pure x () := by
  cases hverify : x.tree.verify with
  | false => exact checkAfter_of_not_verify hverify change
  | true =>
    have hordered : ¬ Disordered x.tree.order (t.inorder.filterMap x.links.owner) :=
      fun hdisordered => hpasses ⟨hverify, hdisordered⟩
    exact h.checkAfter_of_ordered hordered x.tree.verify change

/-- A tree that objects to its order says so after every change. -/
theorem Threads.checkAfter_of_objects (h : x.Threads t) (hobjects : x.Objects t.inorder) (change : Change) :
    (x.checkAfter change).result = .error (.violation .notIncreasing) := by
  obtain ⟨hverify, hdisordered⟩ := hobjects
  have hcheck := h.checkAfter_of_disordered hdisordered change
  have hself : x.checking true x.tree.order = x := by
    rw [← hverify]
    rfl
  rw [hself] at hcheck
  rw [hcheck]

/-! ## Cursors -/

/-- A cursor on a link of the tree steps to the next link and to the one before, or to the end. -/
theorem Threads.step_cursor (h : x.Threads t) {xs ys : List (LinkId n)} {l : LinkId n}
    (hsplit : t.inorder = xs ++ l :: ys) :
    (Cursor.on l).next x.links = .ok (.on (ys.head?.getD x.origin)) ∧
      (Cursor.on l).previous x.links = .ok (.on (xs.getLast?.getD x.origin)) := by
  have hnext := h.carries.successor_eq hsplit
  have hprevious := h.carries.predecessor_eq hsplit
  simp only [Cursor.next, Cursor.previous, Cursor.on, hnext, hprevious]
  exact ⟨rfl, rfl⟩

/-- A tree owns every link that it threads. -/
theorem Threads.owns_eq (h : x.Threads t) {l : LinkId n} (hl : l ∈ t.inorder) : x.owns l = .ok true := by
  obtain ⟨⟨a, ha⟩, -⟩ := h.owned l hl
  simp only [owns, ha, h.carries.top_eq hl, reached, Except.map, beq_self_eq_true]

/-! ## Erasures -/

/--
How an erasure of the link between two parts of a tree's order ends. The two parts are what is left, in the
order that they had; cursors on their links are good for what they were good for, and step within what is left.
The result is the cursor on the first link of the second part, or the end; it is withheld exactly where the tree
checks itself and objects to the order that is left.
-/
structure Withdraws (x : LinkedTree α n) (before : List (LinkId n)) (l : LinkId n) (after : List (LinkId n))
    (o : Outcome (LinkedTree α n) Event (Cursor n)) : Prop where
  order : ∃ u, o.state.Threads u ∧ u.inorder = before ++ after
  returned : ¬ x.Objects (before ++ after) → o.result = .ok (.on (after.head?.getD x.origin))
  thrown : x.Objects (before ++ after) → o.result = .error (.violation .notIncreasing)
  threaded : ∀ i ∈ before ++ after, o.state.owns i = .ok true
  owner : ∀ i, o.state.links.owner i = x.links.owner i
  value : ∀ i ∈ before ++ after, ∃ a, (Cursor.on i).value x.links = .ok a ∧
    (Cursor.on i).value o.state.links = .ok a
  step : ∀ xs i ys, before ++ after = xs ++ i :: ys →
    (Cursor.on i).next o.state.links = .ok (.on (ys.head?.getD x.origin)) ∧
      (Cursor.on i).previous o.state.links = .ok (.on (xs.getLast?.getD x.origin))
  pristine : o.state.links.get l = (x.links.get l).pristine

/-- What is left of a tree from which a link has been taken is all that there is to show for an erasure. -/
theorem Threads.withdraws {u : Shape n} {g : Links α n} {l : LinkId n} {before after : List (LinkId n)}
    {ls : List (LinkId n)} {log : List Event} (h : (x.resized g (-1)).Threads u)
    (hrest : u.inorder = before ++ after) (hedit : Links.Edit x.links g x.origin .left ls)
    (hout : g.get l = (x.links.get l).pristine) :
    x.Withdraws before l after ⟨x.resized g (-1), log,
      ((x.resized g (-1)).checkAfter .erase).result.map fun _ => .on (after.head?.getD x.origin)⟩ := by
  have howner : ∀ i, g.owner i = x.links.owner i := hedit.owner
  have hobjects : (x.resized g (-1)).Objects u.inorder ↔ x.Objects (before ++ after) := by
    have helements : u.inorder.filterMap g.owner = (before ++ after).filterMap x.links.owner := by
      rw [hrest]
      exact List.filterMap_congr fun i _ => howner i
    simp only [Objects, resized, helements]
  refine ⟨⟨u, h, hrest⟩, ?_, ?_, ?_, howner, ?_, ?_, hout⟩
  · intro hpasses
    rw [h.checkAfter_of_not_objects (mt hobjects.mp hpasses)]
    rfl
  · intro hobject
    simp only [h.checkAfter_of_objects (hobjects.mpr hobject), Except.map]
  · intro i hi
    exact h.owns_eq (hrest ▸ hi)
  · intro i hi
    obtain ⟨⟨a, ha⟩, -⟩ := h.owned i (hrest ▸ hi)
    have hbefore : x.links.owner i = some a := (howner i).symm.trans ha
    have hafter : (x.resized g (-1)).links.owner i = some a := ha
    exact ⟨a, by simp only [Cursor.value, Cursor.on, hbefore], by simp only [Cursor.value, Cursor.on, hafter]⟩
  · intro xs i ys hsplit
    exact h.step_cursor (hrest.trans hsplit)

end LinkedTree

namespace World

variable {w : World α n m} {ts : Fin m → Shape n} {k : Fin m}

/-- In a sound world, an erasure of a link that the tree threads takes out that link alone. -/
theorem Sound.withdraws (h : w.Sound ts) {target : Target α n} {before after : List (LinkId n)} {l : LinkId n}
    (hlink : (w.tree k).linkOfTarget target = some l) (horder : (ts k).inorder = before ++ l :: after) :
    (w.tree k).Withdraws before l after ((w.tree k).erase target) := by
  have hends := h.erases k target
  generalize (w.tree k).erase target = o at hends
  cases hends with
  | refused _ _ hout => exact absurd (by simp [horder]) (hout l hlink)
  | @erased l' xs ys fs d g hlink' hsplit hthreads hrest hedit hout =>
    obtain rfl : l' = l := Option.some.inj (hlink'.symm.trans hlink)
    -- the tree threads the link once, so its order is cut there in one way only
    have hnodup := (h.threads k).carries.nodup
    rw [hsplit] at horder hnodup
    obtain ⟨-, htail, hapart⟩ := List.nodup_append.mp hnodup
    have hxs : l' ∉ xs := fun hmem => hapart l' hmem l' (by simp) rfl
    obtain ⟨rfl, -, rfl⟩ := (List.append_cons_inj_of_notMem hxs (List.nodup_cons.mp htail).1).mp horder
    exact hthreads.withdraws hrest hedit hout

/--
After any requests to the trees of a fresh world, with any comparators, an erasure of a link that a tree threads,
by its element or by a cursor on it, takes out that link alone.
-/
theorem withdraws_run {w : World α n m} (h : w.Fresh) (rs : List (Fin m × Request α n)) (k : Fin m) :
    ∃ t, ((w.run rs).tree k).Threads t ∧ ∀ (target : Target α n) (before : List (LinkId n)) (l : LinkId n)
      (after : List (LinkId n)), ((w.run rs).tree k).linkOfTarget target = some l →
        t.inorder = before ++ l :: after →
          ((w.run rs).tree k).Withdraws before l after (((w.run rs).tree k).erase target) := by
  obtain ⟨ts, hsound⟩ := sound_run h rs
  exact ⟨ts k, hsound.threads k, fun _ _ _ _ hlink horder => hsound.withdraws hlink horder⟩

/--
In the tree of three elements that were inserted in ascending order, the one at the root has two children. Erasing
it leaves the other two, the cursor on the last one as the result, and a cursor on the first one steps to it.
-/
theorem withdraws_run_root :
    (single 3).Fresh ∧
      ((((single 3).run (insertAll 3)).tree 0).erase (.element 1)).result = .ok (.on 3) ∧
      (Cursor.on 1).next ((((single 3).run (insertAll 3)).tree 0).erase (.element 1)).state.links = .ok (.on 3) := by
  obtain ⟨t, hthreads, hwithdraws⟩ := withdraws_run (fresh_single 3) (insertAll 3) 0
  have hspans : (((single 3).run (insertAll 3)).tree 0).links.Spans (some 2) 0
      (.node (.node .empty 1 .empty) 2 (.node .empty 3 .empty)) := by
    have hleaf : ∀ slot p, slot = none → (((single 3).run (insertAll 3)).tree 0).links.Spans slot p .empty :=
      fun slot p => (Links.spans_empty slot p).mpr
    refine ⟨rfl, ?_, ⟨?_, ?_, hleaf _ _ ?_, hleaf _ _ ?_⟩, ⟨?_, ?_, hleaf _ _ ?_, hleaf _ _ ?_⟩⟩ <;> decide +kernel
  have hroot : (((single 3).run (insertAll 3)).tree 0).links.child 0 .left = some 2 := by decide +kernel
  obtain rfl := hthreads.carries.spans.unique (show _ from hroot ▸ hspans)
  have hdone := hwithdraws (.element 1) [1] 2 [3] rfl rfl
  have hunchecked : ¬ (((single 3).run (insertAll 3)).tree 0).Objects [1, 3] := by
    rintro ⟨hverify, -⟩
    exact absurd hverify (by decide +kernel)
  exact ⟨fresh_single 3, hdone.returned hunchecked, (hdone.step [] 1 [3] rfl).1⟩

/-- A tree that checks itself, after it has linked three elements against its order. -/
def misordered : World (Fin 3) 4 1 :=
  ((single 3).checking (fun _ => true) fun _ => some compare).run (appendAll 3)

/-- It takes out the link of the first of them, but returns no cursor: it objects to the order of the other two. -/
theorem erase_withheld :
    ((single 3).checking (fun _ => true) fun _ => some compare).Fresh ∧
      (misordered.tree 0).contains 2 = .ok true ∧
      ((misordered.tree 0).erase (.element 2)).result = .error (.violation .notIncreasing) ∧
      ((misordered.tree 0).erase (.element 2)).state.toList = .ok [1, 0] := by
  exact ⟨(fresh_single 3).checking _ _, by decide +kernel, by decide +kernel, by decide +kernel⟩

end World

end BalancedLinks
