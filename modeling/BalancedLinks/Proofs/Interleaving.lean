import BalancedLinks.Proofs.Mirroring

/-!
# Trees that do not disturb each other

The trees of a world share its links, but trees that never select a common link do not notice each other: in
an interleaved run a tree replies as in the run of its own operations alone, and ends the same. And whatever
a tree does, it touches its origin and the links that it threads before or afterwards, and no other.

The main statement is `World.undisturbed_run`.
-/

set_option autoImplicit false

namespace BalancedLinks

variable {α : Type} {n m : Nat}

/-- What belongs to one tree of several: its operations among those of a run, or its replies. -/
def only {β : Type*} (k : Fin m) (bs : List (Fin m × β)) : List (Fin m × β) :=
  bs.filter fun b => b.1 = k

section Only

variable {β : Type*} {j k : Fin m}

/-- What comes first belongs to the tree. -/
@[simp] theorem only_cons_self (k : Fin m) (b : β) (bs : List (Fin m × β)) :
    only k ((k, b) :: bs) = (k, b) :: only k bs := by
  simp [only]

/-- What comes first belongs to another tree. -/
theorem only_cons_of_ne (h : j ≠ k) (b : β) (bs : List (Fin m × β)) : only k ((j, b) :: bs) = only k bs := by
  simp [only, h]

end Only

namespace World

/--
Along a run, a tree has the same replies in two worlds that mirror each other, where the second one carries
out the operations on that tree alone.
-/
theorem Mirrors.operateAll_eq {w v : World α n m} {ts us : Fin m → Shape n} {k : Fin m} {far : Fin m → Prop}
    {ops : List (Fin m × Operation α n)} (h : Mirrors k far w v ts us)
    (hfar : ∀ op ∈ ops, op.1 ≠ k → far op.1) (hcursors : ∀ op, (k, op) ∈ ops → op.Within (w.Private k)) :
    only k (w.replies ops) = v.replies (only k ops) ∧
      ∃ ts' us', Mirrors k far (w.operateAll ops) (v.operateAll (only k ops)) ts' us' := by
  induction ops generalizing w v ts us with
  | nil => exact ⟨rfl, ts, us, h⟩
  | cons op ops ih =>
    obtain ⟨j, op⟩ := op
    have hfar' : ∀ op ∈ ops, op.1 ≠ k → far op.1 := fun op hop => hfar op (List.mem_cons_of_mem _ hop)
    have hcursors' : ∀ op', (k, op') ∈ ops → op'.Within ((w.operate j op).Private k) := fun op' hop' =>
      (hcursors op' (List.mem_cons_of_mem _ hop')).mono fun l hl =>
        hl.congr (w.put_alike (op.after_alike (w.tree j)))
    by_cases hj : j = k
    · subst hj
      obtain ⟨hreply, u, hmirrors⟩ := h.operate_eq (hcursors op (List.mem_cons_self ..))
      obtain ⟨hreplies, hend⟩ := ih hmirrors hfar' hcursors'
      simp only [replies, only_cons_self, operateAll_cons, hreply, hreplies]
      exact ⟨trivial, hend⟩
    -- the second world does not carry out an operation on another tree
    · obtain ⟨u, hm⟩ := h.left.operate_moves j op
      obtain ⟨hreplies, hend⟩ := ih (h.put_far (hfar _ (List.mem_cons_self ..) hj) hm) hfar' hcursors'
      simp only [replies, only_cons_of_ne hj, operateAll_cons]
      exact ⟨hreplies, hend⟩

/--
Whether a tree does not notice the operations on other trees among those of a run: its replies, its record and
the links of its own are in the end what they are when its operations are carried out alone.
-/
structure Undisturbed (w : World α n m) (k : Fin m) (ops : List (Fin m × Operation α n)) : Prop where
  replies : only k (w.replies ops) = w.replies (only k ops)
  tree : (w.operateAll ops).trees k = (w.operateAll (only k ops)).trees k
  links : ∀ l, w.Private k l → (w.operateAll ops).links.get l = (w.operateAll (only k ops)).links.get l

/-- A tree of a sound world does not notice operations on trees that select other links. -/
theorem Sound.undisturbed {w : World α n m} {ts : Fin m → Shape n} {k : Fin m}
    {ops : List (Fin m × Operation α n)} (h : w.Sound ts) (hs : w.Selects ts)
    (hapart : ∀ op ∈ ops, op.1 ≠ k → w.Apart op.1 k) (hcursors : ∀ op, (k, op) ∈ ops → op.Within (w.Private k)) :
    w.Undisturbed k ops := by
  have hself : Mirrors k (fun j => j ≠ k ∧ w.Apart j k) w w ts ts := .refl h hs fun _ hj => hj
  obtain ⟨hreplies, ts', us', hend⟩ :=
    hself.operateAll_eq (fun op hop hne => ⟨hne, hapart op hop hne⟩) hcursors
  refine ⟨hreplies, (hend.near k hend.not_far).tree.symm, fun l hl => ?_⟩
  have hprivate : (w.operateAll ops).Private k l := hl.congr (w.operateAll_alike ops)
  exact (hend.get_eq (hend.clear_of_private hprivate)).symm

/-- An operation changes no link, other than the tree's origin, that is in the tree neither before nor after. -/
theorem Sound.untouched {w : World α n m} {ts : Fin m → Shape n} {k : Fin m} (h : w.Sound ts)
    (op : Operation α n) {l : LinkId n} (horigin : l ≠ (w.trees k).origin) (hbefore : (w.tree k).owns l = .ok false)
    (hafter : (op.after (w.tree k)).owns l = .ok false) :
    (op.after (w.tree k)).links.get l = w.links.get l := by
  obtain ⟨u, hm⟩ := h.operate_moves k op
  have hmoved := (hm.sound h).owns_eq k l
  rw [tree_put_self, Function.update_self, hafter, Except.ok.injEq] at hmoved
  rw [h.owns_eq, Except.ok.injEq] at hbefore
  refine hm.edit.outside l horigin ?_
  rw [List.mem_append, not_or]
  exact ⟨of_decide_eq_false hbefore, of_decide_eq_false hmoved.symm⟩

/--
In every reachable state, a tree does not notice the operations on trees that never select a link which it
selects, in whatever order they come among its own; its cursors stand on links of its own. And no operation on
a tree changes a link, other than the tree's origin, that is in the tree neither before nor after it.
-/
theorem undisturbed_run {w : World α n m} (h : w.Fresh) (rs : List (Fin m × Request α n)) (k : Fin m) :
    (∀ ops : List (Fin m × Operation α n), (∀ op ∈ ops, op.1 ≠ k → w.Apart op.1 k) →
      (∀ op, (k, op) ∈ ops → op.Within (w.Private k)) → (w.run rs).Undisturbed k ops) ∧
    ∀ (op : Operation α n) (l : LinkId n), l ≠ (w.trees k).origin →
      ((w.run rs).tree k).owns l = .ok false → (op.after ((w.run rs).tree k)).owns l = .ok false →
      (op.after ((w.run rs).tree k)).links.get l = (w.run rs).links.get l := by
  obtain ⟨ts, hsound, hselects⟩ := h.sound.run_selects w.selects_empty rs
  constructor
  · intro ops hapart hcursors
    exact hsound.undisturbed hselects (fun op hop hne => (hapart op hop hne).congr (w.run_alike rs))
      fun op hop => (hcursors op hop).mono fun l hl => hl.congr (w.run_alike rs)
  · intro op l horigin
    have horigin' : ((w.run rs).trees k).origin = (w.trees k).origin := (w.run_alike rs k).origin_eq
    exact hsound.untouched op (horigin' ▸ horigin)

/-- Two elements with two links each, one for each of two trees. -/
def paired : World (Fin 2) 6 2 where
  trees k := { tag := "", linkOf := fun a => Fin.ofNat 6 (2 + 2 * k + a), origin := Fin.ofNat 6 k,
               logger := none, verify := false, order := none, size := 0 }
  links := ⟨#v[.fresh none "", .fresh none "", .fresh (some 0) "", .fresh (some 1) "", .fresh (some 0) "",
    .fresh (some 1) ""]⟩

/--
The first tree links both elements, goes on from one of them and lists them, as if the second one were not
there; and linking an element there leaves its link for the second tree alone.
-/
theorem undisturbed_run_paired :
    paired.Fresh ∧ paired.Undisturbed 0
        [(1, .change (.insert (.ofOrdering (compare 1)) () (.ok (some 1)))),
          (0, .change (.insert (.ofOrdering (compare 1)) () (.ok (some 1)))),
          (0, .change (.insert (.ofOrdering (compare 0)) () (.ok (some 0)))), (1, .change .clear),
          (0, .next (.on 2)), (1, .listing .right), (0, .listing .right)] ∧
      ((Operation.change (.insert (.ofOrdering (compare 1)) () (.ok (some 1)))).after
        (paired.tree 0)).links.get 5 = paired.links.get 5 := by
  have hfresh : paired.Fresh := by
    refine ⟨by decide +kernel, by decide +kernel, by decide +kernel, fun k => rfl⟩
  have hapart : paired.Apart 1 0 := by
    intro a b
    revert a b
    decide +kernel
  obtain ⟨hrun, huntouched⟩ := undisturbed_run hfresh [] 0
  refine ⟨hfresh, hrun _ ?_ ?_, huntouched _ 5 (by decide +kernel) (by decide +kernel) (by decide +kernel)⟩
  · intro op hop hne
    have hone : op.1 = 1 := by omega
    rwa [hone]
  · intro op hop
    simp only [List.mem_cons, Prod.mk.injEq, List.not_mem_nil, or_false] at hop
    rcases hop with ⟨hne, -⟩ | ⟨-, rfl⟩ | ⟨-, rfl⟩ | ⟨hne, -⟩ | ⟨-, rfl⟩ | ⟨hne, -⟩ | ⟨-, rfl⟩
    · cases hne
    · trivial
    · trivial
    · cases hne
    · intro l hl
      obtain rfl := Option.some.inj hl
      exact ⟨Or.inr ⟨0, rfl⟩, by decide +kernel⟩
    · cases hne
    · trivial

/-- A tree that selects nothing but the origin of another one, for the only element there is. -/
def selectingOrigin : World (Fin 1) 3 2 where
  trees k := { tag := "", linkOf := fun _ => k.succ, origin := k.castSucc, logger := none, verify := false,
               order := none, size := 0 }
  links := ⟨#v[.fresh none "", .fresh none "", .fresh (some (Fin.last 0)) ""]⟩

/--
The two trees never select a common link; but linking the element into the second one changes that tree's
origin, which the first one selects.
-/
theorem selected_origin_disturbed :
    selectingOrigin.Fresh ∧ selectingOrigin.Apart 1 0 ∧
      ∃ l, (∃ a, (selectingOrigin.trees 0).linkOf a = l) ∧
        (selectingOrigin.operateAll
            [(1, .change (.insert (.ofOrdering (compare 0)) () (.ok (some 0))))]).links.get l ≠
          (selectingOrigin.operateAll
            (only 0 [(1, .change (.insert (.ofOrdering (compare 0)) () (.ok (some 0))))])).links.get l := by
  refine ⟨⟨by decide +kernel, by decide +kernel, by decide +kernel, fun k => rfl⟩, ?_, 1, ⟨0, rfl⟩, ?_⟩
  · intro a b
    revert a b
    decide +kernel
  · decide +kernel

end World

end BalancedLinks
