import BalancedLinks.Proofs.Checking
import BalancedLinks.Proofs.Ranking

/-!
# Runs of trees that check themselves

A check after each change does not alter what a run comes to, as long as the requests keep to the order that is
checked: then no check finds anything, and each operation has the same reply as without checks.

The main statement is `World.checks_transparent`.
-/

set_option autoImplicit false

namespace BalancedLinks

variable {α : Type} {n m : Nat}

namespace LinkedTree

variable {x y : LinkedTree α n} {order : Option (α → α → Ordering)}

/-! ## Order -/

/--
Whether the elements of a shape are in the order that is to be checked, if any, and some requests keep to it:
where their comparators tell an element from another, they place it where the order does.
-/
def KeepsOrder (x : LinkedTree α n) (t : Shape n) (order : Option (α → α → Ordering))
    (requests : Request α n → Prop) : Prop :=
  ∀ f, order = some f → ∃ lt : α → α → Prop, IsTrans α lt ∧ (∀ a b, lt a b → f a b = .lt) ∧
    x.links.Increase lt t.inorder ∧ ∀ r, requests r → r.Respects x lt

namespace KeepsOrder

variable {t : Shape n} {P Q : Request α n → Prop}

/-- A check by the order finds nothing. -/
theorem ordered (h : x.KeepsOrder t order P) : ¬ Disordered order (t.inorder.filterMap x.links.owner) := by
  intro hdisordered
  obtain ⟨f, rfl⟩ := hdisordered.exists_order
  obtain ⟨lt, -, hlt, hincrease, -⟩ := h f rfl
  refine (disordered_some_iff f _).mp hdisordered (List.Pairwise.isChain ?_)
  exact ((Links.increase_iff _ _ _).mp hincrease).imp fun hab => hlt _ _ hab

/-- Fewer requests keep to an order as well. -/
theorem imp (h : x.KeepsOrder t order P)
    (hPQ : ∀ lt, (∀ r, P r → r.Respects x lt) → ∀ r, Q r → r.Respects x lt) : x.KeepsOrder t order Q := by
  intro f hf
  obtain ⟨lt, htrans, hlt, hincrease, hrespects⟩ := h f hf
  exact ⟨lt, htrans, hlt, hincrease, hPQ lt hrespects⟩

/-- What requests keep to depends on the tree's selector and on the owners of links alone. -/
theorem congr (h : x.KeepsOrder t order P) (hlinkOf : y.tree.linkOf = x.tree.linkOf)
    (howner : ∀ l, y.links.owner l = x.links.owner l) : y.KeepsOrder t order P := by
  intro f hf
  obtain ⟨lt, htrans, hlt, hincrease, hrespects⟩ := h f hf
  exact ⟨lt, htrans, hlt, hincrease.congr howner, fun r hr => (hrespects r hr).congr hlinkOf howner⟩

end KeepsOrder

end LinkedTree

/-! ## Worlds -/

namespace World

variable {w : World α n m} {ts : Fin m → Shape n} {k : Fin m} {order : Option (α → α → Ordering)}
  {P : Request α n → Prop}

namespace Sound

/-- A request that keeps to the order leaves the elements in order. -/
theorem step_keepsOrder {r : Request α n} (h : w.Sound ts) (hkeeps : (w.tree k).KeepsOrder (ts k) order P)
    (hr : P r) : ∃ u, w.Moves ts k (r.run (w.tree k)) u ∧ (r.run (w.tree k)).KeepsOrder u order P := by
  obtain ⟨u, hm⟩ := h.step_moves k r
  refine ⟨u, hm, ?_⟩
  intro f hf
  -- which shape the tree threads does not depend on the order, so that both moves are to the same one
  obtain ⟨lt, htrans, hlt, hincrease, hrespects⟩ := hkeeps f hf
  obtain ⟨u', hm', hincrease'⟩ := h.step_increase k (hrespects r hr) hincrease
  obtain rfl := hm.threads.unique hm'.threads
  exact ⟨lt, htrans, hlt, hincrease'.congr hm.edit.owner,
    fun r hr => (hrespects r hr).congr hm.alike.linkOf_eq hm.edit.owner⟩

/-- An insertion that keeps to the order is the same with a check. -/
theorem insert_transparent {σ : Type} {c : Comparator σ α} {s : σ} {supply : Except String (Option α)}
    (h : w.Sound ts) (hverify : (w.tree k).tree.verify = false)
    (hkeeps : (w.tree k).KeepsOrder (ts k) order P) (hr : P (.insert c s supply)) (v : Bool) :
    ((w.tree k).checking v order).insert c s supply =
      { (w.tree k).insert c s supply with
        outcome := ((w.tree k).insert c s supply).outcome.within fun y => y.checking v order } := by
  obtain ⟨u, hm, hkeeps'⟩ := h.step_keepsOrder hkeeps hr
  have hpasses := hm.threads.checkAfter_of_ordered hkeeps'.ordered v .insert
  rw [LinkedTree.insert_checking hverify, LinkedTree.thenCheck_of_passes fun _ _ _ => hpasses]

/-- An erasure in a tree that keeps an order comes to the same with a check by that order. -/
theorem erase_transparent {target : Target α n} (h : w.Sound ts) (hverify : (w.tree k).tree.verify = false)
    (hkeeps : (w.tree k).KeepsOrder (ts k) order P) (hr : P (.erase target)) (v : Bool) :
    ((w.tree k).checking v order).erase target =
      ((w.tree k).erase target).within fun y => y.checking v order := by
  obtain ⟨u, hm, hkeeps'⟩ := h.step_keepsOrder hkeeps hr
  have hpasses := hm.threads.checkAfter_of_ordered hkeeps'.ordered v .erase
  rw [LinkedTree.erase_checking hverify, LinkedTree.thenCheck_of_passes fun _ _ _ => hpasses]

/-- A load of which every insertion keeps to the order comes to the same with a check by that order. -/
theorem load_transparent {σ : Type} {less : Less σ α} {s : σ} {values : List α} (h : w.Sound ts)
    (hverify : (w.tree k).tree.verify = false) (hkeeps : (w.tree k).KeepsOrder (ts k) order P)
    (hr : ∀ value ∈ values, ∀ s, P (.insert (less.comparator value) s (.ok (some value)))) (v : Bool) :
    ((w.tree k).checking v order).load less s values =
      ((w.tree k).load less s values).within fun y => y.checking v order := by
  induction values generalizing w ts s with
  | nil => rfl
  | cons value values ih =>
    have hvalue := hr value (by simp) s
    have hfirst := h.insert_transparent hverify hkeeps hvalue v
    obtain ⟨u, hm, hkeeps'⟩ := h.step_keepsOrder hkeeps hvalue
    simp only [Request.run] at hm hkeeps'
    -- the values still to come meet the tree that the first insertion has left
    generalize hrun : (w.tree k).insert (less.comparator value) s (.ok (some value)) = first at hm hkeeps' hfirst
    cases hresult : first.outcome.result with
    | error e =>
      subst hrun
      rw [LinkedTree.load_cons_of_error hresult, LinkedTree.load_cons_of_error (by rw [hfirst]; exact hresult),
        hfirst]
      rfl
    | ok placement =>
      have hself : (w.put k first.outcome.state).tree k = first.outcome.state := tree_put_self _ _ _
      have hrest := ih (s := first.state) (hm.sound h) (by rw [hself, hm.alike.verify_eq, hverify])
        (by rwa [hself, Function.update_self]) fun value hvalue => hr value (List.mem_cons_of_mem _ hvalue)
      rw [hself] at hrest
      rw [LinkedTree.load_cons_of_ok hrun hresult, LinkedTree.load_cons_of_ok hfirst hresult]
      simp only [Outcome.within] at hrest ⊢
      simp only [hrest]

/-- A request that keeps to the order has the same reply from a tree with a check, and does the same. -/
theorem request_transparent {r : Request α n} (h : w.Sound ts) (hverify : (w.tree k).tree.verify = false)
    (hkeeps : (w.tree k).KeepsOrder (ts k) order P) (hr : P r) (v : Bool) :
    r.reply ((w.tree k).checking v order) = r.reply (w.tree k) ∧
      r.run ((w.tree k).checking v order) = (r.run (w.tree k)).checking v order := by
  cases r with
  | insert c s supply =>
    have hinsert := h.insert_transparent hverify hkeeps hr v
    simp only [Request.reply, Request.run, hinsert]
    exact ⟨rfl, rfl⟩
  | erase target =>
    have herase := h.erase_transparent hverify hkeeps hr v
    simp only [Request.reply, Request.run, herase]
    exact ⟨rfl, rfl⟩
  | load less s values =>
    have hkeeps' : (w.tree k).KeepsOrder (ts k) order fun r =>
        ∃ value ∈ values, ∃ s, r = .insert (less.comparator value) s (.ok (some value)) := by
      refine hkeeps.imp ?_
      rintro lt hrespects - ⟨value, hvalue, s', rfl⟩ a b hsupply hb
      obtain rfl := Option.some.inj (Except.ok.inj hsupply)
      exact hrespects _ hr value hvalue b hb
    have hload := h.load_transparent (s := s) hverify hkeeps' (fun value hvalue s => ⟨value, hvalue, s, rfl⟩) v
    simp only [Request.reply, Request.run, hload]
    exact ⟨rfl, rfl⟩
  | clear => exact ⟨rfl, rfl⟩

/-- An operation that keeps to the order has the same reply from a tree with a check, and does the same. -/
theorem operation_transparent {op : Operation α n} (h : w.Sound ts) (hverify : (w.tree k).tree.verify = false)
    (hkeeps : (w.tree k).KeepsOrder (ts k) order P) (hop : ∀ r, op = .change r → P r) (v : Bool) :
    op.reply ((w.tree k).checking v order) = op.reply (w.tree k) ∧
      op.after ((w.tree k).checking v order) = (op.after (w.tree k)).checking v order := by
  cases hquestion : op.isQuestion with
  | true =>
    refine ⟨(w.tree k).resembles_checking.reply_eq hquestion ?_, ?_⟩
    · cases op <;> simp [Operation.Within]
    · cases op with
      | change => cases hquestion
      | _ => rfl
  | false =>
    cases op with
    | change r => exact h.request_transparent hverify hkeeps (hop r rfl) v
    | _ => cases hquestion

/-- After an operation that keeps to the order, the requests still to come keep to it in every tree. -/
theorem operate_keepsOrder {op : Operation α n} {order : Fin m → Option (α → α → Ordering)}
    {P : Fin m → Request α n → Prop} (h : w.Sound ts)
    (hkeeps : ∀ j, (w.tree j).KeepsOrder (ts j) (order j) (P j)) (hop : ∀ r, op = .change r → P k r) :
    ∃ u, w.Moves ts k (op.after (w.tree k)) u ∧
      ∀ j, ((w.operate k op).tree j).KeepsOrder (Function.update ts k u j) (order j) (P j) := by
  have hself : ∃ u, w.Moves ts k (op.after (w.tree k)) u ∧
      (op.after (w.tree k)).KeepsOrder u (order k) (P k) := by
    cases op with
    | change r => exact h.step_keepsOrder (hkeeps k) (hop r rfl)
    | _ => exact ⟨_, .refl h k, hkeeps k⟩
  obtain ⟨u, hm, hkeeps'⟩ := hself
  refine ⟨u, hm, fun j => ?_⟩
  by_cases hj : j = k
  · subst hj
    rwa [operate, tree_put_self, Function.update_self]
  · rw [Function.update_of_ne hj, operate, tree_put_of_ne w hj]
    exact (hkeeps j).congr rfl hm.edit.owner

/-- Operations that keep to the orders have the same replies from a world with checks, and do the same. -/
theorem operateAll_transparent {order : Fin m → Option (α → α → Ordering)} {P : Fin m → Request α n → Prop}
    {ops : List (Fin m × Operation α n)} (h : w.Sound ts) (hverify : ∀ k, (w.tree k).tree.verify = false)
    (hkeeps : ∀ k, (w.tree k).KeepsOrder (ts k) (order k) (P k))
    (hops : ∀ k r, (k, .change r) ∈ ops → P k r) (v : Fin m → Bool) :
    (w.checking v order).replies ops = w.replies ops ∧
      (w.checking v order).operateAll ops = (w.operateAll ops).checking v order := by
  induction ops generalizing w ts with
  | nil => exact ⟨rfl, rfl⟩
  | cons op ops ih =>
    obtain ⟨k, op⟩ := op
    have hop : ∀ r, op = .change r → P k r := by
      rintro r rfl
      exact hops k r (by simp)
    obtain ⟨hreply, hafter⟩ := h.operation_transparent (hverify k) (hkeeps k) hop (v k)
    obtain ⟨u, hm, hkeeps'⟩ := h.operate_keepsOrder hkeeps hop
    have hverify' : ∀ j, ((w.operate k op).tree j).tree.verify = false := fun j =>
      (w.put_alike hm.alike j).verify_eq.trans (hverify j)
    obtain ⟨hreplies, hend⟩ := ih (hm.sound h) hverify' hkeeps' fun j r hr => hops j r (by simp [hr])
    have hoperate : (w.checking v order).operate k op = (w.operate k op).checking v order := by
      rw [operate, operate, ← put_checking, ← hafter, tree_checking]
    rw [operateAll_cons, operateAll_cons, replies, replies, hoperate, tree_checking, hreply]
    exact ⟨congrArg _ hreplies, hend⟩

/--
An insertion that succeeds without a check is checked exactly with it: it fails if it links an element and leaves a
disorder.
-/
theorem insert_checked {σ : Type} {c : Comparator σ α} {s : σ} {supply : Except String (Option α)}
    {placement : Placement n} (h : w.Sound ts) (hverify : (w.tree k).tree.verify = false)
    (hresult : ((w.tree k).insert c s supply).outcome.result = .ok placement)
    (order : Option (α → α → Ordering)) :
    LinkedTree.Checked order .insert (placement.inserted = true) ((w.tree k).insert c s supply).outcome
      (((w.tree k).checking true order).insert c s supply).outcome := by
  obtain ⟨u, hm⟩ := h.insert_moves k c s supply
  rw [LinkedTree.insert_checking hverify]
  exact hm.threads.checked hresult ((h.threads k).level_of_mem_insert hresult) order .insert (·.inserted)

/-- An erasure that succeeds without a check is checked exactly with it: it fails if it leaves a disorder. -/
theorem erase_checked {target : Target α n} {c : Cursor n} (h : w.Sound ts)
    (hverify : (w.tree k).tree.verify = false) (hresult : ((w.tree k).erase target).result = .ok c)
    (order : Option (α → α → Ordering)) :
    LinkedTree.Checked order .erase True ((w.tree k).erase target)
      (((w.tree k).checking true order).erase target) := by
  obtain ⟨u, hm⟩ := h.erase_moves k target
  rw [LinkedTree.erase_checking hverify]
  have hchecked := hm.threads.checked hresult (h.level_of_mem_erase hresult) order .erase fun _ => true
  simpa using hchecked

end Sound

end World

/-- Whether each change that succeeds in a tree without a check is checked exactly with it. -/
structure LinkedTree.ChecksExactly (x : LinkedTree α n) (order : Option (α → α → Ordering)) : Prop where
  insert : ∀ {σ : Type} (c : Comparator σ α) (s : σ) (supply : Except String (Option α))
    (placement : Placement n),
    ((x.checking false order).insert c s supply).outcome.result = .ok placement →
      Checked order .insert (placement.inserted = true) ((x.checking false order).insert c s supply).outcome
          ((x.checking true order).insert c s supply).outcome ∧
        ((x.checking true order).insert c s supply).visited = ((x.checking false order).insert c s supply).visited ∧
        ((x.checking true order).insert c s supply).made = ((x.checking false order).insert c s supply).made
  erase : ∀ (target : Target α n) (cursor : Cursor n),
    ((x.checking false order).erase target).result = .ok cursor →
      Checked order .erase True ((x.checking false order).erase target) ((x.checking true order).erase target)

namespace World

/--
In every state that requests reach from a fresh world, with any comparators, an insertion or erasure that
succeeds without a check is with it the same change of the same links, and finds an inconsistency exactly if
it links or unlinks an element and leaves two neighbours that do not increase in the order given. And a whole
run whose comparators are consistent with the orders given, if any, has the same replies and the same log
whichever trees check themselves.
-/
theorem checks_transparent {w : World α n m} (h : w.Fresh) :
    (∀ (rs : List (Fin m × Request α n)) (k : Fin m) (order : Option (α → α → Ordering)),
      ((w.run rs).tree k).ChecksExactly order) ∧
    ∀ (order : Fin m → Option (α → α → Ordering)) (ops : List (Fin m × Operation α n)),
      (∀ k f, order k = some f → ∃ lt : α → α → Prop, IsTrans α lt ∧ (∀ a b, lt a b → f a b = .lt) ∧
        ∀ r, (k, .change r) ∈ ops → r.Respects (w.tree k) lt) →
      ∀ v v', (w.checking v order).replies ops = (w.checking v' order).replies ops ∧
        ((w.checking v order).operateAll ops).checking v' order = (w.checking v' order).operateAll ops := by
  constructor
  · intro rs k order
    obtain ⟨ts, hsound⟩ := sound_run h rs
    have hoff := hsound.checking (fun _ => false) fun _ => order
    refine ⟨fun c s supply placement hresult => ⟨hoff.insert_checked (k := k) rfl hresult order, ?_⟩,
      fun target cursor hresult => hoff.erase_checked (k := k) rfl hresult order⟩
    have hon := LinkedTree.insert_checking (x := ((w.run rs).tree k).checking false order) rfl true order c s supply
    rw [LinkedTree.checking_checking] at hon
    rw [hon]
    exact ⟨rfl, rfl⟩
  · intro order ops hkeeps v v'
    have hoff := h.sound.checking (fun _ => false) order
    have hordered : ∀ k, ((w.checking (fun _ => false) order).tree k).KeepsOrder .empty (order k)
        fun r => (k, .change r) ∈ ops := by
      intro k f hf
      obtain ⟨lt, htrans, hlt, hrespects⟩ := hkeeps k f hf
      exact ⟨lt, htrans, hlt, List.Pairwise.nil, fun r hr => (hrespects r hr).congr rfl fun _ => rfl⟩
    have hrun := fun v : Fin m → Bool => hoff.operateAll_transparent (fun _ => rfl) hordered (fun _ _ hr => hr) v
    obtain ⟨hreplies, hend⟩ := hrun v
    obtain ⟨hreplies', hend'⟩ := hrun v'
    refine ⟨hreplies.trans hreplies'.symm, ?_⟩
    -- a world that checks nothing is the one that both are compared with
    have hagain : ∀ v, (w.checking (fun _ => false) order).checking v order = w.checking v order := fun v => rfl
    rw [hagain] at hend hend'
    rw [hend, hend']
    rfl

/-- The requests that insert the elements from the last one to the first, each behind all that are there. -/
def appendAll (n : Nat) : List (Fin 1 × Request (Fin n) (n + 1)) :=
  (List.finRange n).reverse.map fun a => (Fin.last 0, .insert (.ofOrdering fun _ => .gt) () (.ok (some a)))

/-- A tree that has linked the second of two elements. -/
def halfway : World (Fin 2) 3 1 :=
  (single 2).run ((appendAll 2).take 1)

/-- The tree after the first element has been placed last. -/
def reversed : World (Fin 2) 3 1 :=
  (single 2).run (appendAll 2)

/--
The check finds that insertion against the order; it finds nothing once one of the two elements is erased, and
nothing where both are inserted in order.
-/
theorem checks_transparent_pair :
    (single 2).Fresh ∧
      LinkedTree.IsInconsistency (((halfway.tree 0).checking true (some compare)).insert
        (.ofOrdering fun _ => .gt) () (.ok (some 0))).outcome.result ∧
      ¬ LinkedTree.IsInconsistency
        (((reversed.tree 0).checking true (some compare)).erase (.element 0)).result ∧
      ((single 2).checking (fun _ => true) fun _ => some (triState (· < ·))).replies
          [(0, .change (.insert (.ofOrdering (triState (· < ·) 1)) () (.ok (some 1)))),
            (0, .change (.insert (.ofOrdering (triState (· < ·) 0)) () (.ok (some 0)))), (0, .listing .right)] =
        ((single 2).checking (fun _ => false) fun _ => some (triState (· < ·))).replies
          [(0, .change (.insert (.ofOrdering (triState (· < ·) 1)) () (.ok (some 1)))),
            (0, .change (.insert (.ofOrdering (triState (· < ·) 0)) () (.ok (some 0)))), (0, .listing .right)] := by
  obtain ⟨hexact, hrun⟩ := checks_transparent (fresh_single 2)
  refine ⟨fresh_single 2, ?_, ?_, (hrun (fun _ => some (triState (· < ·))) _ ?_ _ _).1⟩
  · have hinsert : (((halfway.tree 0).checking false (some compare)).insert (.ofOrdering fun _ => .gt) ()
        (.ok (some 0))).outcome.result = .ok ⟨.on 1, true⟩ := by decide +kernel
    have hrest : (((halfway.tree 0).checking false (some compare)).insert (.ofOrdering fun _ => .gt) ()
        (.ok (some 0))).outcome.state.toList = .ok [1, 0] := by decide +kernel
    obtain ⟨as, hlist, hiff⟩ := ((hexact _ 0 (some compare)).insert _ _ _ _ hinsert).1.throws_iff
    obtain rfl := Except.ok.inj (hrest.symm.trans hlist)
    exact hiff.mpr ⟨rfl, compare, rfl, 1, 0, [], [], rfl, by decide⟩
  · have herase : (((reversed.tree 0).checking false (some compare)).erase (.element 0)).result =
        .ok (.on 0) := by decide +kernel
    have hrest : (((reversed.tree 0).checking false (some compare)).erase (.element 0)).state.toList =
        .ok [1] := by decide +kernel
    obtain ⟨as, hlist, hiff⟩ := ((hexact _ 0 (some compare)).erase _ _ herase).throws_iff
    obtain rfl := Except.ok.inj (hrest.symm.trans hlist)
    intro hthrows
    obtain ⟨-, f, -, a, b, xs, ys, hsplit, -⟩ := hiff.mp hthrows
    have hlength := congrArg List.length hsplit
    simp only [List.length_append, List.length_cons, List.length_nil] at hlength
    omega
  · intro k f hf
    obtain rfl := Option.some.inj hf
    refine ⟨(· < ·), inferInstance, fun a b hab => by simp [triState, hab], ?_⟩
    have hrespects : ∀ a : Fin 2, (Request.insert (.ofOrdering (triState (· < ·) a)) () (.ok (some a))).Respects
        ((single 2).tree k) (· < ·) := by
      intro a a' b ha hb
      obtain rfl := Option.some.inj (Except.ok.inj ha)
      obtain rfl : a = b := by simpa [single, tree, Links.owner, Links.get, Link.fresh] using hb
      exact Comparator.Answers.ranks fun _ _ => ⟨(), rfl⟩
    intro r hr
    simp only [List.mem_cons, Prod.mk.injEq, Operation.change.injEq, reduceCtorEq, and_false, List.not_mem_nil,
      or_false] at hr
    rcases hr with ⟨-, rfl⟩ | ⟨-, rfl⟩
    · exact hrespects 1
    · exact hrespects 0

/-- An insertion that finds a match in a tree that is out of order is no occasion for a check. -/
theorem match_unchecked :
    (((reversed.tree 0).checking false (some compare)).insert (.ofOrdering (compare 1)) ()
        (.ok (some 1))).outcome.result = .ok ⟨.on 2, false⟩ ∧
      (((reversed.tree 0).checking false (some compare)).insert (.ofOrdering (compare 1)) ()
        (.ok (some 1))).outcome.state.toList = .ok [1, 0] ∧
      ¬ (LinkedTree.IsInconsistency (((reversed.tree 0).checking true (some compare)).insert
          (.ofOrdering (compare 1)) () (.ok (some 1))).outcome.result ↔
        Disordered (some compare) [(1 : Fin 2), 0]) := by
  refine ⟨by decide +kernel, by decide +kernel, ?_⟩
  have hmatch : (((reversed.tree 0).checking true (some compare)).insert (.ofOrdering (compare 1)) ()
      (.ok (some 1))).outcome.result = .ok ⟨.on 2, false⟩ := by decide +kernel
  rw [hmatch]
  intro hiff
  obtain ⟨cause, hcause, -⟩ := hiff.mpr ⟨compare, rfl, 1, 0, [], [], rfl, by decide⟩
  cases hcause

end World

end BalancedLinks
