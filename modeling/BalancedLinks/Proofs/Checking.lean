import BalancedLinks.LogLine
import BalancedLinks.Proofs.Listing
import BalancedLinks.Proofs.Reading

/-!
# Trees that check themselves

A tree can be made to check itself after every change by which it links or unlinks an element. Whatever the
check finds, the change is the one that is made without it; and in a tree that threads a shape it can find one
thing only, two neighbours that do not increase in the order given. The outcome is then the violation, with
one more line in the log, and otherwise what it is without the check.

The main statements are `LinkedTree.insert_checking` and `LinkedTree.erase_checking`, a change with a check as
the change without one and a check after it, and `LinkedTree.Threads.checked`, what that comes to.
-/

set_option autoImplicit false

namespace BalancedLinks

variable {α : Type} {n : Nat}

/-! ## Reports -/

namespace Shape

/-- Settling after growth reports repairs only. -/
theorem level_of_mem_grown {fs : List (Frame n)} {t : Shape n} {e : Event} (h : e ∈ (grown fs t).1) :
    e.level = .trace := by
  induction fs generalizing t with
  | nil => cases h
  | cons f fs ih =>
    simp only [grown] at h
    split_ifs at h
    · cases h
    · rw [List.mem_singleton.mp h]
      rfl
    · exact ih h

/-- Settling after a shrinkage reports repairs only. -/
theorem level_of_mem_shrunk {fs : List (Frame n)} {t : Shape n} {e : Event} (h : e ∈ (shrunk fs t).1) :
    e.level = .trace := by
  induction fs generalizing t with
  | nil => cases h
  | cons f fs ih =>
    simp only [shrunk] at h
    split_ifs at h
    · rcases List.mem_cons.mp h with rfl | h
      · rfl
      · exact ih h
    · rw [List.mem_singleton.mp h]
      rfl
    · exact ih h
    · cases h

end Shape

/-! ## Disorder -/

/-- Whether an order is given and two neighbours in a sequence do not increase in it. -/
def Disordered (order : Option (α → α → Ordering)) (as : List α) : Prop :=
  ∃ f, order = some f ∧ ∃ a b xs ys, as = xs ++ a :: b :: ys ∧ f a b ≠ .lt

/-- Where there is disorder, there is an order that it is against. -/
theorem Disordered.exists_order {order : Option (α → α → Ordering)} {as : List α} (h : Disordered order as) :
    ∃ f, order = some f := by
  obtain ⟨f, hf, -⟩ := h
  exact ⟨f, hf⟩

/-- There is no disorder exactly if each element is below its successor. -/
theorem disordered_some_iff (f : α → α → Ordering) (as : List α) :
    Disordered (some f) as ↔ ¬ as.IsChain fun a b => f a b = .lt := by
  rw [List.isChain_iff_forall_rel_of_append_cons_cons]
  simp [Disordered]

namespace LinkedTree

variable {σ β : Type} {x y : LinkedTree α n} {v : Bool} {order : Option (α → α → Ordering)}

/-! ## Changing the check -/

/-- A tree looks the same to every question whatever it checks. -/
theorem resembles_checking (x : LinkedTree α n) : x.Resembles (fun _ => True) (x.checking v order) :=
  ⟨.refl _, trivial, rfl, rfl, fun _ => Or.inl trivial, rfl, rfl, rfl, rfl⟩

/-- A check finds two neighbours that do not increase, and nothing else. -/
theorem Threads.checkAfter_of_disordered {t : Shape n} (h : x.Threads t)
    (hdisordered : Disordered order (t.inorder.filterMap x.links.owner)) (change : Change) :
    (x.checking true order).checkAfter change =
      ⟨x.checking true order, [.violated change .notIncreasing], .error (.violation .notIncreasing)⟩ := by
  obtain ⟨f, rfl⟩ := hdisordered.exists_order
  have hchain := (disordered_some_iff f _).mp hdisordered
  have hasks : (x.checking true (some f)).tree.verify = true := rfl
  have horder : (x.checking true (some f)).tree.order = some f := rfl
  have hincreasing : (x.checking true (some f)).checkIncreasing f = .error (.violation .notIncreasing) :=
    ((h.checking true (some f)).checkIncreasing_eq f).trans (if_neg hchain)
  have hverify : (x.checking true (some f)).verify (some f) = .error (.violation .notIncreasing) := by
    rw [(h.checking true (some f)).verify_eq]
    simp only [hincreasing]
    rfl
  rw [checkAfter, if_pos hasks, horder, hverify]

/-- A check passes where the elements are in order. -/
theorem Threads.checkAfter_of_ordered {t : Shape n} (h : x.Threads t)
    (hordered : ¬ Disordered order (t.inorder.filterMap x.links.owner)) (v : Bool) (change : Change) :
    (x.checking v order).checkAfter change = .pure (x.checking v order) () := by
  refine (h.checking v order).checkAfter_eq change fun _ f hf => ?_
  obtain rfl : order = some f := hf
  exact not_not.mp (mt (disordered_some_iff f _).mpr hordered)

/-! ## A check after a change -/

/-- The outcome of a change with another check after it, if it is one that calls for a check. -/
def thenCheck (verify : Bool) (order : Option (α → α → Ordering)) (change : Change) (calls : β → Bool)
    (o : Outcome (LinkedTree α n) Event β) : Outcome (LinkedTree α n) Event β :=
  (o.within fun x => x.checking verify order).andThen fun x b =>
    if calls b then ((x.checkAfter change).keeping x.tree.keeps).map fun _ => b else .pure x b

/-- A change that has been reported without a check is the one with it, up to there. -/
theorem thenCheck_reported (hverify : y.tree.verify = false) (v : Bool) (order : Option (α → α → Ordering))
    {keep : Event → Bool} (hkeep : y.tree.keeps = keep) (change : Change) {calls : β → Bool} {b : β}
    (hcalls : calls b = true) (log : List Event) (e : Event) :
    Outcome.keeping keep
        ⟨y.checking v order, log ++ e :: ((y.checking v order).checkAfter change).log,
          ((y.checking v order).checkAfter change).result.map fun _ => b⟩ =
      thenCheck v order change calls (Outcome.keeping keep
        ⟨y, log ++ e :: (y.checkAfter change).log, (y.checkAfter change).result.map fun _ => b⟩) := by
  subst hkeep
  -- the check leaves the tree as it is, so that its log is all that it adds
  have hstate := checkAfter_state (y.checking v order) change
  rw [checkAfter_of_not_verify hverify, List.append_cons log e ((y.checking v order).checkAfter change).log]
  simp only [thenCheck, Outcome.keeping, Outcome.pure, Outcome.within, Except.map, Outcome.andThen_ok, hcalls,
    if_true, Outcome.map, hstate, List.filter_append]
  rfl

/-- A check that passes, if there is one, leaves the outcome as it is. -/
theorem thenCheck_of_passes {change : Change} {calls : β → Bool} {o : Outcome (LinkedTree α n) Event β}
    (h : ∀ b, o.result = .ok b → calls b = true →
      (o.state.checking v order).checkAfter change = .pure (o.state.checking v order) ()) :
    thenCheck v order change calls o = o.within fun y => y.checking v order := by
  obtain ⟨y, log, e | b⟩ := o
  · rfl
  · simp only [thenCheck, Outcome.within, Outcome.andThen_ok]
    split_ifs with hcalls
    · simp [h b rfl hcalls, Outcome.keeping, Outcome.map, Outcome.pure, Except.map]
    · simp [Outcome.pure]

/-- An insertion is the one without the check, which follows only where an element has been linked. -/
theorem insert_checking (hverify : x.tree.verify = false) (v : Bool) (order : Option (α → α → Ordering))
    (c : Comparator σ α) (s : σ) (supply : Except String (Option α)) :
    (x.checking v order).insert c s supply =
      { x.insert c s supply with
        outcome := thenCheck v order .insert (·.inserted) (x.insert c s supply).outcome } := by
  have hlink : ∀ l p side, ((x.checking v order).linkAt l p side).keeping x.tree.keeps =
      thenCheck v order .insert (·.inserted) ((x.linkAt l p side).keeping x.tree.keeps) := by
    intro l p side
    cases hsettle : (x.links.hang l p side).settleGrowth l with
    | mk g log result =>
      cases result with
      | error e =>
        simp only [linkAt, checking, resized, hsettle]
        rfl
      | ok _ =>
        have hsettle' : ((x.checking v order).links.hang l p side).settleGrowth l = ⟨g, log, .ok ()⟩ := hsettle
        have hquiet : (x.resized g 1).tree.verify = false := hverify
        rw [linkAt_of_settled hsettle', linkAt_of_settled hsettle]
        exact thenCheck_reported hquiet v order rfl .insert rfl log _
  simp only [insert, checking_links, checking_origin, checking_keeps]
  split
  · rfl
  · rfl
  · rfl
  · simp only [supplyAt, checking_linkOf, checking_refuses?]
    split
    · rfl
    · rfl
    · split
      · rfl
      · rw [hlink]

/-- To unlink takes no notice of the check. -/
theorem unlink_checking (x : LinkedTree α n) (v : Bool) (order : Option (α → α → Ordering)) (l : LinkId n) :
    (x.checking v order).unlink l = (x.unlink l).within fun y => y.checking v order := by
  simp only [unlink, checking_links]
  split
  · rfl
  · split <;> rfl

/-- An erasure is the one without the check, which follows where an element has been unlinked. -/
theorem erase_checking (hverify : x.tree.verify = false) (v : Bool) (order : Option (α → α → Ordering))
    (target : Target α n) :
    (x.checking v order).erase target = thenCheck v order .erase (fun _ => true) (x.erase target) := by
  have herasable : (x.checking v order).erasable target = x.erasable target := by
    cases target <;> rfl
  simp only [erase, checking_links, checking_keeps, herasable]
  split
  · rfl
  split
  · rfl
  rename_i l _ _ next _
  have halike := x.unlink_alike l
  cases hunlink : x.unlink l with
  | mk y log result =>
    rw [hunlink] at halike
    cases result with
    | error e =>
      simp only [eraseLink, unlink_checking, hunlink]
      rfl
    | ok _ =>
      have hunlink' : (x.checking v order).unlink l = ⟨y.checking v order, log, .ok ()⟩ := by
        rw [unlink_checking, hunlink]
        rfl
      rw [eraseLink_of_unlink hunlink', eraseLink_of_unlink hunlink]
      exact thenCheck_reported (halike.verify_eq.trans hverify) v order halike.keeps_eq .erase rfl log _

/-! ## Changes without and with a check -/

/-- Whether a result is an inconsistency of the links, and no failure of the caller's. -/
def IsInconsistency (result : Except Failure β) : Prop :=
  ∃ cause, result = .error (.violation cause) ∧ cause.cls = .invariantViolation

/--
How a change that succeeds without a check after it compares with the same change with the check, where
`mutates` says whether it links or unlinks an element. The links and the size are the same. An inconsistency
is found exactly if the change mutates the tree and leaves two neighbours that do not increase; its text and
its line in the log are then fixed, and that line is the only one of its level.
-/
structure Checked (order : Option (α → α → Ordering)) (change : Change) (mutates : Prop)
    (off on : Outcome (LinkedTree α n) Event β) : Prop where
  state : on.state = off.state.checking true order
  throws_iff : ∃ as, off.state.toList = .ok as ∧
    (IsInconsistency on.result ↔ mutates ∧ Disordered order as)
  traces : ∀ e ∈ off.log, e.level = .trace
  thrown : ∀ cause, on.result = .error (.violation cause) →
    cause.message = "In-order traversal is not strictly increasing" ∧
      on.log = off.log ++ [Event.violated change cause].filter off.state.tree.keeps ∧
      (Event.violated change cause).line =
        { level := .error
          fields := [("operation", .text change.name), ("reason", .text cause.message)]
          message := "AVL invariant violated" }
  passed : ¬ IsInconsistency on.result → on.result = off.result ∧ on.log = off.log

/-- A change that succeeds in a tree that threads a shape, and reports no violation, is checked exactly. -/
theorem Threads.checked {t : Shape n} {o : Outcome (LinkedTree α n) Event β} {b : β} (h : o.state.Threads t)
    (hresult : o.result = .ok b) (htraces : ∀ e ∈ o.log, e.level = .trace)
    (order : Option (α → α → Ordering)) (change : Change) (calls : β → Bool) :
    Checked order change (calls b = true) o (thenCheck true order change calls o) := by
  have hlist : o.state.toList = .ok (t.inorder.filterMap o.state.links.owner) := h.collect_eq .right
  have hsound : ∀ cause, o.result ≠ .error (.violation cause) := by
    intro cause hcause
    cases hresult.symm.trans hcause
  by_cases hthrows : calls b = true ∧ Disordered order (t.inorder.filterMap o.state.links.owner)
  -- the check is made, and finds the two neighbours
  · have hcheck := h.checkAfter_of_disordered hthrows.2 change
    have hthen : thenCheck true order change calls o =
        ⟨o.state.checking true order, o.log ++ [Event.violated change .notIncreasing].filter o.state.tree.keeps,
          .error (.violation .notIncreasing)⟩ := by
      obtain ⟨y, log, result⟩ := o
      obtain rfl := hresult
      simp only [thenCheck, Outcome.within, Outcome.andThen_ok, hthrows.1, if_true, hcheck, Outcome.keeping,
        Outcome.map, Except.map, checking_keeps]
    rw [hthen]
    refine ⟨rfl, ⟨_, hlist, iff_of_true ⟨_, rfl, rfl⟩ hthrows⟩, htraces, ?_, ?_⟩
    · rintro cause ⟨⟩
      exact ⟨rfl, rfl, rfl⟩
    · intro hpassed
      exact absurd ⟨_, rfl, rfl⟩ hpassed
  -- no check is made, or it passes
  · have hthen : thenCheck true order change calls o = o.within fun y => y.checking true order := by
      refine thenCheck_of_passes fun b' hb' hcalls => h.checkAfter_of_ordered ?_ true change
      obtain rfl : b' = b := Except.ok.inj (hb'.symm.trans hresult)
      exact fun hdisordered => hthrows ⟨hcalls, hdisordered⟩
    rw [hthen]
    refine ⟨rfl, ⟨_, hlist, iff_of_false ?_ hthrows⟩, htraces, ?_, fun _ => ⟨rfl, rfl⟩⟩
    · rintro ⟨cause, hcause, -⟩
      exact hsound cause hcause
    · intro cause hcause
      exact absurd hcause (hsound cause)

/-! ## Changes that succeed -/

/-- A check that passes reports nothing. -/
theorem checkAfter_log_eq_nil {change : Change} (h : (x.checkAfter change).result = .ok ()) :
    (x.checkAfter change).log = [] := by
  unfold checkAfter at h ⊢
  split_ifs at h ⊢
  · split at h
    · rfl
    · cases h
    · cases h
  · rfl

/-- A change with a check after it has passed the check if it has succeeded. -/
theorem checkAfter_log_of_map {change : Change} {f : Unit → β} {b : β}
    (h : (x.checkAfter change).result.map f = .ok b) : (x.checkAfter change).log = [] := by
  cases hresult : (x.checkAfter change).result with
  | ok _ => exact checkAfter_log_eq_nil hresult
  | error e =>
    rw [hresult] at h
    cases h

/-- An insertion that succeeds reports no violation. -/
theorem Threads.level_of_mem_insert {t : Shape n} (h : x.Threads t) {c : Comparator σ α} {s : σ}
    {supply : Except String (Option α)} {placement : Placement n}
    (hresult : (x.insert c s supply).outcome.result = .ok placement) :
    ∀ e ∈ (x.insert c s supply).outcome.log, e.level = .trace := by
  have hends := h.inserts c s supply
  generalize x.insert c s supply = r at hends hresult
  intro e he
  cases hends with
  | linked =>
    simp only [checkAfter_log_of_map hresult, List.mem_filter, List.mem_append, List.mem_singleton] at he
    rcases he.1 with he | rfl
    · exact Shape.level_of_mem_grown he
    · rfl
  | _ => cases he

end LinkedTree

namespace World.Sound

variable {σ : Type} {m : Nat} {w : World α n m} {ts : Fin m → Shape n} {k : Fin m}

/-- An erasure that succeeds reports no violation. -/
theorem level_of_mem_erase (h : w.Sound ts) {target : Target α n} {c : Cursor n}
    (hresult : ((w.tree k).erase target).result = .ok c) :
    ∀ e ∈ ((w.tree k).erase target).log, e.level = .trace := by
  have hends := h.erases k target
  generalize (w.tree k).erase target = r at hends hresult
  intro e he
  cases hends with
  | refused => cases he
  | erased =>
    simp only [LinkedTree.checkAfter_log_of_map hresult, List.mem_filter, List.mem_append,
      List.mem_singleton] at he
    rcases he.1 with he | rfl
    · exact Shape.level_of_mem_shrunk he
    · rfl

/-- A load that succeeds reports no violation: each of its insertions has succeeded. -/
theorem level_of_mem_load {less : Less σ α} {s : σ} {values : List α} {count : Nat} (h : w.Sound ts)
    (hresult : ((w.tree k).load less s values).result = .ok count) :
    ∀ e ∈ ((w.tree k).load less s values).log, e.level = .trace := by
  induction values generalizing w ts s count with
  | nil =>
    intro e he
    cases he
  | cons value values ih =>
    obtain ⟨u, hm⟩ := h.insert_moves k (less.comparator value) s (.ok (some value))
    cases hfirst : ((w.tree k).insert (less.comparator value) s (.ok (some value))).outcome.result with
    | error e =>
      rw [LinkedTree.load_cons_of_error hfirst] at hresult
      cases hresult
    | ok placement =>
      rw [LinkedTree.load_cons_of_ok rfl hfirst] at hresult ⊢
      have htraces := (h.threads k).level_of_mem_insert hfirst
      generalize (w.tree k).insert (less.comparator value) s (.ok (some value)) = r at hm hresult htraces ⊢
      cases hrest : (r.outcome.state.load less r.state values).result with
      | error e =>
        rw [hrest] at hresult
        cases hresult
      | ok rest =>
        have hlater := @ih _ _ r.state rest (hm.sound h)
        rw [tree_put_self] at hlater
        intro e he
        rcases List.mem_append.mp he with he | he
        · exact htraces e he
        · exact hlater hrest e he

end World.Sound

end BalancedLinks
