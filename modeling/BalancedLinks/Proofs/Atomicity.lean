import BalancedLinks.Proofs.Listing
import BalancedLinks.Proofs.World

/-!
# Refusals and atomicity

In a sound world whose trees do not check themselves, an operation fails only by its caller's fault: it is
refused because of what it was given, or a function of the caller failed. Which requests are refused is
decided by the links that the trees thread, and a request that fails or declines changes nothing.

The main statement is `World.atomic_run`.
-/

set_option autoImplicit false

namespace BalancedLinks

/-- Whether a failure is the caller's: a broken contract, or a failure of a function that the caller gave. -/
def Failure.IsCallers : Failure → Prop
  | .violation cause => cause.cls = .precondition
  | .callback _ => True
  | .endless => False

/-- Whether a result can only be kept back by a failure of the caller's. -/
def BlamesCaller {β : Type} (r : Except Failure β) : Prop :=
  ∀ e, r = .error e → e.IsCallers

/-- Whether a result is the refusal of a request that breaks a contract. -/
def IsRefusal {β : Type} (r : Except Failure β) : Prop :=
  ∃ cause, r = .error (.violation cause) ∧ cause.cls = .precondition

/-- Of a success nobody is to blame. -/
theorem blamesCaller_ok {β : Type} {r : Except Failure β} {b : β} (h : r = .ok b) : BlamesCaller r := by
  rintro e rfl
  cases h

/-- What is made of a result fails as the result does. -/
theorem BlamesCaller.map {β γ : Type} {r : Except Failure β} (h : BlamesCaller r) (f : β → γ) :
    BlamesCaller (r.map f) := by
  cases r with
  | error e =>
    intro e' he
    obtain rfl : e = e' := Except.error.inj (show (.error e : Except Failure γ) = .error e' from he)
    exact h e rfl
  | ok b => exact blamesCaller_ok rfl

namespace LinkedTree

variable {σ α : Type} {n : Nat} {x : LinkedTree α n}

/-- Only a link's tag or its place can keep it from joining, and either is a broken contract. -/
theorem precondition_of_refuses? {l : LinkId n} {cause : Violation} (h : x.refuses? l = some cause) :
    cause.cls = .precondition := by
  unfold refuses? at h
  split_ifs at h with htag hlinked
  · obtain rfl := Option.some.inj h
    rfl
  · obtain rfl := Option.some.inj h
    rfl

/-- The caller is asked for an element exactly if the search misses. -/
theorem Threads.made_eq_one_iff {t : Shape n} (h : x.Threads t) (c : Comparator σ α) (s : σ)
    (supply : Except String (Option α)) :
    (x.insert c s supply).made = 1 ↔ (x.locate c s).result = .ok none := by
  have hends := h.carries.search_concludes h.owned c s
  simp only [insert, locate]
  generalize x.links.search c s x.origin = r at hends
  cases hends <;> simp

end LinkedTree

namespace World

variable {α : Type} {n m : Nat} {w : World α n m} {ts : Fin m → Shape n} {k : Fin m}

namespace Sound

/-! ## Insertions -/

section Insertions

variable {σ : Type} {c : Comparator σ α} {s : σ} {supply : Except String (Option α)}

/-- Without checks, an insertion that does not link leaves its tree as it was. -/
theorem insert_kept (h : w.Sound ts) (hv : (w.trees k).verify = false)
    (hresult : ∀ l, ((w.tree k).insert c s supply).outcome.result ≠ .ok ⟨l, true⟩) :
    ((w.tree k).insert c s supply).outcome.state = w.tree k := by
  have hends := (h.threads k).inserts c s supply
  generalize (w.tree k).insert c s supply = r at hends hresult
  cases hends with
  | @linked fs as s a g =>
    have hquiet : ((w.tree k).resized g 1).tree.verify = false := hv
    refine absurd ?_ (hresult (.on ((w.tree k).tree.linkOf a)))
    rw [LinkedTree.checkAfter_of_not_verify hquiet]
    rfl
  | _ => rfl

/-- Without checks, only the caller can make an insertion fail. -/
theorem insert_blamesCaller (h : w.Sound ts) (hv : (w.trees k).verify = false) :
    BlamesCaller ((w.tree k).insert c s supply).outcome.result := by
  have hends := (h.threads k).inserts c s supply
  generalize (w.tree k).insert c s supply = r at hends
  intro e he
  cases hends with
  | found => cases he
  | declined => cases he
  | failed | unsupplied =>
    obtain rfl := Except.error.inj he
    trivial
  | refused _ _ _ hrefuse =>
    obtain rfl := Except.error.inj he
    exact LinkedTree.precondition_of_refuses? hrefuse
  | @linked fs as s a g =>
    have hquiet : ((w.tree k).resized g 1).tree.verify = false := hv
    rw [LinkedTree.checkAfter_of_not_verify hquiet] at he
    cases he

/--
Without checks, an insertion is refused exactly if its search misses and the link of the element supplied
carries another tag, has no owner or hangs in a tree, be it this one or another.
-/
theorem insert_refusal_iff (h : w.Sound ts) (hv : (w.trees k).verify = false) :
    IsRefusal ((w.tree k).insert c s supply).outcome.result ↔
      ((w.tree k).locate c s).result = .ok none ∧ ∃ a, supply = .ok (some a) ∧
        (w.links.tag ((w.trees k).linkOf a) ≠ (w.trees k).tag ∨
          w.links.owner ((w.trees k).linkOf a) = none ∨ ∃ j, (w.trees k).linkOf a ∈ (ts j).inorder) := by
  have hjoin : ∀ a, (w.links.tag ((w.trees k).linkOf a) ≠ (w.trees k).tag ∨
      w.links.owner ((w.trees k).linkOf a) = none ∨ ∃ j, (w.trees k).linkOf a ∈ (ts j).inorder) ↔
      (w.tree k).refuses? ((w.tree k).tree.linkOf a) ≠ none := by
    intro a
    refine Iff.trans ?_ (not_congr (h.refuses?_eq_none_iff (k := k) _)).symm
    simp only [tree]
    push Not
    tauto
  simp only [hjoin]
  rw [← (h.threads k).made_eq_one_iff c s supply]
  have hends := (h.threads k).inserts c s supply
  generalize (w.tree k).insert c s supply = r at hends
  unfold IsRefusal
  cases hends with
  | found => simp [Outcome.pure]
  | failed => simp [Outcome.fail]
  | unsupplied _ _ hsupply => simp [Outcome.fail, hsupply]
  | declined _ _ hsupply => simp [Outcome.pure, hsupply]
  | refused _ _ hsupply hrefuse =>
    have hcls := LinkedTree.precondition_of_refuses? hrefuse
    simp [Outcome.fail, hsupply, hrefuse, hcls]
  | @linked fs as s a g _ _ hsupply hrefuse =>
    have hquiet : ((w.tree k).resized g 1).tree.verify = false := hv
    rw [LinkedTree.checkAfter_of_not_verify hquiet]
    simp [Outcome.pure, Except.map, hsupply, hrefuse]

end Insertions

/-! ## Erasures -/

/-- Without checks, an erasure is refused exactly if its target stands for no link that the tree threads. -/
theorem erase_cases (h : w.Sound ts) (hv : (w.trees k).verify = false) (target : Target α n) :
    (IsRefusal ((w.tree k).erase target).result ∧ ((w.tree k).erase target).state = w.tree k ∧
        ∀ l, (w.tree k).linkOfTarget target = some l → l ∉ (ts k).inorder) ∨
      ∃ l c, (w.tree k).linkOfTarget target = some l ∧ l ∈ (ts k).inorder ∧
        ((w.tree k).erase target).result = .ok c := by
  have hends := h.erases k target
  generalize (w.tree k).erase target = r at hends
  cases hends with
  | refused _ hcause hout => exact Or.inl ⟨⟨_, rfl, hcause⟩, rfl, hout⟩
  | @erased l xs ys fs d g hlink hsplit =>
    have hquiet : ((w.tree k).resized g (-1)).tree.verify = false := hv
    refine Or.inr ⟨l, .on (ys.head?.getD (w.trees k).origin), hlink, by simp [hsplit], ?_⟩
    rw [LinkedTree.checkAfter_of_not_verify hquiet]
    rfl

/-- Without checks, an erasure succeeds exactly if its target stands for a link that the tree threads. -/
theorem erase_ok_iff (h : w.Sound ts) (hv : (w.trees k).verify = false) (target : Target α n) :
    (∃ c, ((w.tree k).erase target).result = .ok c) ↔
      ∃ l, (w.tree k).linkOfTarget target = some l ∧ l ∈ (ts k).inorder := by
  rcases h.erase_cases hv target with ⟨⟨cause, hrefused, -⟩, -, hout⟩ | ⟨l, c, hlink, hl, hok⟩
  · rw [hrefused]
    constructor
    · rintro ⟨c, hc⟩
      cases hc
    · rintro ⟨l, hlink, hl⟩
      exact absurd hl (hout l hlink)
  · exact ⟨fun _ => ⟨l, hlink, hl⟩, fun _ => ⟨c, hok⟩⟩

/--
An erasure is refused exactly for a cursor on nothing, for the tree's origin and for a link that the tree does not
thread.
-/
theorem erase_refusal_iff (h : w.Sound ts) (hv : (w.trees k).verify = false) (target : Target α n) :
    IsRefusal ((w.tree k).erase target).result ↔
      (w.tree k).linkOfTarget target = none ∨
        ∃ l, (w.tree k).linkOfTarget target = some l ∧ (l = (w.trees k).origin ∨ l ∉ (ts k).inorder) := by
  rcases h.erase_cases hv target with ⟨hrefusal, -, hout⟩ | ⟨l, c, hlink, hl, hok⟩
  · apply iff_of_true hrefusal
    cases hlink : (w.tree k).linkOfTarget target with
    | none => exact Or.inl rfl
    | some l => exact Or.inr ⟨l, rfl, Or.inr (hout l hlink)⟩
  · apply iff_of_false
    · rintro ⟨cause, hcause, -⟩
      rw [hok] at hcause
      cases hcause
    · rw [hlink]
      rintro (hnone | ⟨i, hi, horigin | hnot⟩)
      · cases hnone
      · obtain rfl := Option.some.inj hi
        exact h.origin_not_mem k k (horigin ▸ hl)
      · obtain rfl := Option.some.inj hi
        exact hnot hl

/-- An element is in a tree exactly if the tree threads its link. -/
theorem contains_eq (h : w.Sound ts) (k : Fin m) (a : α) :
    (w.tree k).contains a = .ok (decide ((w.trees k).linkOf a ∈ (ts k).inorder)) :=
  h.owns_eq k _

/-! ## Loads -/

/--
Without checks, a load that fails does so at one of its values, and leaves what the values before it alone
would have left.
-/
theorem load_failed {σ : Type} (h : w.Sound ts) (hv : (w.trees k).verify = false) {less : Less σ α} {s : σ}
    {values : List α} {e : Failure} (he : ((w.tree k).load less s values).result = .error e) :
    ∃ before value after count s',
      values = before ++ value :: after ∧ ((w.tree k).load less s before).result = .ok count ∧
        ((w.tree k).load less s values).state = ((w.tree k).load less s before).state ∧
        (((w.tree k).load less s before).state.insert (less.comparator value) s'
          (.ok (some value))).outcome.result = .error e := by
  induction values generalizing w ts s with
  | nil => cases he
  | cons value values ih =>
    cases hfirst : ((w.tree k).insert (less.comparator value) s (.ok (some value))).outcome.result with
    | error failure =>
      have hload : (w.tree k).load less s (value :: values) = _ := LinkedTree.load_cons_of_error hfirst
      rw [hload] at he
      obtain rfl := Except.error.inj he
      refine ⟨[], value, values, 0, s, rfl, rfl, ?_, hfirst⟩
      rw [hload]
      exact h.insert_kept hv fun l hl => absurd (hfirst.symm.trans hl) (by simp)
    | ok placement =>
      obtain ⟨us, hsound⟩ : ∃ us, (w.put k
          ((w.tree k).insert (less.comparator value) s (.ok (some value))).outcome.state).Sound us :=
        h.step k (.insert (less.comparator value) s (.ok (some value)))
      generalize hr : (w.tree k).insert (less.comparator value) s (.ok (some value)) = r at hfirst hsound
      have hload : ∀ vs, (w.tree k).load less s (value :: vs) = _ :=
        fun vs => LinkedTree.load_cons_of_ok hr hfirst
      have halike := (w.tree k).insert_alike (less.comparator value) s (.ok (some value))
      have hquiet : ((w.put k r.outcome.state).trees k).verify = false := by
        rw [hr] at halike
        simpa [World.put] using halike.verify_eq.trans hv
      have hrest := ih (s := r.state) hsound hquiet
      simp only [tree_put_self] at hrest
      simp only [hload] at he ⊢
      obtain ⟨before, v, after, count, s', hvalues, hok, hstate, hfails⟩ := hrest (by
        cases hresult : (r.outcome.state.load less r.state values).result with
        | error failure =>
          rw [hresult] at he
          exact congrArg _ (Except.error.inj he)
        | ok count =>
          rw [hresult] at he
          cases he)
      refine ⟨value :: before, v, after, if placement.inserted then count + 1 else count, s',
        by simp [hvalues], ?_, ?_, ?_⟩
      all_goals simp only [hload, hok, Except.map]
      · exact hstate
      · exact hfails

/-- A load fails only as the insertion of one of its values does, and so by the caller's fault. -/
theorem load_blamesCaller {σ : Type} (h : w.Sound ts) (hv : (w.trees k).verify = false) (less : Less σ α)
    (s : σ) (values : List α) : BlamesCaller ((w.tree k).load less s values).result := by
  intro e he
  obtain ⟨before, value, after, count, s', -, hok, -, hfails⟩ := h.load_failed hv he
  obtain ⟨us, hsound⟩ : ∃ us, (w.put k ((w.tree k).load less s before).state).Sound us :=
    h.step k (.load less s before)
  have hquiet : ((w.put k ((w.tree k).load less s before).state).trees k).verify = false := by
    simpa [World.put] using ((w.tree k).load_alike less s before).verify_eq.trans hv
  have hblames : BlamesCaller (((w.put k ((w.tree k).load less s before).state).tree k).insert
      (less.comparator value) s' (.ok (some value))).outcome.result := hsound.insert_blamesCaller hquiet
  rw [tree_put_self] at hblames
  exact hblames e hfails

/-! ## Reading -/

/-- From every link of a sound world there is a next one in either direction. -/
theorem exists_step (h : w.Sound ts) (l : LinkId n) (s : Side) : ∃ next, w.links.step l s = some next := by
  by_cases htree : ∃ j, l ∈ (ts j).inorder
  · obtain ⟨j, hj⟩ := htree
    obtain ⟨xs, ys, hsplit⟩ := List.append_of_mem ((Shape.mem_linksTowards s (ts j) l).mpr hj)
    exact ⟨_, (h.threads j).carries.step_eq hsplit⟩
  by_cases horigin : ∃ j, l = (w.trees j).origin
  · obtain ⟨j, rfl⟩ := horigin
    cases s with
    | left => exact ⟨_, (h.threads j).carries.predecessor_origin⟩
    | right => exact ⟨_, (h.threads j).carries.successor_origin⟩
  obtain ⟨hparent, hchild⟩ := h.loose fun j => ⟨fun heq => horigin ⟨j, heq⟩, fun hl => htree ⟨j, hl⟩⟩
  refine ⟨l, ?_⟩
  cases s with
  | right => exact Links.successor_of_parent_none hparent
  | left => exact Links.neighbour_of_loose hparent (hchild .left)

/-- A search fails only where its comparator does. -/
theorem locate_blamesCaller {σ : Type} (h : w.Sound ts) (k : Fin m) (c : Comparator σ α) (s : σ) :
    BlamesCaller ((w.tree k).locate c s).result := by
  rcases (h.threads k).locate_cases c s with
    ⟨_, _, _, -, -, hr⟩ | ⟨_, _, _, _, _, _, l, _, -, -, -, -, hr⟩ | ⟨_, _, _, -, hr⟩
  · exact blamesCaller_ok hr
  · exact blamesCaller_ok hr
  · intro e he
    rw [hr] at he
    obtain rfl := Except.error.inj he
    trivial

end Sound

/-! ## Requests to a reachable world -/

/--
What a tree of a world promises about failures, where `ts` says which links each tree of the world threads:
which requests it refuses, that only the caller can make anything fail, and that a request that does not
succeed changes nothing.
-/
structure Atomic (w : World α n m) (ts : Fin m → Shape n) (k : Fin m) : Prop where
  insert_refusal_iff : ∀ {σ : Type} (c : Comparator σ α) (s : σ) (supply : Except String (Option α)),
    IsRefusal ((w.tree k).insert c s supply).outcome.result ↔
      ((w.tree k).locate c s).result = .ok none ∧ ∃ a, supply = .ok (some a) ∧
        (w.links.tag ((w.trees k).linkOf a) ≠ (w.trees k).tag ∨
          w.links.owner ((w.trees k).linkOf a) = none ∨ ∃ j, (w.trees k).linkOf a ∈ (ts j).inorder)
  insert_kept : ∀ {σ : Type} (c : Comparator σ α) (s : σ) (supply : Except String (Option α)),
    (∀ l, ((w.tree k).insert c s supply).outcome.result ≠ .ok ⟨l, true⟩) → w.step k (.insert c s supply) = w
  erase_refusal_iff : ∀ target, IsRefusal ((w.tree k).erase target).result ↔
    (w.tree k).linkOfTarget target = none ∨
      ∃ l, (w.tree k).linkOfTarget target = some l ∧ (l = (w.trees k).origin ∨ l ∉ (ts k).inorder)
  erase_kept : ∀ target e, ((w.tree k).erase target).result = .error e → w.step k (.erase target) = w
  erase_element_iff : ∀ a, (∃ c, ((w.tree k).erase (.element a)).result = .ok c) ↔
    (w.tree k).contains a = .ok true
  contains_iff : ∀ a, (w.tree k).contains a = .ok true ↔ (w.trees k).linkOf a ∈ (ts k).inorder
  load_failed : ∀ {σ : Type} (less : Less σ α) (s : σ) (values : List α) (e : Failure),
    ((w.tree k).load less s values).result = .error e →
      ∃ before value after count s',
        values = before ++ value :: after ∧ ((w.tree k).load less s before).result = .ok count ∧
          w.step k (.load less s values) = w.step k (.load less s before) ∧
          (((w.tree k).load less s before).state.insert (less.comparator value) s'
            (.ok (some value))).outcome.result = .error e
  insert_blames : ∀ {σ : Type} (c : Comparator σ α) (s : σ) (supply : Except String (Option α)),
    BlamesCaller ((w.tree k).insert c s supply).outcome.result
  erase_blames : ∀ target, BlamesCaller ((w.tree k).erase target).result
  load_blames : ∀ {σ : Type} (less : Less σ α) (s : σ) (values : List α),
    BlamesCaller ((w.tree k).load less s values).result
  find_blames : ∀ {σ : Type} (c : Comparator σ α) (s : σ),
    BlamesCaller ((w.tree k).find c s) ∧ BlamesCaller ((w.tree k).findElement c s)
  contains_blames : ∀ a, BlamesCaller ((w.tree k).contains a)
  extreme_blames : ∀ s, BlamesCaller ((w.tree k).extreme s)
  begin_blames : BlamesCaller (w.tree k).beginCursor
  collect_blames : ∀ s, BlamesCaller ((w.tree k).collect ⟨s, .unstarted⟩)
  cursor_blames : ∀ c : Cursor n, BlamesCaller (c.next w.links) ∧ BlamesCaller (c.previous w.links)
  read_blames : ∀ (c : Cursor n) (cause : Violation),
    c.value w.links = .error cause ∨ c.elementLink w.links = .error cause → cause.cls = .precondition

/-- In a sound world a tree that does not check itself keeps all of these promises. -/
theorem Sound.atomic (h : w.Sound ts) (hv : (w.trees k).verify = false) : w.Atomic ts k where
  insert_refusal_iff _ _ _ := h.insert_refusal_iff hv
  insert_kept _ _ _ hresult := by
    rw [World.step, Request.run, h.insert_kept hv hresult, put_tree]
  erase_refusal_iff := h.erase_refusal_iff hv
  erase_kept target e he := by
    rcases h.erase_cases hv target with ⟨-, hkept, -⟩ | ⟨l, c, -, -, hok⟩
    · rw [World.step, Request.run, hkept, put_tree]
    · cases hok.symm.trans he
  erase_element_iff a := by
    rw [h.erase_ok_iff hv, h.contains_eq]
    simp [LinkedTree.linkOfTarget, tree]
  contains_iff a := by
    rw [h.contains_eq]
    simp
  load_failed less s values e he := by
    obtain ⟨before, value, after, count, s', hvalues, hok, hstate, hfails⟩ := h.load_failed hv he
    exact ⟨before, value, after, count, s', hvalues, hok, congrArg (w.put k) hstate, hfails⟩
  insert_blames _ _ _ := h.insert_blamesCaller hv
  erase_blames target := by
    rcases h.erase_cases hv target with ⟨⟨cause, hcause, hcls⟩, -, -⟩ | ⟨l, c, -, -, hok⟩
    · intro e he
      rw [hcause] at he
      obtain rfl := Except.error.inj he
      exact hcls
    · exact blamesCaller_ok hok
  load_blames := h.load_blamesCaller hv
  find_blames c s := ⟨(h.locate_blamesCaller k c s).map _, (h.locate_blamesCaller k c s).map _⟩
  contains_blames a := blamesCaller_ok (h.contains_eq k a)
  extreme_blames s := blamesCaller_ok ((h.threads k).extreme_eq s)
  begin_blames := by
    have hfirst : (w.tree k).links.outermost (w.tree k).origin .left = some _ :=
      (h.threads k).carries.outermost_origin
    rw [LinkedTree.beginCursor, hfirst]
    exact blamesCaller_ok rfl
  collect_blames s := blamesCaller_ok ((h.threads k).collect_eq s)
  cursor_blames c := by
    unfold Cursor.next Cursor.previous
    cases c.link with
    | none => exact ⟨blamesCaller_ok rfl, blamesCaller_ok rfl⟩
    | some l =>
      obtain ⟨next, hnext⟩ := h.exists_step l .right
      obtain ⟨previous, hprevious⟩ := h.exists_step l .left
      simp only [Links.step] at hnext hprevious
      simp only [hnext, hprevious]
      exact ⟨blamesCaller_ok rfl, blamesCaller_ok rfl⟩
  read_blames c cause hcause := by
    unfold Cursor.value Cursor.elementLink at hcause
    rcases hcause with hvalue | hlink
    · split at hvalue
      · cases hvalue
        rfl
      · split at hvalue <;> cases hvalue
        rfl
    · split at hlink
      · cases hlink
        rfl
      · split at hlink <;> cases hlink
        rfl

/--
After any requests to the trees of a fresh world that do not check themselves, every tree keeps its promises
about failures.
-/
theorem atomic_run {w : World α n m} (h : w.Fresh) (hv : ∀ k, (w.trees k).verify = false)
    (rs : List (Fin m × Request α n)) :
    ∃ ts, (w.run rs).Sound ts ∧ ∀ k, (w.run rs).Atomic ts k := by
  obtain ⟨ts, hsound⟩ := h.sound.run rs
  exact ⟨ts, hsound, fun k => hsound.atomic ((w.run_alike rs k).verify_eq.trans (hv k))⟩

/-- In a world of two elements one of which has been inserted, the other one cannot be erased. -/
theorem atomic_run_single :
    (single 2).Fresh ∧ (∀ k, ((single 2).trees k).verify = false) ∧
      IsRefusal ((((single 2).run [(0, .insert (.ofOrdering (compare 0)) () (.ok (some 0)))]).tree 0).erase
        (.element 1)).result := by
  obtain ⟨ts, hsound, hatomic⟩ := atomic_run (fresh_single 2) (fun _ => rfl)
    [(0, .insert (.ofOrdering (compare 0)) () (.ok (some 0)))]
  refine ⟨fresh_single 2, fun _ => rfl, ((hatomic 0).erase_refusal_iff (.element 1)).mpr (Or.inr ?_)⟩
  refine ⟨_, rfl, Or.inr ?_⟩
  intro hmem
  have hcontains := ((hatomic 0).contains_iff 1).mpr hmem
  exact absurd hcontains (by decide +kernel)

end World

end BalancedLinks
