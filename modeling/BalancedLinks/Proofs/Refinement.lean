import BalancedLinks.Proofs.Holding
import BalancedLinks.Proofs.World
import Mathlib.Order.RelClasses

/-!
# Trees refine sorted lists

A run of operations on a tree replies what the same run replies on a strictly sorted list, as long as its
searches go by keys of one order and the elements supplied match what is sought. `Act.perform` runs an
operation on a tree, and `Act.refer` on a list.

The main statement is `World.performAll_refines_sortedList`; `World.performAll_withheld` shows why a tree that
checks itself has to do so by an order that agrees.
-/

set_option autoImplicit false

namespace BalancedLinks

variable {α : Type} {n m : Nat}

/-! ## Operations -/

/-- An operation of an ordered set with what it is given: a search also tells the key that it goes by. -/
inductive Act (α : Type) (n : Nat) : Type 1 where
  | insert {σ : Type} (key : α → Ordering) (c : Comparator σ α) (s : σ) (supply : Except String (Option α))
  | find {σ : Type} (key : α → Ordering) (c : Comparator σ α) (s : σ)
  | findElement {σ : Type} (key : α → Ordering) (c : Comparator σ α) (s : σ)
  | erase (target : Target α n)
  | load {σ : Type} (less : Less σ α) (s : σ) (values : List α)
  | clear
  | min
  | max
  | size
  | isEmpty
  | contains (a : α)
  | ascending
  | descending

/-- What an operation replies. -/
inductive Act.Reply (α : Type) (n : Nat) where
  | placement (result : Except Failure (Placement n))
  | cursor (result : Except Failure (Cursor n))
  | element (result : Except Failure (Option α))
  | elements (result : Except Failure (List α))
  | count (result : Except Failure Nat)
  | truth (result : Except Failure Bool)
  | size (size : Int)
  | done
  deriving DecidableEq

/-- What an erasure makes of a list, and what it replies: elements are told apart by their links. -/
def Tree.erasure (t : Tree α n) (target : Option (LinkId n)) (as : List α) :
    List α × Except Failure (Cursor n) :=
  match target with
  | none => (as, .error (.violation .eraseThroughDefault))
  | some l =>
    if l = t.origin then (as, .error (.violation .eraseEnd))
    else
      match SortedList.take t.linkOf l as with
      | none => (as, .error (.violation .notInTree))
      | some (rest, next) => (rest, .ok (t.cursorOn next))

namespace Act

/-- The tree after an operation, and the reply. -/
def perform (x : LinkedTree α n) : Act α n → LinkedTree α n × Act.Reply α n
  | insert _ c s supply =>
    ((x.insert c s supply).outcome.state, .placement (x.insert c s supply).outcome.result)
  | find _ c s => (x, .cursor (x.find c s))
  | findElement _ c s => (x, .element (x.findElement c s))
  | erase target => ((x.erase target).state, .cursor (x.erase target).result)
  | load less s values => ((x.load less s values).state, .count (x.load less s values).result)
  | clear => (x.clear, .done)
  | min => (x, .element x.min?)
  | max => (x, .element x.max?)
  | size => (x, .size x.tree.size)
  | isEmpty => (x, .truth (.ok x.isEmpty))
  | contains a => (x, .truth (x.contains a))
  | ascending => (x, .elements (x.collect .ascending))
  | descending => (x, .elements (x.collect .descending))

/--
The sorted list after an operation, and the reply, which places elements as the tree does whose list it is.
-/
def refer (t : Tree α n) (lt : α → α → Prop) [DecidableRel lt] (as : List α) :
    Act α n → List α × Act.Reply α n
  | insert key _ _ supply => ((t.insertion key supply as).1, .placement (t.insertion key supply as).2)
  | find key _ _ => (as, .cursor (.ok (t.cursorOn (SortedList.find key as))))
  | findElement key _ _ => (as, .element (.ok (SortedList.find key as)))
  | erase (.element a) => ((t.erasure (some (t.linkOf a)) as).1, .cursor (t.erasure (some (t.linkOf a)) as).2)
  | erase (.cursor c) => ((t.erasure c.link as).1, .cursor (t.erasure c.link as).2)
  | load _ _ values => ((SortedList.load lt as values).1, .count (.ok (SortedList.load lt as values).2))
  | clear => ([], .done)
  | min => (as, .element (.ok as.head?))
  | max => (as, .element (.ok as.getLast?))
  | size => (as, .size as.length)
  | isEmpty => (as, .truth (.ok as.isEmpty))
  | contains a => (as, .truth (.ok (decide (t.linkOf a ∈ as.map t.linkOf))))
  | ascending => (as, .elements (.ok as))
  | descending => (as, .elements (.ok as.reverse))

/--
Whether the functions that an operation is given keep to the order: a comparator answers by the key, and the
key is one of the order; what is supplied on a miss matches the key and can join the tree.
-/
def Allowed (x : LinkedTree α n) (lt : α → α → Prop) [DecidableRel lt] (as : List α) : Act α n → Prop
  | insert key c _ supply =>
    c.Answers key ∧ Seeks lt key ∧
      (SortedList.find key as = none → ∀ a, supply = .ok (some a) → key a = .eq ∧ x.Joins a)
  | find key c _ => c.Answers key ∧ Seeks lt key
  | findElement key c _ => c.Answers key ∧ Seeks lt key
  | load less _ values =>
    less.Decides lt ∧ ∀ before a after, values = before ++ a :: after →
      (∀ b ∈ as ++ before, triState lt a b ≠ .eq) → x.Joins a
  | _ => True

/-- The insertion of an element by the order itself. -/
def add (lt : α → α → Prop) [DecidableRel lt] (a : α) : Act α n :=
  insert (triState lt a) (.ofOrdering (triState lt a)) () (.ok (some a))

/-- An element may be added if it can join the tree unless it has an equal there. -/
theorem allowed_add {x : LinkedTree α n} {lt : α → α → Prop} [IsStrictWeakOrder α lt] [DecidableRel lt]
    {as : List α} {a : α} (h : SortedList.find (triState lt a) as = none → x.Joins a) :
    (add lt a).Allowed x lt as := by
  refine ⟨fun _ _ => ⟨(), rfl⟩, seeks_triState a, ?_⟩
  intro hnone b hb
  obtain rfl : a = b := Option.some.inj (Except.ok.inj hb)
  exact ⟨triState_self a, h hnone⟩

/-- An operation changes no setting of the tree. -/
theorem perform_alike (x : LinkedTree α n) (act : Act α n) : x.Alike (act.perform x).1 := by
  cases act with
  | insert _ c s supply => exact x.insert_alike c s supply
  | erase target => exact x.erase_alike target
  | load less s values => exact x.load_alike less s values
  | _ => rfl

/-- A list's replies depend on the tree's settings only. -/
theorem refer_of_alike {x y : LinkedTree α n} (h : x.Alike y) (lt : α → α → Prop) [DecidableRel lt]
    (as : List α) (act : Act α n) : act.refer y.tree lt as = act.refer x.tree lt as := by
  rw [← h]
  rfl

/-- The sorted list after a run of operations, and the replies. -/
def referAll (t : Tree α n) (lt : α → α → Prop) [DecidableRel lt] :
    List α → List (Act α n) → List α × List (Act.Reply α n)
  | as, [] => (as, [])
  | as, act :: acts =>
    let done := act.refer t lt as
    let rest := referAll t lt done.1 acts
    (rest.1, done.2 :: rest.2)

/-- What a list answers depends on the settings of the tree alone. -/
theorem referAll_of_alike {x y : LinkedTree α n} (h : x.Alike y) (lt : α → α → Prop) [DecidableRel lt]
    (as : List α) (acts : List (Act α n)) : referAll y.tree lt as acts = referAll x.tree lt as acts := by
  induction acts generalizing as with
  | nil => rfl
  | cons act acts ih => simp only [referAll, refer_of_alike h, ih]

end Act

namespace World

variable {w : World α n m} {ts : Fin m → Shape n} {k : Fin m} {lt : α → α → Prop} {as : List α}

/-! ## Single operations -/

namespace Sound

/-- An erasure takes out the element whose link it is given, and replies the cursor on the one after it. -/
theorem erase_eq (h : w.Sound ts) (hholds : (w.tree k).Holds lt as) (target : Target α n) :
    ((w.tree k).erase target).result =
        ((w.trees k).erasure ((w.tree k).linkOfTarget target) as).2 ∧
      ((w.tree k).erase target).state.Holds lt
        ((w.trees k).erasure ((w.tree k).linkOfTarget target) as).1 := by
  obtain ⟨t, ht, horder⟩ := hholds.order
  obtain rfl := h.shape_eq ht
  have herasable := h.erasable_eq k target
  have hends := h.erases k target
  generalize (w.tree k).erase target = r at hends
  cases hends with
  | refused hrefusal _ hout =>
    rw [hrefusal] at herasable
    cases hlink : (w.tree k).linkOfTarget target with
    | none =>
      simp only [hlink] at herasable
      obtain rfl := Failure.violation.inj (Except.error.inj herasable)
      exact ⟨rfl, hholds⟩
    | some l =>
      have hl := hout l hlink
      simp only [hlink, hl, if_false] at herasable
      rw [horder] at hl
      by_cases horigin : l = (w.trees k).origin
      · rw [if_pos horigin] at herasable
        obtain rfl := Failure.violation.inj (Except.error.inj herasable)
        simp only [Tree.erasure, if_pos horigin]
        exact ⟨rfl, hholds⟩
      · rw [if_neg horigin] at herasable
        obtain rfl := Failure.violation.inj (Except.error.inj herasable)
        have htake : SortedList.take (w.trees k).linkOf l as = none := SortedList.take_eq_none hl
        simp only [Tree.erasure, if_neg horigin, htake]
        exact ⟨rfl, hholds⟩
  | @erased l xs ys fs d g hlink hsplit hthreads hrest hedit _ =>
    have horigin : l ≠ (w.trees k).origin := by
      rintro rfl
      exact h.origin_not_mem k k (by simp [hsplit])
    have hnodup := ht.carries.nodup
    rw [horder] at hsplit
    obtain ⟨before, rest, rfl, rfl, hafter⟩ := List.map_eq_append_iff.mp hsplit
    obtain ⟨a, after, rfl, rfl, rfl⟩ := List.map_eq_cons_iff.mp hafter
    have hout : (w.trees k).linkOf a ∉ before.map (w.trees k).linkOf := by
      rw [horder, List.map_append, List.map_cons] at hnodup
      intro hmem
      exact (List.nodup_append.mp hnodup).2.2 _ hmem _ (by simp [tree]) rfl
    have htake : SortedList.take (w.trees k).linkOf ((w.trees k).linkOf a) (before ++ a :: after) =
        some (before ++ after, after.head?) := SortedList.take_append hout
    have hresized : ((w.tree k).resized g (-1)).Holds lt (before ++ after) := by
      refine hholds.resized hthreads hedit ?_ (fun b hb => hholds.own b ?_) (hholds.sorted.sublist ?_)
      · rw [hrest, List.map_append]
      · rcases List.mem_append.mp hb with hb | hb
        · simp [hb]
        · simp [hb]
      · exact (List.sublist_cons_self a after).append_left before
    have herasure : (w.trees k).erasure ((w.tree k).linkOfTarget target) (before ++ a :: after) =
        (before ++ after, .ok ((w.trees k).cursorOn after.head?)) := by
      rw [hlink]
      change (w.trees k).linkOf a ≠ (w.trees k).origin at horigin
      simp only [Tree.erasure, tree, if_neg horigin, htake]
    rw [herasure, hresized.checkAfter_eq]
    refine ⟨?_, hresized⟩
    cases after <;> rfl

/-- An element is in the tree exactly if its link is that of an element of the list. -/
theorem contains_eq_of_holds (h : w.Sound ts) (hholds : (w.tree k).Holds lt as) (a : α) :
    (w.tree k).contains a = .ok (decide ((w.trees k).linkOf a ∈ as.map (w.trees k).linkOf)) := by
  obtain ⟨t, ht, horder⟩ := hholds.order
  obtain rfl := h.shape_eq ht
  have howns : (w.tree k).contains a = .ok (decide ((w.trees k).linkOf a ∈ (ts k).inorder)) := h.owns_eq k _
  rw [howns, horder]
  rfl

/-- An operation on a tree replies what it replies on the list that the tree holds; the two stay in step. -/
theorem perform_eq [IsStrictWeakOrder α lt] [DecidableRel lt] (h : w.Sound ts)
    (hholds : (w.tree k).Holds lt as) {act : Act α n} (hallowed : act.Allowed (w.tree k) lt as) :
    (act.perform (w.tree k)).2 = (act.refer (w.trees k) lt as).2 ∧
      (act.perform (w.tree k)).1.Holds lt (act.refer (w.trees k) lt as).1 ∧
      ∃ us, (w.put k (act.perform (w.tree k)).1).Sound us := by
  have hkept : ∃ us, (w.put k (w.tree k)).Sound us := ⟨ts, by rwa [put_tree]⟩
  cases act with
  | insert key c s supply =>
    obtain ⟨hanswers, hseeks, hsupply⟩ := hallowed
    obtain ⟨hresult, hstate, -⟩ := hholds.insert_eq (s := s) hanswers hseeks hsupply
    exact ⟨congrArg Act.Reply.placement hresult, hstate, h.step k (.insert c s supply)⟩
  | find key c s => exact ⟨congrArg Act.Reply.cursor (hholds.find_eq hallowed.1 hallowed.2), hholds, hkept⟩
  | findElement key c s =>
    exact ⟨congrArg Act.Reply.element (hholds.findElement_eq hallowed.1 hallowed.2), hholds, hkept⟩
  | erase target =>
    obtain ⟨hresult, hstate⟩ := h.erase_eq hholds target
    cases target with
    | element a => exact ⟨congrArg Act.Reply.cursor hresult, hstate, h.step k (.erase (.element a))⟩
    | cursor c => exact ⟨congrArg Act.Reply.cursor hresult, hstate, h.step k (.erase (.cursor c))⟩
  | load less s values =>
    obtain ⟨hresult, hstate⟩ := hholds.load_eq (s := s) hallowed.1 hallowed.2
    exact ⟨congrArg Act.Reply.count hresult, hstate, h.step k (.load less s values)⟩
  | clear => exact ⟨rfl, hholds.clear, h.step k .clear⟩
  | min => exact ⟨congrArg Act.Reply.element hholds.extreme_eq.1, hholds, hkept⟩
  | max => exact ⟨congrArg Act.Reply.element hholds.extreme_eq.2, hholds, hkept⟩
  | size => exact ⟨congrArg Act.Reply.size hholds.size_eq, hholds, hkept⟩
  | isEmpty => exact ⟨congrArg (Act.Reply.truth ∘ .ok) hholds.isEmpty_eq, hholds, hkept⟩
  | contains a => exact ⟨congrArg Act.Reply.truth (h.contains_eq_of_holds hholds a), hholds, hkept⟩
  | ascending => exact ⟨congrArg Act.Reply.elements hholds.collect_eq.1, hholds, hkept⟩
  | descending => exact ⟨congrArg Act.Reply.elements hholds.collect_eq.2, hholds, hkept⟩

end Sound

/-! ## Runs -/

/-- The world after a run of operations on one of its trees, and the replies. -/
def performAll (k : Fin m) : World α n m → List (Act α n) → World α n m × List (Act.Reply α n)
  | w, [] => (w, [])
  | w, act :: acts =>
    let done := act.perform (w.tree k)
    let rest := performAll k (w.put k done.1) acts
    (rest.1, done.2 :: rest.2)

/-- Whether each operation of a run is allowed by the time that it comes to it. -/
def Allows (k : Fin m) (lt : α → α → Prop) [DecidableRel lt] : World α n m → List α → List (Act α n) → Prop
  | _, _, [] => True
  | w, as, act :: acts =>
    act.Allowed (w.tree k) lt as ∧
      Allows k lt (w.put k (act.perform (w.tree k)).1) (act.refer (w.trees k) lt as).1 acts

/-- A run on a tree replies what it replies on the list that the tree holds; the two stay in step. -/
theorem Sound.performAll_refines [IsStrictWeakOrder α lt] [DecidableRel lt] (h : w.Sound ts)
    (hholds : (w.tree k).Holds lt as) {acts : List (Act α n)} (hallows : w.Allows k lt as acts) :
    (w.performAll k acts).2 = (Act.referAll (w.trees k) lt as acts).2 ∧
      ((w.performAll k acts).1.tree k).Holds lt (Act.referAll (w.trees k) lt as acts).1 := by
  induction acts generalizing w ts as with
  | nil => exact ⟨rfl, hholds⟩
  | cons act acts ih =>
    obtain ⟨hreply, hstate, us, hsound⟩ := h.perform_eq hholds hallows.1
    have hnext : ((w.put k (act.perform (w.tree k)).1).tree k).Holds lt (act.refer (w.trees k) lt as).1 := by
      rwa [tree_put_self]
    obtain ⟨hreplies, hend⟩ := ih hsound hnext hallows.2
    have halike : (w.tree k).Alike ((w.put k (act.perform (w.tree k)).1).tree k) := by
      rw [tree_put_self]
      exact act.perform_alike _
    have hsettings : ∀ bs, Act.referAll ((w.put k (act.perform (w.tree k)).1).trees k) lt bs acts =
        Act.referAll (w.trees k) lt bs acts := fun bs => Act.referAll_of_alike halike lt bs acts
    rw [hsettings] at hreplies hend
    refine ⟨?_, hend⟩
    simp only [performAll, Act.referAll, hreply, hreplies]

/--
A run of operations on an empty tree of a reachable world replies what it replies on an empty list, and the
tree holds the list that the run leads to, which is strictly sorted. The operations may be any whose searches
go by keys of the order and whose elements, where one is missing, match what is sought and can join; a tree
that checks itself by an order of its own has to agree with this one.
-/
theorem performAll_refines_sortedList {w : World α n m} (h : w.Fresh) (rs : List (Fin m × Request α n))
    {k : Fin m} (hempty : ((w.run rs).trees k).size = 0) (lt : α → α → Prop) [IsStrictWeakOrder α lt]
    [DecidableRel lt] (hchecks : ((w.run rs).trees k).ChecksBy lt) {acts : List (Act α n)}
    (hallows : (w.run rs).Allows k lt [] acts) :
    ((w.run rs).performAll k acts).2 = (Act.referAll ((w.run rs).trees k) lt [] acts).2 ∧
      (((w.run rs).performAll k acts).1.tree k).Holds lt
        (Act.referAll ((w.run rs).trees k) lt [] acts).1 := by
  obtain ⟨ts, hsound⟩ := h.sound.run rs
  refine hsound.performAll_refines ⟨⟨ts k, hsound.threads k, ?_⟩, by simp, List.Pairwise.nil, hchecks⟩ hallows
  have hlength := (hsound.threads k).size.symm.trans hempty
  simpa using hlength

/-- A run on two elements: both are added, one of them twice, and the smaller one is erased. -/
theorem performAll_add_add_erase :
    ((single 2).performAll 0 [.add (· < ·) 1, .add (· < ·) 0, .add (· < ·) 1, .max, .erase (.element 0),
        .ascending]).2 =
      [.placement (.ok ⟨.on 2, true⟩), .placement (.ok ⟨.on 1, true⟩), .placement (.ok ⟨.on 2, false⟩),
        .element (.ok (some 1)), .cursor (.ok (.on 2)), .elements (.ok [1])] := by
  have horder : IsStrictWeakOrder (Fin 2) (· < ·) := isStrictWeakOrder_of_isOrderConnected
  have hallows : ((single 2).run []).Allows 0 (· < ·) [] [.add (· < ·) 1, .add (· < ·) 0, .add (· < ·) 1,
      .max, .erase (.element 0), .ascending] :=
    ⟨Act.allowed_add fun _ => by decide +kernel, Act.allowed_add fun _ => by decide +kernel,
      Act.allowed_add fun hnone => absurd hnone (by decide +kernel), trivial, trivial, trivial, trivial⟩
  have hchecks : (((single 2).run []).trees 0).ChecksBy (· < ·) := by simp [Tree.ChecksBy, run, single]
  exact (performAll_refines_sortedList (fresh_single 2) [] rfl (· < ·) hchecks hallows).1

/--
In a tree that checks itself by the opposite order, the second element is added as well, but the reply is withheld
where the list has one.
-/
theorem performAll_withheld :
    descending.Fresh ∧ ((descending.run []).trees 0).size = 0 ∧ IsStrictWeakOrder (Fin 2) (· < ·) ∧
      (descending.run []).Allows 0 (· < ·) [] [.add (· < ·) 0, .add (· < ·) 1] ∧
      ((descending.run []).performAll 0 [.add (· < ·) 0, .add (· < ·) 1]).2 =
        [.placement (.ok ⟨.on 1, true⟩), .placement (.error (.violation .notIncreasing))] ∧
      (Act.referAll ((descending.run []).trees 0) (· < ·) [] [.add (· < ·) 0, .add (· < ·) 1]).2 =
        [.placement (.ok ⟨.on 1, true⟩), .placement (.ok ⟨.on 2, true⟩)] := by
  have horder : IsStrictWeakOrder (Fin 2) (· < ·) := isStrictWeakOrder_of_isOrderConnected
  refine ⟨(fresh_single 2).checking _ _, rfl, horder, ?_, by decide +kernel, by decide +kernel⟩
  exact ⟨Act.allowed_add fun _ => by decide +kernel, Act.allowed_add fun _ => by decide +kernel, trivial⟩

end World

end BalancedLinks
