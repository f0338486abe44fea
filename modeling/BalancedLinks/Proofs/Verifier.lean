import BalancedLinks.Verification
import BalancedLinks.Proofs.Listing
import Mathlib.Order.Defs.Unbundled

/-!
# What the full check finds

The check is run on links that may refer to each other in any way. Measuring unfolds the links to a shape,
and the references back to parents leave one thing open: a link can be reached twice from one parent, as both
of its children. Where no parent shares its two children, the check is sound; the order of the elements then
follows from their neighbours.

The main statement is `LinkedTree.verified_iff_of_verify`.
-/

set_option autoImplicit false

namespace BalancedLinks

namespace Links

variable {α : Type} {n : Nat} {g : Links α n}

/-! ## Measuring -/

/-- What a check of a link's place has seen when it accepts it. -/
theorem misplaced?_eq_none {tag : String} {o l p : LinkId n} (h : g.misplaced? tag o l p = none) :
    g.parent l = some p ∧ (∃ a, g.owner l = some a) ∧ l ≠ o ∧ g.tag l = tag := by
  unfold misplaced? at h
  split_ifs at h with hparent howner htag
  rw [Bool.or_eq_true, not_or, Option.isNone_iff_eq_none, decide_eq_true_eq] at howner
  exact ⟨not_not.mp hparent, Option.ne_none_iff_exists'.mp howner.1, howner.2, not_not.mp htag⟩

/-- What a check of a link's balance has seen when it accepts it. -/
theorem misbalanced?_eq_none {recorded : Balance} {actual : Int} (h : misbalanced? recorded actual = none) :
    recorded = .finite actual ∧ actual.natAbs ≤ 1 := by
  unfold misbalanced? at h
  split_ifs at h with hexact hwide
  exact ⟨not_not.mp hexact, by omega⟩

/-- What measuring has seen of a link and of its subtrees when it accepts them. -/
theorem of_measureWithin_eq_ok {tag : String} {o l p : LinkId n} {k : Nat} {e : Extent}
    (h : g.measureWithin tag o (k + 1) (some l) p = .ok e) :
    g.misplaced? tag o l p = none ∧ ∃ left right,
      g.measureWithin tag o k (g.child l .left) l = .ok left ∧
        g.measureWithin tag o k (g.child l .right) l = .ok right ∧
        misbalanced? (g.balance l) (right.height - left.height) = none ∧
        e = ⟨1 + max left.height right.height, left.count + right.count + 1⟩ := by
  simp only [measureWithin] at h
  cases hplace : g.misplaced? tag o l p with
  | some cause => simp [hplace] at h
  | none =>
    cases hleft : g.measureWithin tag o k (g.child l .left) l with
    | error failure => simp [hplace, hleft] at h
    | ok left =>
      cases hright : g.measureWithin tag o k (g.child l .right) l with
      | error failure => simp [hplace, hleft, hright] at h
      | ok right =>
        cases hbalance : misbalanced? (g.balance l) (right.height - left.height) with
        | some cause => simp [hplace, hleft, hright, hbalance] at h
        | none =>
          simp only [hplace, hleft, hright, hbalance] at h
          exact ⟨rfl, left, right, rfl, rfl, hbalance, (Except.ok.inj h).symm⟩

/-- What measuring accepts unfolds to a balanced, exactly recorded shape, in which links may occur twice. -/
theorem measureWithin_ok {tag : String} {o p : LinkId n} {k : Nat} {slot : Option (LinkId n)} {e : Extent}
    (h : g.measureWithin tag o k slot p = .ok e) :
    ∃ t, g.Spans slot p t ∧ g.Owned tag t ∧ o ∉ t.inorder ∧ g.Exact t ∧ t.Balanced ∧
      e.height = t.height ∧ e.count = t.inorder.length := by
  induction k generalizing slot p e with
  | zero =>
    cases slot with
    | some l => cases h
    | none =>
      obtain rfl := Except.ok.inj h
      exact ⟨.empty, rfl, by simp [Owned, Shape.inorder], by simp [Shape.inorder], trivial, trivial, rfl, rfl⟩
  | succ k ih =>
    cases slot with
    | none =>
      obtain rfl := Except.ok.inj h
      exact ⟨.empty, rfl, by simp [Owned, Shape.inorder], by simp [Shape.inorder], trivial, trivial, rfl, rfl⟩
    | some l =>
      obtain ⟨hplace, left, right, hleft, hright, hbalance, rfl⟩ := of_measureWithin_eq_ok h
      obtain ⟨a, ha, howna, hoa, hxa, hba, hha, hca⟩ := ih hleft
      obtain ⟨b, hb, hownb, hob, hxb, hbb, hhb, hcb⟩ := ih hright
      obtain ⟨hparent, howner, hlo, htag⟩ := misplaced?_eq_none hplace
      obtain ⟨hrecorded, hwithin⟩ := misbalanced?_eq_none hbalance
      rw [hha, hhb] at hrecorded hwithin
      refine ⟨.node a l b, ⟨rfl, hparent, ha, hb⟩, ?_, ?_, ⟨hrecorded, hxa, hxb⟩, ⟨hwithin, hba, hbb⟩, ?_, ?_⟩
      · intro i hi
        rcases (Shape.mem_inorder_node a l b i).mp hi with rfl | hi | hi
        · exact ⟨howner, htag⟩
        · exact howna i hi
        · exact hownb i hi
      · rw [Shape.mem_inorder_node]
        rintro (heq | hi | hi)
        · exact hlo heq.symm
        · exact hoa hi
        · exact hob hi
      · simp only [Shape.height, hha, hhb]
      · simp only [Shape.inorder, List.length_append, List.length_cons, hca, hcb]
        omega

end Links

namespace LinkedTree

variable {α : Type} {n : Nat} {x : LinkedTree α n} {order : α → α → Ordering}

/-! ## Order -/

/-- The walk that requires the elements to increase sees every neighbouring pair. -/
theorem isChain_of_increasingWithin {t : Shape n} {xs ys : List (LinkId n)} {k : Nat} {previous : Option α}
    (h : x.links.Carries x.origin t) (howned : x.links.Owned x.tree.tag t) (hsplit : t.inorder = xs ++ ys)
    (hok : x.increasingWithin order k (ys.head?.getD x.origin) previous = .ok ()) :
    List.IsChain (fun a b => order a b = .lt) (previous.toList ++ ys.filterMap x.links.owner) := by
  induction ys generalizing xs k previous with
  | nil => cases previous <;> simp
  | cons l ys ih =>
    cases k with
    | zero => cases hok
    | succ k =>
      have hl : l ∈ t.inorder := by simp [hsplit]
      have hlo : l ≠ x.origin := fun heq => h.fresh (heq ▸ hl)
      obtain ⟨⟨a, ha⟩, -⟩ := howned l hl
      have hnext := h.successor_eq hsplit
      simp only [increasingWithin, List.head?_cons, Option.getD_some, if_neg hlo, hnext, ha] at hok
      split_ifs at hok with hpair
      have hsplit' : t.inorder = (xs ++ [l]) ++ ys := by simp [hsplit]
      have hrest := ih hsplit' hok
      rw [List.filterMap_cons, ha]
      cases previous with
      | none => simpa using hrest
      | some b =>
        have hlt : order b a = .lt := by simpa using hpair
        simpa using ⟨hlt, hrest⟩

/-! ## The check -/

/-- The full check of a tree as the tree itself shows it. -/
theorem verify_eq (x : LinkedTree α n) (order : Option (α → α → Ordering)) :
    x.verify order =
      if (x.links.owner x.origin).isSome then .error (.violation .endNotOrigin)
      else if (x.links.parent x.origin).isSome || (x.links.child x.origin .right).isSome then
        .error (.violation .originReferences)
      else
        match x.links.measure x.tree.tag x.origin with
        | .error failure => .error failure
        | .ok extent =>
          if (extent.count : Int) ≠ x.tree.size then
            .error (.violation (.sizeMismatch x.tree.size extent.count))
          else
            match order with
            | none => .ok extent.height
            | some order => (x.checkIncreasing order).map fun _ => extent.height :=
  rfl

/-- What the full check has seen when it accepts a tree. -/
theorem of_verify_eq_ok {order : Option (α → α → Ordering)} {height : Nat} (h : x.verify order = .ok height) :
    x.links.parent x.origin = none ∧ x.links.child x.origin .right = none ∧
      ∃ e, x.links.measure x.tree.tag x.origin = .ok e ∧ (e.count : Int) = x.tree.size ∧ e.height = height ∧
        ∀ f, order = some f → x.checkIncreasing f = .ok () := by
  rw [verify_eq] at h
  split_ifs at h with howner hreferences
  rw [Bool.or_eq_true, not_or] at hreferences
  refine ⟨by simpa using hreferences.1, by simpa using hreferences.2, ?_⟩
  cases hmeasure : x.links.measure x.tree.tag x.origin with
  | error failure =>
    rw [hmeasure] at h
    cases h
  | ok e =>
    simp only [hmeasure] at h
    split_ifs at h with hsize
    refine ⟨e, rfl, not_not.mp hsize, ?_⟩
    cases order with
    | none => exact ⟨Except.ok.inj h, by simp⟩
    | some f =>
      cases hincreasing : x.checkIncreasing f with
      | error failure =>
        simp only [hincreasing] at h
        cases h
      | ok u =>
        simp only [hincreasing] at h
        refine ⟨Except.ok.inj h, ?_⟩
        intro f' hf
        obtain rfl := Option.some.inj hf
        exact hincreasing

/--
What the full check is to establish: the links that hang below the origin form a shape in which each of them
occurs once, with right parents, owners, tags and balances, of the size and height stated, and with
increasing elements.
-/
structure Verified (x : LinkedTree α n) (order : α → α → Ordering) (height : Nat) (t : Shape n) : Prop where
  spans : x.links.Spans (x.links.child x.origin .left) x.origin t
  nodup : t.inorder.Nodup
  reaches_iff : ∀ l, x.links.Reaches (x.links.child x.origin .left).toList l ↔ l ∈ t.inorder
  owned : x.links.Owned x.tree.tag t
  exact : x.links.Exact t
  balanced : t.Balanced
  size : x.tree.size = t.inorder.length
  height_eq : height = t.height
  increasing : (t.inorder.filterMap x.links.owner).Pairwise fun a b => order a b = .lt

/-- Whether some link that hangs below the origin has one link as both of its children. -/
def SharesChild (x : LinkedTree α n) : Prop :=
  ∃ l c, x.links.Reaches (x.links.child x.origin .left).toList l ∧ x.links.child l .left = some c ∧
    x.links.child l .right = some c

/-- Where each link of a shape occurs once, no link is both children of one parent. -/
theorem not_sharesChild {t : Shape n} (hspans : x.links.Spans (x.links.child x.origin .left) x.origin t)
    (hnodup : t.inorder.Nodup) : ¬ x.SharesChild := by
  rintro ⟨l, c, hreach, hleft, hright⟩
  obtain ⟨fs, a, b, rfl⟩ := Shape.exists_place ((hspans.reaches_iff l).mp hreach)
  obtain ⟨-, -, ha, hb⟩ := ((Links.spans_plug x.origin fs _).mp hspans).2
  obtain ⟨-, -, -, -, hab⟩ := (Shape.nodup_inorder_fork .left a l b).mp
    ((Shape.nodup_inorder_plug fs _).mp hnodup).1
  exact hab c (Shape.root?_mem (ha.slot_eq.symm.trans hleft)) (Shape.root?_mem (hb.slot_eq.symm.trans hright))

/--
Where the full check accepts a tree, whatever its links look like, all is as it is to establish, unless some
link below the origin has one link as both of its children.
-/
theorem verified_iff_of_verify {lt : α → α → Prop} [IsStrictTotalOrder α lt] {height : Nat}
    (horder : ∀ a b, (order a b = .lt ↔ lt a b) ∧ (order a b = .gt ↔ lt b a))
    (h : x.verify (some order) = .ok height) : (∃ t, x.Verified order height t) ↔ ¬ x.SharesChild := by
  constructor
  · rintro ⟨t, ht⟩
    exact not_sharesChild ht.spans ht.nodup
  intro hshare
  obtain ⟨hparent, hright, e, hmeasure, hsize, hheight, hincreasing⟩ := of_verify_eq_ok h
  obtain ⟨t, hspans, howned, hfresh, hexact, hbalanced, hheight', hcount⟩ := Links.measureWithin_ok hmeasure
  have hnodup : t.inorder.Nodup := by
    refine hspans.nodup fun l hl c hleft hboth => hshare ⟨l, c, ?_, hleft, hboth⟩
    exact (hspans.reaches_iff l).mpr hl
  have hcarries : x.links.Carries x.origin t := ⟨hspans, hnodup, hfresh, hparent, hright⟩
  refine ⟨t, hspans, hnodup, hspans.reaches_iff, howned, hexact, hbalanced, ?_, ?_, ?_⟩
  · rw [← hsize, hcount]
  · exact hheight.symm.trans hheight'
  · have hfirst : x.firstLink .right = some (t.inorder.head?.getD x.origin) := hcarries.outermost_origin
    have hchecked := hincreasing order rfl
    simp only [checkIncreasing, hfirst] at hchecked
    have hwhole : t.inorder = [] ++ t.inorder := rfl
    have hchain := isChain_of_increasingWithin hcarries howned hwhole hchecked
    simp only [(horder _ _).1] at hchain ⊢
    exact List.isChain_iff_pairwise.mp hchain

/-- A tree whose root has the elements 1 and 3 to its sides, but for a write to its left child. -/
def forked (left : LinkId 4) : LinkedTree Nat 4 where
  tree := { tag := "", linkOf := fun a => Fin.ofNat 4 a, origin := 0, logger := none, verify := false,
            order := none, size := 3 }
  links := ⟨#v[{ owner := none, tag := "", parent := none, left := some 2, right := none, balance := .level },
    { owner := some 1, tag := "", parent := some 2, left := none, right := none, balance := .level },
    { owner := some 2, tag := "", parent := some 0, left := some left, right := some 3, balance := .level },
    { owner := some 3, tag := "", parent := some 2, left := none, right := none, balance := .level }]⟩

/-- The full check accepts the tree as it was before the write, and rightly so. -/
theorem verified_forked :
    (forked 1).verify (some compare) = .ok 2 ∧ ∃ t, (forked 1).Verified compare 2 t := by
  have hverify : (forked 1).verify (some compare) = .ok 2 := by decide +kernel
  have horder : ∀ a b : Nat, (compare a b = .lt ↔ a < b) ∧ (compare a b = .gt ↔ b < a) :=
    fun _ _ => ⟨Nat.compare_eq_lt, Nat.compare_eq_gt⟩
  refine ⟨hverify, (verified_iff_of_verify horder hverify).mpr ?_⟩
  rintro ⟨l, c, -, hleft, hright⟩
  have happart : ∀ l c, ¬ ((forked 1).links.child l .left = some c ∧
      (forked 1).links.child l .right = some c) := by
    decide +kernel
  exact happart l c ⟨hleft, hright⟩

/--
The full check accepts the tree where the write has made the right child the left one too: it counts the
visits to that link, which are two, and finds them to make up for the link that is no longer there.
-/
theorem verify_accepts_sharing :
    (forked 3).verify (some compare) = .ok 2 ∧ ¬ ∃ t, (forked 3).Verified compare 2 t := by
  refine ⟨by decide +kernel, ?_⟩
  rintro ⟨t, ht⟩
  exact not_sharesChild ht.spans ht.nodup ⟨2, 3, .root (by decide), rfl, rfl⟩

end LinkedTree

/-! ## Accepting -/

/-- Measuring accepts a balanced, exactly recorded shape of owned links. -/
theorem Links.measureWithin_eq {α : Type} {n : Nat} {g : Links α n} {tag : String} {o p : LinkId n}
    {slot : Option (LinkId n)} {t : Shape n} {k : Nat} (h : g.Spans slot p t) (howned : g.Owned tag t)
    (hfresh : o ∉ t.inorder) (hx : g.Exact t) (ht : t.Balanced) (hk : t.height ≤ k) :
    g.measureWithin tag o k slot p = .ok ⟨t.height, t.inorder.length⟩ := by
  induction t generalizing slot p k with
  | empty =>
    obtain rfl : slot = none := h
    cases k <;> rfl
  | node a l b iha ihb =>
    obtain ⟨rfl, hparent, ha, hb⟩ := h
    obtain ⟨hbalance, hxa, hxb⟩ := hx
    obtain ⟨htilt, hba, hbb⟩ := ht
    obtain ⟨⟨e, he⟩, htag⟩ := howned l (by simp)
    simp only [Shape.mem_inorder_node, not_or] at hfresh
    obtain ⟨hlo, hfa, hfb⟩ := hfresh
    rw [Shape.height] at hk
    obtain ⟨k, rfl⟩ : ∃ i, k = i + 1 := ⟨k - 1, by omega⟩
    have hplace : g.misplaced? tag o l p = none := by
      simp [misplaced?, hparent, he, htag, Ne.symm hlo]
    have hleft := iha (k := k) ha (fun i hi => howned i (by simp [hi])) hfa hxa hba (by omega)
    have hright := ihb (k := k) hb (fun i hi => howned i (by simp [hi])) hfb hxb hbb (by omega)
    have hwithin : misbalanced? (g.balance l) (b.height - a.height) = none := by
      have hexact : g.balance l = .finite (b.height - a.height) := hbalance
      have hnarrow : ((b.height : Int) - a.height).natAbs ≤ 1 := htilt
      rw [misbalanced?, if_neg (not_not.mpr hexact), if_neg (by omega)]
    simp only [measureWithin, hplace, hleft, hright, hwithin, Shape.height, Shape.inorder, List.length_append,
      List.length_cons]
    congr 2

namespace LinkedTree

variable {α : Type} {n : Nat} {x : LinkedTree α n}

/-- The walk over neighbouring pairs accepts exactly the elements that increase along its way. -/
theorem Passes.increasingWithin_eq {ls xs ys : List (LinkId n)} {k : Nat} (h : x.Passes .right ls)
    (order : α → α → Ordering) (previous : Option α) (hsplit : ls = xs ++ ys) (hk : ys.length < k) :
    x.increasingWithin order k (ys.head?.getD x.origin) previous =
      if List.IsChain (fun a b => order a b = .lt) (previous.toList ++ ys.filterMap x.links.owner) then .ok ()
      else .error (.violation .notIncreasing) := by
  induction ys generalizing xs k previous with
  | nil =>
    obtain ⟨k, rfl⟩ : ∃ i, k = i + 1 := ⟨k - 1, by omega⟩
    cases previous <;> simp [increasingWithin]
  | cons l ys ih =>
    obtain ⟨k, rfl⟩ : ∃ i, k = i + 1 := ⟨k - 1, by omega⟩
    have hl : l ∈ ls := by simp [hsplit]
    have hlo : l ≠ x.origin := fun heq => h.fresh (heq ▸ hl)
    obtain ⟨a, ha⟩ := h.owned l hl
    have hnext : x.links.successor l = some (ys.head?.getD x.origin) := h.step hsplit
    have hsplit' : ls = (xs ++ [l]) ++ ys := by simp [hsplit]
    have hrest := ih (k := k) (some a) hsplit' (by simpa using hk)
    simp only [increasingWithin, List.head?_cons, Option.getD_some, if_neg hlo, hnext, ha, hrest,
      List.filterMap_cons]
    cases previous with
    | none => rfl
    | some b =>
      by_cases hlt : order b a = .lt
      · rw [if_neg (by simp [hlt])]
        exact if_congr (by simp [hlt]) rfl rfl
      · simp [hlt]

/-- The order of the elements passes exactly if they increase along the way forward. -/
theorem Passes.checkIncreasing_eq {ls : List (LinkId n)} (h : x.Passes .right ls) (order : α → α → Ordering) :
    x.checkIncreasing order =
      if List.IsChain (fun a b => order a b = .lt) (ls.filterMap x.links.owner) then .ok ()
      else .error (.violation .notIncreasing) := by
  have hlength := h.length_lt
  have hwhole : ls = [] ++ ls := rfl
  have hwalk := h.increasingWithin_eq (k := 2 * n + 2) order none hwhole (by omega)
  simp only [checkIncreasing, h.first]
  exact hwalk

/-- The check of the order accepts a threaded tree exactly if each element comes before the next one. -/
theorem Threads.checkIncreasing_eq {t : Shape n} (h : x.Threads t) (order : α → α → Ordering) :
    x.checkIncreasing order =
      if List.IsChain (fun a b => order a b = .lt) (t.inorder.filterMap x.links.owner) then .ok ()
      else .error (.violation .notIncreasing) :=
  (h.passes .right).checkIncreasing_eq order

/-- Of a tree that threads a shape, the full check can only find fault with the order of the elements. -/
theorem Threads.verify_eq {t : Shape n} (h : x.Threads t) (order : Option (α → α → Ordering)) :
    x.verify order =
      match order with
      | none => .ok t.height
      | some f => (x.checkIncreasing f).map fun _ => t.height := by
  have hmeasure : x.links.measure x.tree.tag x.origin = .ok ⟨t.height, t.inorder.length⟩ :=
    Links.measureWithin_eq h.carries.spans h.owned h.carries.fresh h.exact h.balanced h.carries.height_le
  rw [LinkedTree.verify_eq, hmeasure]
  simp only [h.ownerless, h.carries.parent, h.carries.right, h.size, Option.isSome_none, Bool.or_self,
    Bool.false_eq_true, if_false, ne_eq, not_true_eq_false]

/-- The full check accepts a tree that threads a shape whose elements increase in the order given, if any. -/
theorem Threads.verify_eq_ok {t : Shape n} {order : Option (α → α → Ordering)} (h : x.Threads t)
    (hchain : ∀ f, order = some f →
      List.IsChain (fun a b => f a b = .lt) (t.inorder.filterMap x.links.owner)) :
    x.verify order = .ok t.height := by
  rw [h.verify_eq]
  cases order with
  | none => rfl
  | some f => simp only [h.checkIncreasing_eq, if_pos (hchain f rfl), Except.map]

/-- The check after a change passes where the elements increase in the tree's own order, if it has one. -/
theorem Threads.checkAfter_eq {t : Shape n} (h : x.Threads t) (change : Change)
    (hchain : x.tree.verify = true → ∀ f, x.tree.order = some f →
      List.IsChain (fun a b => f a b = .lt) (t.inorder.filterMap x.links.owner)) :
    x.checkAfter change = .pure x () := by
  unfold checkAfter
  split_ifs with hverify
  · rw [h.verify_eq_ok (hchain hverify)]
  · rfl

end LinkedTree

end BalancedLinks
