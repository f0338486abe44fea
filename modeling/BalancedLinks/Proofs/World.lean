import BalancedLinks.Loading
import BalancedLinks.Proofs.Threading

/-!
# Worlds of trees

Several trees share the links of one world, and requests change them one after the other: insertions with
any comparator and any supply, erasures of any element or through any cursor, loads with any order, and
clearings. `World.Sound` is what every one of them keeps: each tree threads a balanced shape of its own, and
every link outside all trees is as it was before it first joined one.

The main statement is `World.sound_run`.
-/

set_option autoImplicit false

namespace BalancedLinks

/-! ## Requests -/

/-- A change that is asked of a tree. -/
inductive Request (α : Type) (n : Nat) : Type 1 where
  | insert {σ : Type} (c : Comparator σ α) (s : σ) (supply : Except String (Option α))
  | erase (target : Target α n)
  | load {σ : Type} (less : Less σ α) (s : σ) (values : List α)
  | clear

/-- The tree after a request, whether it was carried out or failed on the way. -/
def Request.run {α : Type} {n : Nat} (x : LinkedTree α n) : Request α n → LinkedTree α n
  | .insert c s supply => (x.insert c s supply).outcome.state
  | .erase target => (x.erase target).state
  | .load less s values => (x.load less s values).state
  | .clear => x.clear

/-- A request changes no setting of the tree. -/
theorem Request.run_alike {α : Type} {n : Nat} (r : Request α n) (x : LinkedTree α n) : x.Alike (r.run x) := by
  cases r with
  | insert c s supply => exact x.insert_alike c s supply
  | erase target => exact x.erase_alike target
  | load less s values => exact x.load_alike less s values
  | clear => rfl

/-- Trees that share the links of a world. -/
structure World (α : Type) (n m : Nat) where
  trees : Fin m → Tree α n
  links : Links α n

namespace World

variable {α : Type} {n m : Nat}

/-- One tree of a world, with the links. -/
def tree (w : World α n m) (k : Fin m) : LinkedTree α n :=
  ⟨w.trees k, w.links⟩

/-- The world after one of its trees has changed. -/
def put (w : World α n m) (k : Fin m) (x : LinkedTree α n) : World α n m :=
  ⟨Function.update w.trees k x.tree, x.links⟩

/-- The world after a request to one of its trees. -/
def step (w : World α n m) (k : Fin m) (r : Request α n) : World α n m :=
  w.put k (r.run (w.tree k))

/-- The world after a sequence of requests. -/
def run (w : World α n m) (rs : List (Fin m × Request α n)) : World α n m :=
  rs.foldl (fun w r => w.step r.1 r.2) w

/-- The tree that has changed is the one that was put there. -/
@[simp] theorem tree_put_self (w : World α n m) (k : Fin m) (x : LinkedTree α n) :
    (w.put k x).tree k = x := by
  simp [tree, put]

/-- Every other tree keeps its record, and sees the links as they are now. -/
theorem tree_put_of_ne (w : World α n m) {j k : Fin m} (h : j ≠ k) (x : LinkedTree α n) :
    (w.put k x).tree j = ⟨w.trees j, x.links⟩ := by
  simp [tree, put, h]

/-- Of two changes of one tree the later one holds. -/
@[simp] theorem put_put (w : World α n m) (k : Fin m) (x y : LinkedTree α n) :
    (w.put k x).put k y = w.put k y := by
  simp [put]

/-- Putting a tree back where it is changes nothing. -/
@[simp] theorem put_tree (w : World α n m) (k : Fin m) : w.put k (w.tree k) = w := by
  simp [put, tree]

/-- Where one tree keeps its settings, all trees of the world do. -/
theorem put_alike (w : World α n m) {k : Fin m} {x : LinkedTree α n} (h : (w.tree k).Alike x) (j : Fin m) :
    (w.tree j).Alike ((w.put k x).tree j) := by
  by_cases hj : j = k
  · subst hj
    rwa [tree_put_self]
  · rw [tree_put_of_ne w hj]
    rfl

/-! ## Soundness -/

/-- Whether nothing has been linked yet: all links hang nowhere, and each tree has an origin of its own. -/
structure Fresh (w : World α n m) : Prop where
  pristine : ∀ l, w.links.get l = (w.links.get l).pristine
  ownerless : ∀ k, w.links.owner (w.trees k).origin = none
  origins : ∀ j k, (w.trees j).origin = (w.trees k).origin → j = k
  size : ∀ k, (w.trees k).size = 0

/--
Whether each tree threads a shape, no link is in two of them, and every link that is in none and is no origin
is as it was before it first joined a tree.
-/
structure Sound (w : World α n m) (ts : Fin m → Shape n) : Prop where
  threads : ∀ k, (w.tree k).Threads (ts k)
  origins : ∀ j k, (w.trees j).origin = (w.trees k).origin → j = k
  apart : ∀ j k, j ≠ k → ∀ l ∈ (ts j).inorder, l ∉ (ts k).inorder
  free : ∀ l, (∀ k, l ≠ (w.trees k).origin ∧ l ∉ (ts k).inorder) → w.links.get l = (w.links.get l).pristine

/-- Whether every tree threads only links that its selector takes of some element. -/
def Selects (w : World α n m) (ts : Fin m → Shape n) : Prop :=
  ∀ k, ∀ l ∈ (ts k).inorder, ∃ a, (w.trees k).linkOf a = l

/-- Trees without links select all of them. -/
theorem selects_empty (w : World α n m) : w.Selects fun _ => .empty := by
  simp [Selects, Shape.inorder]

/-- A fresh world is sound: its trees thread nothing. -/
theorem Fresh.sound {w : World α n m} (h : w.Fresh) : w.Sound fun _ => .empty := by
  refine ⟨?_, h.origins, by simp [Shape.inorder], fun l _ => h.pristine l⟩
  intro k
  obtain ⟨hparent, hchild, hbalance⟩ := Links.parts_of_pristine (h.pristine (w.trees k).origin)
  refine ⟨⟨hchild .left, by simp [Shape.inorder], by simp [Shape.inorder], hparent, hchild .right⟩, trivial,
    trivial, ?_, h.size k, h.ownerless k, hbalance⟩
  intro l hl
  simp [Shape.inorder] at hl

/-! ## Checks -/

/-- The world with other checks after the changes of its trees. -/
def checking (w : World α n m) (v : Fin m → Bool) (order : Fin m → Option (α → α → Ordering)) :
    World α n m :=
  ⟨fun k => ((w.tree k).checking (v k) (order k)).tree, w.links⟩

/-- The check of each tree changes on its own. -/
theorem tree_checking (w : World α n m) (v : Fin m → Bool) (order : Fin m → Option (α → α → Ordering))
    (k : Fin m) : (w.checking v order).tree k = (w.tree k).checking (v k) (order k) :=
  rfl

/-- It makes no difference whether a tree changes before or after the checks do. -/
theorem put_checking (w : World α n m) (v : Fin m → Bool) (order : Fin m → Option (α → α → Ordering))
    (k : Fin m) (x : LinkedTree α n) :
    (w.checking v order).put k (x.checking (v k) (order k)) = (w.put k x).checking v order := by
  have htrees : Function.update (w.checking v order).trees k (x.checking (v k) (order k)).tree =
      ((w.put k x).checking v order).trees := by
    funext j
    by_cases hj : j = k
    · subst hj
      simp [checking]
    · simp [checking, LinkedTree.checking, tree, put, hj]
  rw [put, htrees]
  rfl

/-- A world is as fresh whatever its trees check. -/
theorem Fresh.checking {w : World α n m} (h : w.Fresh) (v : Fin m → Bool)
    (order : Fin m → Option (α → α → Ordering)) : (w.checking v order).Fresh :=
  ⟨h.pristine, h.ownerless, h.origins, h.size⟩

/-- A world is as sound whatever its trees check. -/
theorem Sound.checking {w : World α n m} {ts : Fin m → Shape n} (h : w.Sound ts) (v : Fin m → Bool)
    (order : Fin m → Option (α → α → Ordering)) : (w.checking v order).Sound ts :=
  ⟨fun k => (h.threads k).checking (v k) (order k), h.origins, h.apart, h.free⟩

/-! ## Worlds of one tree -/

/-- The world of one tree and `n` elements, each with a link of its own, before any request. -/
def single (n : Nat) : World (Fin n) (n + 1) 1 where
  trees _ := { tag := "", linkOf := Fin.succ, origin := 0, logger := none, verify := false, order := none,
               size := 0 }
  links := ⟨Vector.ofFn fun l => .fresh (Fin.cases none some l) ""⟩

/-- Each link of that world is as it was made. -/
theorem get_single (n : Nat) (l : LinkId (n + 1)) :
    (single n).links.get l = .fresh (Fin.cases none some l) "" := by
  simp [single, Links.get]

/-- The world of one tree is fresh. -/
theorem fresh_single (n : Nat) : (single n).Fresh where
  pristine l := by
    rw [get_single]
    rfl
  ownerless k := by
    rw [Links.owner, get_single]
    rfl
  origins j k _ := Subsingleton.elim j k
  size _ := rfl

/-- A tree of two elements that checks itself by the order that is opposite to theirs. -/
def descending : World (Fin 2) 3 1 :=
  (single 2).checking (fun _ => true) fun _ => some fun a b => compare b a

/-- The requests that insert the elements of that world, in ascending order. -/
def insertAll (n : Nat) : List (Fin 1 × Request (Fin n) (n + 1)) :=
  (List.finRange n).map fun a => (0, .insert (.ofOrdering (compare a)) () (.ok (some a)))

/-- The requests that insert these elements of it, one after the other, each at its place in ascending order. -/
def insertEach {n : Nat} (elements : List (Fin n)) : List (Fin 1 × Request (Fin n) (n + 1)) :=
  elements.map fun a => (0, .insert (.ofOrdering (compare a)) () (.ok (some a)))

/-- The tree of such a world once these elements have been inserted in that way. -/
def afterEach {n : Nat} (w : World (Fin n) (n + 1) 1) (elements : List (Fin n)) : LinkedTree (Fin n) (n + 1) :=
  (w.run (insertEach elements)).tree 0

namespace Sound

variable {w : World α n m} {ts : Fin m → Shape n} {k : Fin m}

/-- No tree threads the origin of any tree. -/
theorem origin_not_mem (h : w.Sound ts) (j k : Fin m) : (w.trees j).origin ∉ (ts k).inorder := by
  intro hmem
  obtain ⟨⟨a, ha⟩, -⟩ := (h.threads k).owned _ hmem
  have hnone : w.links.owner (w.trees j).origin = none := (h.threads j).ownerless
  exact Option.some_ne_none a (ha.symm.trans hnone)

/-- A link that is in no tree and is no origin hangs nowhere, and nothing hangs from it. -/
theorem loose (h : w.Sound ts) {l : LinkId n} (hl : ∀ k, l ≠ (w.trees k).origin ∧ l ∉ (ts k).inorder) :
    w.links.parent l = none ∧ ∀ s, w.links.child l s = none := by
  obtain ⟨hparent, hchild, -⟩ := Links.parts_of_pristine (h.free l hl)
  exact ⟨hparent, hchild⟩

/-- A link that may join a tree hangs in none, and is no origin. -/
theorem free_of_refuses? (h : w.Sound ts) {l : LinkId n} (hl : (w.tree k).refuses? l = none) (j : Fin m) :
    l ≠ (w.trees j).origin ∧ l ∉ (ts j).inorder := by
  obtain ⟨-, howner, hparent, -⟩ := (LinkedTree.refuses?_eq_none_iff l).mp hl
  exact (h.threads j).not_mem_of_unlinked howner hparent

end Sound

/-! ## Changes of one tree -/

/--
What a request to one tree of a sound world comes to: the tree threads another shape, the links that have
changed are its own or have joined it, those that joined were free and are among those that the tree selects,
and those that left are as before they first joined.
-/
structure Moves (w : World α n m) (ts : Fin m → Shape n) (k : Fin m) (x : LinkedTree α n) (u : Shape n) :
    Prop where
  threads : x.Threads u
  alike : (w.tree k).Alike x
  edit : Links.Edit w.links x.links (w.trees k).origin .left ((ts k).inorder ++ u.inorder)
  joined : ∀ l ∈ u.inorder, l ∈ (ts k).inorder ∨
    (∃ a, (w.trees k).linkOf a = l) ∧ ∀ j, l ≠ (w.trees j).origin ∧ l ∉ (ts j).inorder
  left : ∀ l ∈ (ts k).inorder, l ∉ u.inorder → x.links.get l = (w.links.get l).pristine

namespace Moves

variable {w : World α n m} {ts : Fin m → Shape n} {k : Fin m} {x y : LinkedTree α n} {u v : Shape n}

/-- A request that leaves its tree as it was. -/
theorem refl (h : w.Sound ts) (k : Fin m) : w.Moves ts k (w.tree k) (ts k) :=
  ⟨h.threads k, .refl _, .refl _ _ _ _, fun _ hl => Or.inl hl, fun _ hl hout => absurd hl hout⟩

/-- The other trees' links are left alone. -/
theorem elsewhere (h : w.Sound ts) (hm : w.Moves ts k x u) {j : Fin m} (hj : j ≠ k) {l : LinkId n}
    (hl : l = (w.trees j).origin ∨ l ∈ (ts j).inorder) : l ∉ u.inorder ∧ x.links.get l = w.links.get l := by
  have hout : l ≠ (w.trees k).origin ∧ l ∉ (ts k).inorder := by
    rcases hl with rfl | hl
    · exact ⟨fun heq => hj (h.origins j k heq), h.origin_not_mem j k⟩
    · exact ⟨fun heq => h.origin_not_mem k j (heq ▸ hl), h.apart j k hj l hl⟩
  have hu : l ∉ u.inorder := by
    intro hmem
    rcases hm.joined l hmem with hmem | ⟨-, hfree⟩
    · exact hout.2 hmem
    · rcases hl with hl | hl
      · exact (hfree j).1 hl
      · exact (hfree j).2 hl
  refine ⟨hu, hm.edit.outside l hout.1 ?_⟩
  intro hmem
  rcases List.mem_append.mp hmem with hmem | hmem
  · exact hout.2 hmem
  · exact hu hmem

/-- The world after a change of one tree is sound. -/
theorem sound (h : w.Sound ts) (hm : w.Moves ts k x u) : (w.put k x).Sound (Function.update ts k u) := by
  have horigins : ∀ j, ((w.put k x).trees j).origin = (w.trees j).origin :=
    fun j => (w.put_alike hm.alike j).origin_eq
  refine ⟨?_, ?_, ?_, ?_⟩
  · intro j
    by_cases hj : j = k
    · subst hj
      simpa using hm.threads
    · rw [Function.update_of_ne hj, tree_put_of_ne w hj]
      exact (h.threads j).congr rfl fun l hl => (hm.elsewhere h hj hl).2
  · intro i j hij
    rw [horigins, horigins] at hij
    exact h.origins i j hij
  · intro i j hij l hl
    by_cases hi : i = k
    · subst hi
      rw [Function.update_of_ne (Ne.symm hij)]
      rw [Function.update_self] at hl
      intro hmem
      exact (hm.elsewhere h (Ne.symm hij) (Or.inr hmem)).1 hl
    · rw [Function.update_of_ne hi] at hl
      by_cases hj : j = k
      · subst hj
        rw [Function.update_self]
        exact (hm.elsewhere h hi (Or.inr hl)).1
      · rw [Function.update_of_ne hj]
        exact h.apart i j hij l hl
  · intro l hl
    have hu : l ∉ u.inorder := by
      have hk := (hl k).2
      rwa [Function.update_self] at hk
    have hothers : ∀ j, j ≠ k → l ≠ (w.trees j).origin ∧ l ∉ (ts j).inorder := by
      intro j hj
      have hj' := hl j
      rwa [horigins, Function.update_of_ne hj] at hj'
    have hko : l ≠ (w.trees k).origin := horigins k ▸ (hl k).1
    show x.links.get l = (x.links.get l).pristine
    by_cases hlk : l ∈ (ts k).inorder
    · rw [hm.left l hlk hu]
      rfl
    · have hout : l ∉ (ts k).inorder ++ u.inorder := by simp [hlk, hu]
      rw [hm.edit.outside l hko hout]
      apply h.free l
      intro j
      by_cases hj : j = k
      · subst hj
        exact ⟨hko, hlk⟩
      · exact hothers j hj

/-- After a change, a tree still threads only links that it selects. -/
theorem selects (hw : w.Selects ts) (hm : w.Moves ts k x u) :
    (w.put k x).Selects (Function.update ts k u) := by
  intro j l hl
  have hlinkOf : ((w.put k x).trees j).linkOf = (w.trees j).linkOf := (w.put_alike hm.alike j).linkOf_eq
  rw [hlinkOf]
  by_cases hj : j = k
  · subst hj
    rw [Function.update_self] at hl
    rcases hm.joined l hl with hl | ⟨hselected, -⟩
    · exact hw j l hl
    · exact hselected
  · rw [Function.update_of_ne hj] at hl
    exact hw j l hl

/-- Two changes of one tree, one after the other: a link that joined and left again is as it was. -/
theorem trans (h : w.Sound ts) (hm : w.Moves ts k x u)
    (hm' : (w.put k x).Moves (Function.update ts k u) k y v) : w.Moves ts k y v := by
  obtain ⟨hthreads, halike, hedit, hjoined, hleft⟩ := hm'
  have horigins : ∀ j, ((w.put k x).trees j).origin = (w.trees j).origin :=
    fun j => (w.put_alike hm.alike j).origin_eq
  rw [tree_put_self] at halike
  rw [horigins, Function.update_self] at hedit
  rw [Function.update_self] at hjoined hleft
  change Links.Edit x.links y.links _ _ _ at hedit
  change ∀ l ∈ u.inorder, l ∉ v.inorder → y.links.get l = (x.links.get l).pristine at hleft
  have hfresh : ∀ l ∈ (ts k).inorder, l ≠ (w.trees k).origin := by
    rintro l hl rfl
    exact h.origin_not_mem k k hl
  refine ⟨hthreads, hm.alike.trans halike, ⟨?_, ?_, ?_, ?_, ?_, ?_⟩, ?_, ?_⟩
  · exact fun l => (hedit.owner l).trans (hm.edit.owner l)
  · exact fun l => (hedit.tag l).trans (hm.edit.tag l)
  · intro l hlo hl
    simp only [List.mem_append, not_or] at hl
    by_cases hu : l ∈ u.inorder
    · have hfree := ((hm.joined l hu).resolve_left hl.1).2
      rw [hleft l hu hl.2, hm.edit.pristine, ← h.free l hfree]
    · rw [hedit.outside l hlo (by simp [hu, hl.2]), hm.edit.outside l hlo (by simp [hu, hl.1])]
  · exact hedit.parent.trans hm.edit.parent
  · exact hedit.child.trans hm.edit.child
  · exact hedit.balance.trans hm.edit.balance
  · intro l hl
    rcases hjoined l hl with hu | ⟨hselected, hfree⟩
    · exact hm.joined l hu
    by_cases hlk : l ∈ (ts k).inorder
    · exact Or.inl hlk
    refine Or.inr ⟨?_, ?_⟩
    · have hlinkOf : ((w.put k x).trees k).linkOf = (w.trees k).linkOf :=
        (w.put_alike hm.alike k).linkOf_eq
      rwa [hlinkOf] at hselected
    · intro j
      refine ⟨horigins j ▸ (hfree j).1, ?_⟩
      by_cases hj : j = k
      · exact hj ▸ hlk
      · have hj' := (hfree j).2
        rwa [Function.update_of_ne hj] at hj'
  · intro l hl hv
    by_cases hu : l ∈ u.inorder
    · rw [hleft l hu hv, hm.edit.pristine]
    · rw [hedit.outside l (hfresh l hl) (by simp [hu, hv]), hm.left l hl hu]

end Moves

namespace Sound

variable {w : World α n m} {ts : Fin m → Shape n} {k : Fin m}

/-- A tree accepts a link exactly if it carries its tag, has an owner and hangs in no tree of the world. -/
theorem refuses?_eq_none_iff (h : w.Sound ts) (l : LinkId n) :
    (w.tree k).refuses? l = none ↔
      w.links.tag l = (w.trees k).tag ∧ w.links.owner l ≠ none ∧ ∀ j, l ∉ (ts j).inorder := by
  rw [LinkedTree.refuses?_eq_none_iff]
  constructor
  · rintro ⟨htag, ⟨a, ha⟩, hparent, -⟩
    refine ⟨htag, ?_, fun j => ((h.threads j).not_mem_of_unlinked ⟨a, ha⟩ hparent).2⟩
    intro hnone
    exact Option.some_ne_none a (ha.symm.trans hnone)
  · rintro ⟨htag, howner, hout⟩
    obtain ⟨a, ha⟩ := Option.ne_none_iff_exists'.mp howner
    have horigin : ∀ j, l ≠ (w.trees j).origin := by
      rintro j rfl
      exact howner (h.threads j).ownerless
    obtain ⟨hparent, hchild⟩ := h.loose fun j => ⟨horigin j, hout j⟩
    exact ⟨htag, ⟨a, ha⟩, hparent, hchild⟩

/-- What a tree of a sound world threads is settled by the links alone. -/
theorem shape_eq (h : w.Sound ts) {u : Shape n} (hu : (w.tree k).Threads u) : ts k = u :=
  (h.threads k).unique hu

/-! ## Requests to a sound world -/

/-- The way up from a link ends at a tree's origin exactly if the tree threads the link. -/
theorem owns_eq (h : w.Sound ts) (k : Fin m) (l : LinkId n) :
    (w.tree k).owns l = .ok (decide (l ∈ (ts k).inorder)) := by
  have hlinks : (w.tree k).links = w.links := rfl
  have horigin : (w.tree k).origin = (w.trees k).origin := rfl
  unfold LinkedTree.owns
  rw [hlinks, horigin]
  by_cases htree : ∃ j, l ∈ (ts j).inorder
  · obtain ⟨j, hj⟩ := htree
    obtain ⟨⟨a, ha⟩, -⟩ := (h.threads j).owned l hj
    have howner : w.links.owner l = some a := ha
    have htop : w.links.top l = some (w.trees j).origin := (h.threads j).carries.top_eq hj
    simp only [howner, htop, reached, Except.map]
    by_cases hjk : j = k
    · subst hjk
      simp [hj]
    · have hk : l ∉ (ts k).inorder := h.apart j k hjk l hj
      have hne : (w.trees j).origin ≠ (w.trees k).origin := fun heq => hjk (h.origins j k heq)
      simp [hk, hne]
  · have hnone : ∀ j, l ∉ (ts j).inorder := fun j hj => htree ⟨j, hj⟩
    rw [decide_eq_false (hnone k)]
    cases howner : w.links.owner l with
    | none => rfl
    | some a =>
      have hne : ∀ j, l ≠ (w.trees j).origin := by
        rintro j rfl
        have hownerless : w.links.owner (w.trees j).origin = none := (h.threads j).ownerless
        simp [hownerless] at howner
      obtain ⟨hparent, -⟩ := h.loose fun j => ⟨hne j, hnone j⟩
      have htop := Links.top_of_parent_none hparent
      simp only [htop, reached, Except.map, beq_eq_false_iff_ne.mpr (hne k)]

/-- A target can be erased exactly if it stands for a link that the tree threads. -/
theorem erasable_eq (h : w.Sound ts) (k : Fin m) (target : Target α n) :
    (w.tree k).erasable target =
      match (w.tree k).linkOfTarget target with
      | none => .error (.violation .eraseThroughDefault)
      | some l =>
        if l = (w.trees k).origin then .error (.violation .eraseEnd)
        else if l ∈ (ts k).inorder then .ok l else .error (.violation .notInTree) := by
  unfold LinkedTree.erasable
  cases (w.tree k).linkOfTarget target with
  | none => rfl
  | some l =>
    simp only [h.owns_eq]
    by_cases hl : l ∈ (ts k).inorder
    · simp [hl, LinkedTree.origin, tree]
    · simp [hl, LinkedTree.origin, tree]

/--
The ways in which an erasure can end. The target stands for no link that the tree threads and is refused; or
its link is taken out of the order, and the result is the cursor on the next link.
-/
inductive Erases (w : World α n m) (ts : Fin m → Shape n) (k : Fin m) (target : Target α n) :
    Outcome (LinkedTree α n) Event (Cursor n) → Prop
  | refused {cause : Violation} (refusal : (w.tree k).erasable target = .error (.violation cause))
      (precondition : cause.cls = .precondition)
      (outside : ∀ l, (w.tree k).linkOfTarget target = some l → l ∉ (ts k).inorder) :
      Erases w ts k target (.fail (w.tree k) (.violation cause))
  | erased {l : LinkId n} {xs ys : List (LinkId n)} {fs : List (Frame n)} {d : Shape n} {g : Links α n}
      (link : (w.tree k).linkOfTarget target = some l) (order : (ts k).inorder = xs ++ l :: ys)
      (threads : ((w.tree k).resized g (-1)).Threads (Shape.shrunk fs d).2)
      (rest : (Shape.shrunk fs d).2.inorder = xs ++ ys)
      (edit : Links.Edit w.links g (w.trees k).origin .left (ts k).inorder)
      (out : g.get l = (w.links.get l).pristine) :
      Erases w ts k target
        ⟨(w.tree k).resized g (-1), ((Shape.shrunk fs d).1 ++ .erased ((w.trees k).size - 1) ::
              (((w.tree k).resized g (-1)).checkAfter .erase).log).filter (w.trees k).keeps,
          (((w.tree k).resized g (-1)).checkAfter .erase).result.map
            fun _ => .on (ys.head?.getD (w.trees k).origin)⟩

/-- An erasure ends in one of these ways, for any target. -/
theorem erases (h : w.Sound ts) (k : Fin m) (target : Target α n) :
    Erases w ts k target ((w.tree k).erase target) := by
  have herasable := h.erasable_eq k target
  unfold LinkedTree.erase
  cases hlink : (w.tree k).linkOfTarget target with
  | none =>
    simp only [hlink] at herasable
    simp only [herasable]
    exact .refused herasable rfl (by simp [hlink])
  | some l =>
    by_cases horigin : l = (w.trees k).origin
    · simp only [hlink, horigin, if_true] at herasable
      simp only [herasable]
      apply Erases.refused herasable rfl
      intro i hi
      rw [hlink, horigin, Option.some.injEq] at hi
      exact hi ▸ h.origin_not_mem k k
    by_cases hl : l ∈ (ts k).inorder
    · obtain ⟨xs, ys, hsplit⟩ := List.append_of_mem hl
      have hnext : (w.tree k).links.successor l = some (ys.head?.getD (w.tree k).origin) :=
        (h.threads k).carries.successor_eq hsplit
      obtain ⟨fs, d, hplace⟩ := Shape.exists_exposed hl
      obtain ⟨g, hrun, hthreads, herase, hedit, hget⟩ := (h.threads k).eraseLink_eq hplace
      simp only [hlink, horigin, if_false, hl, if_true] at herasable
      simp only [herasable, hnext, Outcome.keeping, Outcome.map, hrun]
      refine .erased hlink hsplit hthreads ?_ hedit hget
      have hnot : l ∉ xs := by
        have hnodup := (h.threads k).carries.nodup
        rw [hsplit] at hnodup
        intro hmem
        exact (List.nodup_append.mp hnodup).2.2 l hmem l (by simp) rfl
      rw [herase, hsplit, List.erase_append_right _ hnot, List.erase_cons_head]
    · simp only [hlink, horigin, if_false, hl] at herasable
      simp only [herasable]
      apply Erases.refused herasable rfl
      intro i hi
      rw [hlink, Option.some.injEq] at hi
      exact hi ▸ hl

/-- What an insertion comes to, whatever the comparator answers and the caller supplies. -/
theorem insert_moves {σ : Type} (h : w.Sound ts) (k : Fin m) (c : Comparator σ α) (s : σ)
    (supply : Except String (Option α)) :
    ∃ u, w.Moves ts k ((w.tree k).insert c s supply).outcome.state u := by
  have hends := (h.threads k).inserts c s supply
  generalize (w.tree k).insert c s supply = r at hends
  cases hends with
  | @linked fs _ _ a g _ hplace _ hrefuse hthreads hedit =>
    have hgrown : ∀ i, i ∈ (Shape.grown fs (.node .empty ((w.tree k).tree.linkOf a) .empty)).2.inorder ↔
        i = (w.tree k).tree.linkOf a ∨ i ∈ (ts k).inorder := by
      intro i
      rw [Shape.inorder_grown, hplace, Shape.mem_inorder_plug, Shape.mem_inorder_plug]
      simp [Shape.inorder]
    refine ⟨_, hthreads, rfl, hedit.mono ?_, ?_, ?_⟩
    · intro i hi
      rw [List.mem_append, hgrown]
      exact Or.inr (List.mem_cons.mp hi)
    · intro i hi
      rcases (hgrown i).mp hi with rfl | hi
      · exact Or.inr ⟨⟨a, rfl⟩, h.free_of_refuses? hrefuse⟩
      · exact Or.inl hi
    · intro i hi hout
      exact absurd ((hgrown i).mpr (Or.inr hi)) hout
  | _ => exact ⟨_, .refl h k⟩

/-- What an erasure comes to, whatever the target is. -/
theorem erase_moves (h : w.Sound ts) (k : Fin m) (target : Target α n) :
    ∃ u, w.Moves ts k ((w.tree k).erase target).state u := by
  have hends := h.erases k target
  generalize (w.tree k).erase target = r at hends
  cases hends with
  | refused => exact ⟨_, .refl h k⟩
  | @erased l xs ys fs d g _ hsplit hthreads hinorder hedit hget =>
    refine ⟨_, hthreads, rfl, hedit.mono (fun i hi => List.mem_append_left _ hi), ?_, ?_⟩
    · intro i hi
      rw [hinorder] at hi
      rw [hsplit]
      simp only [List.mem_append, List.mem_cons] at hi ⊢
      tauto
    · intro i hi hout
      rw [hinorder] at hout
      rw [hsplit] at hi
      simp only [List.mem_append, List.mem_cons] at hi hout
      obtain rfl : i = l := by tauto
      exact hget

/--
A load is one insertion after the other, until one of them fails: what holds of a sound world and is kept by
the insertion of each value holds after the load.
-/
theorem load_invariant {σ : Type} {I : World α n m → (Fin m → Shape n) → Prop} {less : Less σ α}
    {values : List α} (h : w.Sound ts) (hI : I w ts)
    (hinsert : ∀ {w ts}, Sound w ts → I w ts → ∀ value ∈ values, ∀ s, ∃ u,
      w.Moves ts k ((w.tree k).insert (less.comparator value) s (.ok (some value))).outcome.state u ∧
        I (w.put k ((w.tree k).insert (less.comparator value) s (.ok (some value))).outcome.state)
          (Function.update ts k u)) (s : σ) :
    ∃ u, w.Moves ts k ((w.tree k).load less s values).state u ∧
      I (w.put k ((w.tree k).load less s values).state) (Function.update ts k u) := by
  induction values generalizing w ts s with
  | nil =>
    have hsame : (w.tree k).load less s [] = .pure (w.tree k) 0 := rfl
    rw [hsame, Outcome.pure, put_tree]
    exact ⟨ts k, .refl h k, by rwa [Function.update_eq_self]⟩
  | cons value values ih =>
    obtain ⟨u, hfirst, hI'⟩ := hinsert h hI value (List.mem_cons_self ..) s
    obtain ⟨v, hrest, hI''⟩ := ih (hfirst.sound h) hI'
      (fun hw hw' value hvalue => hinsert hw hw' value (List.mem_cons_of_mem _ hvalue))
      ((w.tree k).insert (less.comparator value) s (.ok (some value))).state
    rw [tree_put_self] at hrest hI''
    cases hresult : ((w.tree k).insert (less.comparator value) s (.ok (some value))).outcome.result with
    | error e =>
      rw [LinkedTree.load_cons_of_error hresult]
      exact ⟨u, hfirst, hI'⟩
    | ok placement =>
      rw [LinkedTree.load_cons_of_ok rfl hresult]
      rw [put_put, Function.update_idem] at hI''
      exact ⟨v, hfirst.trans h hrest, hI''⟩

/-- What a load comes to. -/
theorem load_moves {σ : Type} (h : w.Sound ts) (k : Fin m) (less : Less σ α) (s : σ) (values : List α) :
    ∃ u, w.Moves ts k ((w.tree k).load less s values).state u := by
  have hinsert : ∀ {w : World α n m} {ts}, Sound w ts → True → ∀ value ∈ values, ∀ s, ∃ u,
      w.Moves ts k ((w.tree k).insert (less.comparator value) s (.ok (some value))).outcome.state u ∧ True := by
    intro w ts hw _ value _ s
    obtain ⟨u, hm⟩ := hw.insert_moves k (less.comparator value) s (.ok (some value))
    exact ⟨u, hm, trivial⟩
  obtain ⟨u, hm, -⟩ := h.load_invariant (I := fun _ _ => True) trivial hinsert s
  exact ⟨u, hm⟩

/-- What a clearing comes to. -/
theorem clear_moves (h : w.Sound ts) (k : Fin m) : w.Moves ts k (w.tree k).clear .empty := by
  obtain ⟨hthreads, hedit, hget⟩ := (h.threads k).clear
  exact ⟨hthreads, rfl, hedit.mono (fun i hi => List.mem_append_left _ hi), by simp [Shape.inorder],
    fun i hi _ => hget i hi⟩

/-- What any request to any tree comes to. -/
theorem step_moves (h : w.Sound ts) (k : Fin m) (r : Request α n) :
    ∃ u, w.Moves ts k (r.run (w.tree k)) u := by
  cases r with
  | insert c s supply => exact h.insert_moves k c s supply
  | erase target => exact h.erase_moves k target
  | load less s values => exact h.load_moves k less s values
  | clear => exact ⟨_, h.clear_moves k⟩

/-- A world stays sound under any request to any of its trees. -/
theorem step (h : w.Sound ts) (k : Fin m) (r : Request α n) : ∃ us, (w.step k r).Sound us := by
  obtain ⟨u, hm⟩ := h.step_moves k r
  exact ⟨_, hm.sound h⟩

/-- What holds of a sound world, and is kept whatever a tree of it changes to, holds after any requests. -/
theorem run_invariant {P : World α n m → (Fin m → Shape n) → Prop}
    (hmoves : ∀ {w ts k x u}, Sound w ts → P w ts → Moves w ts k x u → P (w.put k x) (Function.update ts k u))
    (h : w.Sound ts) (hw : P w ts) (rs : List (Fin m × Request α n)) :
    ∃ us, (w.run rs).Sound us ∧ P (w.run rs) us := by
  induction rs generalizing w ts with
  | nil => exact ⟨ts, h, hw⟩
  | cons r rs ih =>
    obtain ⟨u, hm⟩ := h.step_moves r.1 r.2
    exact ih (hm.sound h) (hmoves h hw hm)

/-- A world stays sound under any sequence of requests. -/
theorem run (h : w.Sound ts) (rs : List (Fin m × Request α n)) : ∃ us, (w.run rs).Sound us := by
  obtain ⟨us, hsound, -⟩ := h.run_invariant (P := fun _ _ => True) (fun _ _ _ => trivial) trivial rs
  exact ⟨us, hsound⟩

/-- Requests change no link's owner or tag. -/
theorem run_identity (h : w.Sound ts) (rs : List (Fin m × Request α n)) (l : LinkId n) :
    (w.run rs).links.owner l = w.links.owner l ∧ (w.run rs).links.tag l = w.links.tag l := by
  obtain ⟨-, -, hkept⟩ := h.run_invariant
    (P := fun v _ => ∀ l, v.links.owner l = w.links.owner l ∧ v.links.tag l = w.links.tag l)
    (fun _ hv hm l => ⟨(hm.edit.owner l).trans (hv l).1, (hm.edit.tag l).trans (hv l).2⟩)
    (fun _ => ⟨rfl, rfl⟩) rs
  exact hkept l

/-- Trees that thread only links which they select do so after any requests. -/
theorem run_selects (h : w.Sound ts) (hs : w.Selects ts) (rs : List (Fin m × Request α n)) :
    ∃ us, (w.run rs).Sound us ∧ (w.run rs).Selects us :=
  h.run_invariant (fun _ hw hm => hm.selects hw) hs rs

end Sound

/-- Requests change no setting of any tree. -/
theorem run_alike (w : World α n m) (rs : List (Fin m × Request α n)) (k : Fin m) :
    (w.tree k).Alike ((w.run rs).tree k) := by
  induction rs generalizing w with
  | nil => exact LinkedTree.Alike.refl _
  | cons r rs ih => exact (w.put_alike (r.2.run_alike (w.tree r.1)) k).trans (ih (w.step r.1 r.2))

/--
From a fresh world, every sequence of requests to its trees leads to a sound one, however the comparators
answer, whatever is supplied, and whether or not a request fails.
-/
theorem sound_run {w : World α n m} (h : w.Fresh) (rs : List (Fin m × Request α n)) :
    ∃ ts, (w.run rs).Sound ts :=
  h.sound.run rs

/-- Inserting three elements in ascending order, which takes a rotation, leads to a sound tree of three. -/
theorem sound_run_ascending :
    (single 3).Fresh ∧ ∃ ts, ((single 3).run ([0, 1, 2].map fun a =>
      (0, .insert (.ofOrdering (compare a)) () (.ok (some a))))).Sound ts ∧ (ts 0).inorder.length = 3 := by
  obtain ⟨ts, hsound⟩ := sound_run (fresh_single 3)
    ([0, 1, 2].map fun a => (0, .insert (.ofOrdering (compare a)) () (.ok (some a))))
  have hsize : (((single 3).run ([0, 1, 2].map fun a =>
      (0, .insert (.ofOrdering (compare a)) () (.ok (some a))))).trees 0).size = 3 := by
    decide +kernel
  refine ⟨fresh_single 3, ts, hsound, ?_⟩
  have hlength := (hsound.threads 0).size.symm.trans hsize
  omega

end World

end BalancedLinks
