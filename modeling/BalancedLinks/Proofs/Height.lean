import BalancedLinks.Proofs.Verifier
import BalancedLinks.Proofs.World
import Mathlib.Data.Nat.Fib.Basic

/-!
# Heights and the cost of searches

A balanced shape of a given height has at least a Fibonacci number of links, less one, so heights are
logarithmic in sizes. A search goes down one way from the root, whatever the comparator answers, and asks it
about the element of each link on the way once. One element can embed two links of a tree, and is asked about twice
then.

The main statement is `World.shallow_run`; `World.locate_twofold` shows such an element.
-/

set_option autoImplicit false

namespace BalancedLinks

/-- The least number of links of a balanced shape of some height, by the recursion on its two subshapes. -/
theorem Shape.fib_height_le {n : Nat} {t : Shape n} (h : t.Balanced) :
    Nat.fib (t.height + 2) ≤ t.inorder.length + 1 := by
  induction t with
  | empty => simp [height, inorder]
  | node a l b iha ihb =>
    obtain ⟨htilt, hba, hbb⟩ := h
    have ha := iha hba
    have hb := ihb hbb
    simp only [tilt] at htilt
    simp only [height, inorder, List.length_append, List.length_cons]
    -- the lower subshape is lower by one at most, and the other one has the height of the larger
    rcases Nat.le_total a.height b.height with hle | hle
    · have hlower : Nat.fib (b.height + 1) ≤ Nat.fib (a.height + 2) := Nat.fib_mono (by omega)
      have hsum : Nat.fib (1 + max a.height b.height + 2) = Nat.fib (b.height + 1) + Nat.fib (b.height + 2) := by
        rw [Nat.max_eq_right hle, Nat.add_comm 1, Nat.fib_add_two]
      omega
    · have hlower : Nat.fib (a.height + 1) ≤ Nat.fib (b.height + 2) := Nat.fib_mono (by omega)
      have hsum : Nat.fib (1 + max a.height b.height + 2) = Nat.fib (a.height + 1) + Nat.fib (a.height + 2) := by
        rw [Nat.max_eq_left hle, Nat.add_comm 1, Nat.fib_add_two]
      omega

namespace Links

variable {σ α : Type} {n : Nat} {g : Links α n}

/-- Whether the links lead down from a slot: the first one is in it, and each other is a child of the last. -/
inductive Path (g : Links α n) : Option (LinkId n) → List (LinkId n) → Prop
  | nil (slot : Option (LinkId n)) : Path g slot []
  | cons {l : LinkId n} {ls : List (LinkId n)} (s : Side) (rest : Path g (g.child l s) ls) :
    Path g (some l) (l :: ls)

/-- Whether elements are those of the links on a way down a shape, which is no longer than the shape is high. -/
structure GoesDown (g : Links α n) (slot : Option (LinkId n)) (t : Shape n) (path : List (LinkId n))
    (visited : List α) : Prop where
  leads : g.Path slot path
  length_le : path.length ≤ t.height
  nodup : path.Nodup
  mem : ∀ l ∈ path, l ∈ t.inorder
  owners : visited.map some = path.map g.owner

namespace GoesDown

/-- A way down can end before its first link. -/
theorem nil (slot : Option (LinkId n)) (t : Shape n) : g.GoesDown slot t [] [] :=
  ⟨.nil slot, Nat.zero_le _, List.nodup_nil, by simp, rfl⟩

/-- A way down a side of a link goes on from the link. -/
theorem cons {s : Side} {a b : Shape n} {l : LinkId n} {path : List (LinkId n)} {e : α} {visited : List α}
    (h : g.GoesDown (g.child l s) a path visited) (hl : l ∉ a.inorder) (he : g.owner l = some e) :
    g.GoesDown (some l) (.fork s a l b) (l :: path) (e :: visited) where
  leads := .cons s h.leads
  length_le := by
    have hlength := h.length_le
    rw [List.length_cons, Shape.height_fork]
    omega
  nodup := List.nodup_cons.mpr ⟨fun hmem => hl (h.mem l hmem), h.nodup⟩
  mem := by
    intro k hk
    rw [Shape.mem_inorder_fork]
    exact (List.mem_cons.mp hk).imp_right fun hk => Or.inl (h.mem k hk)
  owners := by rw [List.map_cons, List.map_cons, h.owners, he]

end GoesDown

/-- A search through a shape asks about the links of one way down. -/
theorem Spans.goesDown {p : LinkId n} {side : Side} {t : Shape n} {tag : String} {k : Nat}
    (h : g.Spans (g.child p side) p t) (howned : g.Owned tag t) (hnodup : t.inorder.Nodup)
    (c : Comparator σ α) (s : σ) :
    ∃ path, g.GoesDown (g.child p side) t path (g.searchWithin c k s p side).visited := by
  induction k generalizing p side t s with
  | zero =>
    refine ⟨[], ?_⟩
    unfold searchWithin
    split <;> exact .nil _ t
  | succ k ih =>
    cases t with
    | empty =>
      have hslot : g.child p side = none := h
      rw [searchWithin]
      simp only [hslot]
      exact ⟨[], .nil none .empty⟩
    | node a l b =>
      obtain ⟨hslot, -, ha, hb⟩ := h
      obtain ⟨hla, hlb, hnda, hndb, -⟩ := (Shape.nodup_inorder_fork .left a l b).mp hnodup
      obtain ⟨⟨e, he⟩, -⟩ := howned l (by simp)
      have hstop : g.GoesDown (some l) (.node a l b) [l] [e] :=
        (GoesDown.nil (g.child l .left) a).cons hla he
      have hdown : ∀ (t' : Side) (s' : σ), ∃ path, g.GoesDown (some l) (.node a l b) path
          (e :: (g.searchWithin c k s' l t').visited) := by
        intro t' s'
        cases t' with
        | left =>
          obtain ⟨path, hpath⟩ := ih ha (fun i hi => howned i (by simp [hi])) hnda s'
          exact ⟨l :: path, hpath.cons hla he⟩
        | right =>
          obtain ⟨path, hpath⟩ := ih hb (fun i hi => howned i (by simp [hi])) hndb s'
          exact ⟨l :: path, hpath.cons hlb he⟩
      rw [searchWithin]
      simp only [hslot, he]
      cases hask : c.ask s e with
      | error message => exact ⟨[l], hstop⟩
      | ok reply =>
        obtain ⟨answer, s'⟩ := reply
        cases answer with
        | eq => exact ⟨[l], hstop⟩
        | lt => exact hdown .left s'
        | gt => exact hdown .right s'

/-- Whether no two links of a shape are embedded in one element. -/
def EmbeddedApart (g : Links α n) (t : Shape n) : Prop :=
  ∀ l ∈ t.inorder, ∀ k ∈ t.inorder, g.owner l = g.owner k → l = k

end Links

namespace LinkedTree

variable {σ α : Type} {n : Nat} {x : LinkedTree α n}

/--
Whether the elements handed to a comparator in a tree of this shape are at most as many as it is high, and those of
the links of one way down from the root: of different links, and so different elements unless one embeds two of the
tree's links.
-/
structure AsksAlong (x : LinkedTree α n) (t : Shape n) (visited : List α) : Prop where
  length_le : visited.length ≤ t.height
  path : ∃ path, x.links.Path x.root path ∧ path.Nodup ∧ visited.map some = path.map x.links.owner
  nodup : x.links.EmbeddedApart t → visited.Nodup

/-- An insertion asks about what a search with the same comparator asks about. -/
theorem insert_visited (x : LinkedTree α n) (c : Comparator σ α) (s : σ)
    (supply : Except String (Option α)) : (x.insert c s supply).visited = (x.locate c s).visited := by
  simp only [insert, locate]
  split <;> rfl

/-- A search in a tree asks about the elements of one way down, and so about no more than the tree is high. -/
theorem Threads.asksAlong {t : Shape n} (h : x.Threads t) (c : Comparator σ α) (s : σ) :
    x.AsksAlong t (x.locate c s).visited := by
  obtain ⟨path, hdown⟩ := h.carries.spans.goesDown (k := c.memory + n) h.owned h.carries.nodup c s
  have howners : (x.locate c s).visited.map some = path.map x.links.owner := hdown.owners
  refine ⟨?_, ⟨path, hdown.leads, hdown.nodup, howners⟩, ?_⟩
  · have hlengths : (x.locate c s).visited.length = path.length := by
      simpa only [List.length_map] using congrArg List.length howners
    exact hlengths.trans_le hdown.length_le
  · intro hone
    have hdistinct : (path.map x.links.owner).Nodup :=
      hdown.nodup.map_on fun l hl k hk howner => hone l (hdown.mem l hl) k (hdown.mem k hk) howner
    rw [← howners] at hdistinct
    exact hdistinct.of_map some

end LinkedTree

namespace World

variable {α : Type} {n m : Nat}

/--
After any requests to the trees of a fresh world, the height of each tree is at most logarithmic in its size:
the Fibonacci number two above it, less one, is no larger. A search and an insertion in the tree ask about at
most as many elements as it is high, all along one way down, whatever the comparator answers. They ask about no
element twice, unless there is one that embeds two links of the tree.
-/
theorem shallow_run {w : World α n m} (h : w.Fresh) (rs : List (Fin m × Request α n)) (k : Fin m) :
    ∃ t, ((w.run rs).tree k).Threads t ∧ ((w.run rs).tree k).verify none = .ok t.height ∧
      (Nat.fib (t.height + 2) : Int) - 1 ≤ ((w.run rs).trees k).size ∧
      ∀ {σ : Type} (c : Comparator σ α) (s : σ),
        ((w.run rs).tree k).AsksAlong t (((w.run rs).tree k).locate c s).visited ∧
          ∀ supply, ((w.run rs).tree k).AsksAlong t (((w.run rs).tree k).insert c s supply).visited := by
  obtain ⟨ts, hsound⟩ := h.sound.run rs
  have hthreads := hsound.threads k
  refine ⟨ts k, hthreads, hthreads.verify_eq_ok (by simp), ?_, fun c s => ⟨?_, fun supply => ?_⟩⟩
  · have hfib := Shape.fib_height_le hthreads.balanced
    have hsize : ((w.run rs).trees k).size = (ts k).inorder.length := hthreads.size
    omega
  · exact hthreads.asksAlong c s
  · rw [LinkedTree.insert_visited]
    exact hthreads.asksAlong c s

/--
In the tree of three elements that were inserted in ascending order, a search asks about two at most, and about
none of them twice.
-/
theorem shallow_run_ascending :
    (single 3).Fresh ∧ ∀ {σ : Type} (c : Comparator σ (Fin 3)) (s : σ),
      ((((single 3).run (insertAll 3)).tree 0).locate c s).visited.length ≤ 2 ∧
        ((((single 3).run (insertAll 3)).tree 0).locate c s).visited.Nodup := by
  obtain ⟨t, -, hverify, -, hasks⟩ := shallow_run (fresh_single 3) (insertAll 3) 0
  have hheight : (((single 3).run (insertAll 3)).tree 0).verify none = .ok 2 := by decide +kernel
  have howners : ∀ l k, (((single 3).run (insertAll 3)).tree 0).links.owner l =
      (((single 3).run (insertAll 3)).tree 0).links.owner k → l = k := by
    decide +kernel
  have htwo : t.height = 2 := Except.ok.inj (hverify.symm.trans hheight)
  exact ⟨fresh_single 3, fun c s =>
    ⟨(hasks c s).1.length_le.trans htwo.le, (hasks c s).1.nodup fun l _ k _ => howners l k⟩⟩

/-- A tree that takes a link for either of two elements, both of which are embedded in the first one. -/
def twofold : World (Fin 2) 3 1 :=
  { single 2 with links := ⟨Vector.ofFn fun l => .fresh (Fin.cases none (fun _ => some ⟨0, Nat.two_pos⟩) l) ""⟩ }

/-- It links both, and a search that goes past the first link asks about the same element again. -/
theorem locate_twofold :
    twofold.Fresh ∧ ((twofold.run (insertAll 2)).tree 0).verify none = .ok 2 ∧
      (((twofold.run (insertAll 2)).tree 0).locate (.ofOrdering fun _ => .gt) ()).visited = [0, 0] := by
  have hlinks : ∀ l, twofold.links.get l = (twofold.links.get l).pristine := by decide +kernel
  have howner : ∀ k, twofold.links.owner (twofold.trees k).origin = none := by decide +kernel
  exact ⟨⟨hlinks, howner, (fresh_single 2).origins, (fresh_single 2).size⟩, by decide +kernel, by decide +kernel⟩

end World

end BalancedLinks
