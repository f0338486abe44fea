import BalancedLinks.Graphviz
import BalancedLinks.Verification
import BalancedLinks.Proofs.World

/-!
# Operations and replies

Everything that can be asked of a tree, and everything that is told in reply: the answer, what was reported,
which elements were handed to the comparator, and how often the caller was asked for an element. Cursors and
traversals are values of the caller, who hands them in and gets them back.

The main statements are `World.Sound.operate_moves`, what an operation comes to, and `World.operateAll_alike`.
-/

set_option autoImplicit false

namespace BalancedLinks

variable {α : Type} {n m : Nat}

/-- What can be asked of a tree: a change, or a question that leaves it as it is. -/
inductive Operation (α : Type) (n : Nat) : Type 1 where
  | change (r : Request α n)
  | find {σ : Type} (c : Comparator σ α) (s : σ)
  | findElement {σ : Type} (c : Comparator σ α) (s : σ)
  | contains (a : α)
  | extreme (s : Side)
  | size
  | isEmpty
  | beginCursor
  | endCursor
  | listing (s : Side)
  | advance (t : Traversal n)
  | next (c : Cursor n)
  | previous (c : Cursor n)
  | value (c : Cursor n)
  | balance (c : Cursor n)
  | child (c : Cursor n) (s : Side)
  | verify (order : Option (α → α → Ordering))
  | graphviz (label : α → String)

/-- The answer to an operation. -/
inductive Operation.Answer (α : Type) (n : Nat) where
  | placement (result : Except Failure (Placement n))
  | cursor (result : Except Failure (Cursor n))
  | count (result : Except Failure Nat)
  | size (size : Int)
  | truth (result : Except Failure Bool)
  | element (result : Except Failure (Option α))
  | value (result : Except Failure α)
  | elements (result : Except Failure (List α))
  | advanced (result : Except Failure (Option α × Traversal n))
  | balance (result : Except Failure Balance)
  | text (result : Except Failure String)
  | done

/-- The reply to an operation. -/
structure Operation.Reply (α : Type) (n : Nat) where
  answer : Operation.Answer α n
  /-- What the tree reported. -/
  log : List Event := []
  /-- The elements handed to the comparator. -/
  visited : List α := []
  /-- How often the caller was asked for an element. -/
  made : Nat := 0

/-- The reply of a tree to a change. -/
def Request.reply (x : LinkedTree α n) : Request α n → Operation.Reply α n
  | .insert c s supply =>
    let r := x.insert c s supply
    { answer := .placement r.outcome.result, log := r.outcome.log, visited := r.visited, made := r.made }
  | .erase target => { answer := .cursor (x.erase target).result, log := (x.erase target).log }
  | .load less s values =>
    { answer := .count (x.load less s values).result, log := (x.load less s values).log }
  | .clear => { answer := .done }

namespace Operation

/-- The tree after an operation. -/
def after (x : LinkedTree α n) : Operation α n → LinkedTree α n
  | change r => r.run x
  | _ => x

/-- The reply of a tree to an operation. -/
def reply (x : LinkedTree α n) : Operation α n → Reply α n
  | change r => r.reply x
  | find c s => { answer := .cursor (x.find c s), visited := (x.locate c s).visited }
  | findElement c s => { answer := .element (x.findElement c s), visited := (x.locate c s).visited }
  | contains a => { answer := .truth (x.contains a) }
  | extreme s => { answer := .element (x.extreme s) }
  | size => { answer := .size x.tree.size }
  | isEmpty => { answer := .truth (.ok x.isEmpty) }
  | beginCursor => { answer := .cursor x.beginCursor }
  | endCursor => { answer := .cursor (.ok x.endCursor) }
  | listing s => { answer := .elements (x.collect ⟨s, .unstarted⟩) }
  | advance t => { answer := .advanced (x.advance t) }
  | next c => { answer := .cursor (c.next x.links) }
  | previous c => { answer := .cursor (c.previous x.links) }
  | value c => { answer := .value (checked (c.value x.links)) }
  | balance c => { answer := .balance (checked (c.balance x.links)) }
  | child c s => { answer := .cursor (checked (c.child x.links s)) }
  | verify order => { answer := .count (x.verify order) }
  | graphviz label => { answer := .text (x.graphviz label) }

/-- No operation changes the settings of its tree. -/
theorem after_alike (op : Operation α n) (x : LinkedTree α n) : x.Alike (op.after x) := by
  cases op with
  | change r => exact r.run_alike x
  | _ => rfl

end Operation

namespace World

variable {w : World α n m} {ts : Fin m → Shape n}

/-- The world after an operation on one of its trees. -/
def operate (w : World α n m) (k : Fin m) (op : Operation α n) : World α n m :=
  w.put k (op.after (w.tree k))

/-- The world after a sequence of operations. -/
def operateAll (w : World α n m) (ops : List (Fin m × Operation α n)) : World α n m :=
  ops.foldl (fun w op => w.operate op.1 op.2) w

/-- The replies to a sequence of operations, each with the tree that it comes from. -/
def replies : World α n m → List (Fin m × Operation α n) → List (Fin m × Operation.Reply α n)
  | _, [] => []
  | w, (k, op) :: ops => (k, op.reply (w.tree k)) :: (w.operate k op).replies ops

/-- Operations are carried out one after the other. -/
@[simp] theorem operateAll_cons (w : World α n m) (k : Fin m) (op : Operation α n)
    (ops : List (Fin m × Operation α n)) :
    w.operateAll ((k, op) :: ops) = (w.operate k op).operateAll ops :=
  rfl

/-- What an operation comes to. -/
theorem Sound.operate_moves (h : w.Sound ts) (k : Fin m) (op : Operation α n) :
    ∃ u, w.Moves ts k (op.after (w.tree k)) u := by
  cases op with
  | change r => exact h.step_moves k r
  | _ => exact ⟨_, .refl h k⟩

/-- No sequence of operations changes the settings of a tree. -/
theorem operateAll_alike (w : World α n m) (ops : List (Fin m × Operation α n)) (k : Fin m) :
    (w.tree k).Alike ((w.operateAll ops).tree k) := by
  induction ops generalizing w with
  | nil => exact LinkedTree.Alike.refl _
  | cons op ops ih => exact (w.put_alike (op.2.after_alike (w.tree op.1)) k).trans (ih (w.operate op.1 op.2))

end World

end BalancedLinks
