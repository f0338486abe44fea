import BalancedLinks.Graphviz
import BalancedLinks.Proofs.Clearing
import BalancedLinks.Proofs.Holding

/-!
# Drawings of trees

The graph of a tree that threads a shape has a statement for each link of the shape in order, and for each of
them one edge to each child. Nothing stops it from being printed, since every link of the shape has an element.
Of a tree that holds a sorted list, it names the elements of the list in order.

The main statements are `LinkedTree.Threads.graphviz_eq` and `LinkedTree.Holds.exists_graphviz`.
-/

set_option autoImplicit false

namespace BalancedLinks

variable {α : Type} {n : Nat}

/-! ## Statements and names -/

namespace Graphviz

/--
Whether the nodes of a graph are those of the names, in order and one for each, and each of its edges leads
from one of them to another.
-/
structure Statements.Names (s : Statements) (names : List String) : Prop where
  nodes : List.Forall₂ (fun statement name => ∃ balance, statement = nodeStatement name balance) s.nodes names
  edges : ∀ statement ∈ s.edges, ∃ parent ∈ names, ∃ side, ∃ child ∈ names,
    statement = edgeStatement parent side child

end Graphviz

open Graphviz

namespace LinkedTree

variable {x : LinkedTree α n} {t : Shape n} {label : α → String}

/-- The name of a link's node: that of its element. -/
def nodeNameOf (x : LinkedTree α n) (label : α → String) (l : LinkId n) : String :=
  ((x.links.owner l).map label).getD ""

/-- The edges from a link's node to those of its children, the left one first. -/
def edgesFrom (x : LinkedTree α n) (label : α → String) (l : LinkId n) : List String :=
  [Side.left, Side.right].flatMap fun s =>
    (x.links.child l s).toList.map fun c => edgeStatement (x.nodeNameOf label l) s (x.nodeNameOf label c)

/-- The statements for the links named, in order. -/
def drawing (x : LinkedTree α n) (label : α → String) (ls : List (LinkId n)) : Statements :=
  ⟨ls.map fun l => nodeStatement (x.nodeNameOf label l) (x.links.balance l), ls.flatMap (x.edgesFrom label)⟩

namespace Threads

/-- An edge to a child is drawn where there is a child. -/
theorem edgeTo_eq (h : x.Threads t) {l : LinkId n} (hl : l ∈ t.inorder) (name : String) (s : Side) :
    x.edgeTo label l name s =
      .ok ((x.links.child l s).toList.map fun c => edgeStatement name s (x.nodeNameOf label c)) := by
  cases hchild : x.links.child l s with
  | none => simp only [edgeTo, hchild, Option.toList_none, List.map_nil]
  | some c =>
    obtain ⟨⟨a, ha⟩, -⟩ := h.owned c (h.carries.spans.child_mem hl hchild)
    simp only [edgeTo, hchild, Cursor.value, Cursor.on, ha, Except.map, nodeNameOf, Option.map_some,
      Option.getD_some, Option.toList_some, List.map_cons, List.map_nil]

/-- The statements for one link of the shape. -/
theorem statementsAt_eq (h : x.Threads t) {l : LinkId n} (hl : l ∈ t.inorder) :
    x.statementsAt label l = .ok (x.drawing label [l]) := by
  obtain ⟨⟨a, ha⟩, -⟩ := h.owned l hl
  have hname : x.nodeNameOf label l = label a := by simp only [nodeNameOf, ha, Option.map_some, Option.getD_some]
  simp only [statementsAt, Cursor.value, Cursor.on, ha, h.edgeTo_eq hl]
  simp [drawing, edgesFrom, hname]

/-- The statements from a link of the shape on, or from the origin at its end. -/
theorem statementsWithin_eq (h : x.Threads t) {xs ys : List (LinkId n)} (hsplit : t.inorder = xs ++ ys)
    {k : Nat} (hk : ys.length < k) :
    x.statementsWithin label k (ys.head?.getD x.origin) = .ok (x.drawing label ys) := by
  induction ys generalizing xs k with
  | nil =>
    obtain ⟨k, rfl⟩ : ∃ i, k = i + 1 := ⟨k - 1, by omega⟩
    simp [statementsWithin, drawing]
  | cons l ys ih =>
    obtain ⟨k, rfl⟩ : ∃ i, k = i + 1 := ⟨k - 1, by omega⟩
    have hl : l ∈ t.inorder := by simp [hsplit]
    have hlo : l ≠ x.origin := fun heq => h.carries.fresh (heq ▸ hl)
    have hnext := h.carries.successor_eq hsplit
    have hsplit' : t.inorder = (xs ++ [l]) ++ ys := by simp [hsplit]
    have hrest := ih hsplit' (k := k) (by simpa using hk)
    simp only [statementsWithin, List.head?_cons, Option.getD_some, if_neg hlo, h.statementsAt_eq hl, hnext, hrest,
      Except.map]
    simp [drawing]

/-- A tree that threads a shape is drawn without fail, link by link in the order of the shape. -/
theorem graphviz_eq (h : x.Threads t) (label : α → String) :
    x.graphviz label = .ok (x.drawing label t.inorder).render := by
  have hlength : t.inorder.length < n + 1 := by
    have hlt := Shape.length_inorder_lt h.carries.nodup h.carries.fresh
    omega
  have hwhole : t.inorder = [] ++ t.inorder := rfl
  rw [graphviz, h.carries.outermost_origin]
  simp only [h.statementsWithin_eq hwhole hlength, Except.map]

/-- Each edge of a drawing leads from the node of a link of the shape to that of another. -/
theorem names_drawing (h : x.Threads t) (label : α → String) :
    (x.drawing label t.inorder).Names (t.inorder.map (x.nodeNameOf label)) := by
  constructor
  · simp only [drawing, List.forall₂_map_left_iff, List.forall₂_map_right_iff]
    exact List.forall₂_same.mpr fun l _ => ⟨_, rfl⟩
  · intro statement hstatement
    simp only [drawing, edgesFrom, List.mem_flatMap, List.mem_map, Option.mem_toList] at hstatement
    obtain ⟨l, hl, s, -, c, hc, rfl⟩ := hstatement
    have hmem : c ∈ t.inorder := h.carries.spans.child_mem hl hc
    exact ⟨_, List.mem_map_of_mem hl, s, _, List.mem_map_of_mem hmem, rfl⟩

end Threads

/-- The drawing of a tree that holds a list names the elements of the list in order. -/
theorem Holds.exists_graphviz {lt : α → α → Prop} {as : List α} (h : x.Holds lt as) (label : α → String) :
    ∃ s : Statements, x.graphviz label = .ok s.render ∧ s.Names (as.map label) := by
  obtain ⟨t, ht, horder⟩ := h.order
  have hnames : t.inorder.map (x.nodeNameOf label) = as.map label := by
    rw [horder, List.map_map]
    refine List.map_congr_left fun a ha => ?_
    simp only [Function.comp_apply, nodeNameOf, h.own a ha, Option.map_some, Option.getD_some]
  exact ⟨_, ht.graphviz_eq label, hnames ▸ ht.names_drawing label⟩

end LinkedTree

end BalancedLinks
