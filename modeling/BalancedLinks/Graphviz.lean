import BalancedLinks.Tree

/-!
# Graphviz

A tree as a directed graph in the language of Graphviz: a statement for each element in order, filled by
its balance, and an edge to each child from the corner on its side.
-/

set_option autoImplicit false

namespace BalancedLinks

namespace Graphviz

/-- The fill of a node: black when level, blue when heavy on the left, orange when heavy on the right. -/
def fillColor (balance : Balance) : String :=
  if balance = .level then "black" else if balance.isLeftHeavy then "blue" else "orange"

/-- The corner of a node that the edge to a child leaves from. -/
def corner : Side → String
  | .left => "sw"
  | .right => "se"

/-- The statement for a node. -/
def nodeStatement (name : String) (balance : Balance) : String :=
  name ++ "[fillcolor=" ++ fillColor balance ++ "];"

/-- The statement for the edge to a child. -/
def edgeStatement (name : String) (side : Side) (child : String) : String :=
  name ++ ":" ++ corner side ++ "->" ++ child ++ ":n;"

/-- The statements of a graph. -/
structure Statements where
  nodes : List String
  edges : List String
  deriving DecidableEq, Repr

/-- A graph as text: the nodes on one line and the edges on the next. -/
def Statements.render (s : Statements) : String :=
  "digraph \x7b\nnode[style=filled,fontcolor=white];\n" ++ String.join s.nodes ++ "\n"
    ++ String.join s.edges ++ "\n\x7d\n"

end Graphviz

namespace LinkedTree

variable {α : Type} {n : Nat}

open Graphviz

/-- The edge from an element to its child on one side, if there is a child. -/
def edgeTo (x : LinkedTree α n) (label : α → String) (l : LinkId n) (name : String) (s : Side) :
    Except Violation (List String) :=
  match x.links.child l s with
  | none => .ok []
  | some c => ((Cursor.on c).value x.links).map fun a => [edgeStatement name s (label a)]

/-- The statements for the element of one link. -/
def statementsAt (x : LinkedTree α n) (label : α → String) (l : LinkId n) :
    Except Violation Statements :=
  match (Cursor.on l).value x.links with
  | .error cause => .error cause
  | .ok a =>
    let name := label a
    match x.edgeTo label l name .left, x.edgeTo label l name .right with
    | .ok left, .ok right => .ok ⟨[nodeStatement name (x.links.balance l)], left ++ right⟩
    | .error cause, _ => .error cause
    | _, .error cause => .error cause

/-- The statements for the elements from a link on, for at most the given number of links. -/
def statementsWithin (x : LinkedTree α n) (label : α → String) :
    Nat → LinkId n → Except Failure Statements
  | 0, _ => .error .endless
  | k + 1, l =>
    if l = x.origin then .ok ⟨[], []⟩
    else
      match x.statementsAt label l with
      | .error cause => .error (.violation cause)
      | .ok here =>
        match x.links.successor l with
        | none => .error .endless
        | some next =>
          (statementsWithin x label k next).map fun rest =>
            ⟨here.nodes ++ rest.nodes, here.edges ++ rest.edges⟩

/-- The tree as a directed graph whose nodes are named by their elements. -/
def graphviz (x : LinkedTree α n) (label : α → String) : Except Failure String :=
  match x.links.outermost x.origin .left with
  | none => .error .endless
  | some l => (x.statementsWithin label (n + 1) l).map Statements.render

end LinkedTree

end BalancedLinks
