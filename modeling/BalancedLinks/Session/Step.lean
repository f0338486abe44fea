import BalancedLinks.Session.Item

/-!
# Steps and replies

What can be asked of a session, one step at a time, and what it replies.
-/

set_option autoImplicit false

namespace BalancedLinks

/-- The links of a session by name. -/
inductive LinkName where
  /-- The first link of an item. -/
  | primary (item : Nat)
  /-- The second link of an item. -/
  | secondary (item : Nat)
  /-- A link without an owner, outside all trees. -/
  | ghost (number : Nat)
  /-- The origin of a tree. -/
  | origin (tree : Nat)
  deriving DecidableEq, Repr

/-- A name as it is written. -/
def LinkName.text : LinkName → String
  | .primary item => toString item ++ "p"
  | .secondary item => toString item ++ "s"
  | .ghost number => "g" ++ toString number
  | .origin tree => "o" ++ toString tree

/-- Which link a tree takes for an element. -/
inductive LinkChoice where
  | primary
  | secondary
  /-- The same link whatever the element. -/
  | fixed (name : LinkName)
  deriving DecidableEq, Repr

/-- What a tree is made with. -/
structure TreeSpec where
  tag : String
  choice : LinkChoice
  verify : Bool
  order : Option Criterion
  logger : Option Level
  deriving DecidableEq, Repr

/-- What the caller supplies when an insertion asks for an element. -/
inductive Supply where
  | item
  | declined
  | failing
  deriving DecidableEq, Repr

/-- How an element is named in a graph. -/
inductive Labelling where
  | value
  | id
  | index
  deriving DecidableEq, Repr

/-- What a check sees in place of the tree's own end and size. -/
structure ViewChange where
  /-- The link to take for the end, or none for a default cursor. -/
  endLink : Option (Option LinkName)
  size : Option Int
  deriving DecidableEq, Repr

/-- Where a cursor is placed. -/
inductive CursorPlace where
  | beginOf (tree : Nat)
  | endOf (tree : Nat)
  | nowhere
  | onLink (link : LinkName)
  deriving DecidableEq, Repr

/-- What an erasure names. -/
inductive ErasureTarget where
  | item (id : Nat)
  | cursor (name : String)
  deriving DecidableEq, Repr

/-- A field of a link. -/
inductive LinkField where
  | parent (target : Option LinkName)
  | child (side : Side) (target : Option LinkName)
  | balance (value : Int)
  deriving DecidableEq, Repr

/-- One step of a session. The resulting position is kept under the cursor name `keepAs`, if there is one. -/
inductive Step where
  | insert (tree item : Nat) (query : Option Query) (supply : Supply) (keepAs : Option String)
  | load (tree : Nat) (items : List Nat) (ranking : Ranking)
  | plant (spec : TreeSpec) (items : List Nat) (ranking : Ranking)
  | find (tree : Nat) (query : Query) (keepAs : Option String)
  | findElement (tree : Nat) (query : Query)
  | contains (tree item : Nat)
  | erase (tree : Nat) (target : ErasureTarget) (keepAs : Option String)
  | clear (tree : Nat)
  | summary (tree : Nat)
  | list (tree : Nat) (towards : Side) (take : Option Nat)
  | verify (tree : Nat) (order : Option Criterion) (view : ViewChange)
  | graphviz (tree : Nat) (labelling : Labelling)
  | shape (tree : Nat)
  | place (cursor : String) (place : CursorPlace)
  | advance (cursor : String)
  | retreat (cursor : String)
  | advanceAfter (cursor : String) (keepAs : Option String)
  | retreatAfter (cursor : String) (keepAs : Option String)
  | value (cursor : String)
  | balance (cursor : String)
  | child (cursor : String) (side : Side) (keepAs : Option String)
  | copy (cursor : String) (keepAs : Option String)
  | sameAs (cursor other : String)
  | isPlaced (cursor : String)
  | traverse (traversal : String) (tree : Nat) (towards : Side)
  | next (traversal : String)
  | setField (link : LinkName) (field : LinkField)
  | attach (link : LinkName) (side : Side) (child : LinkName)
  | setChild (link : LinkName) (side : Side) (target : Option LinkName)
  | reset (link : LinkName)
  | link (link : LinkName)
  | links
  | outermost (link : LinkName) (side : Side)
  | successor (link : LinkName)
  | predecessor (link : LinkName)
  | rotate (link : LinkName) (towards : Side)
  | repair (link : LinkName) (logger : Option Level)
  | settleGrowth (link : LinkName) (logger : Option Level)
  | settleShrinkage (link : LinkName) (side : Side) (logger : Option Level)
  deriving DecidableEq, Repr

/-- Everything about a link. -/
structure LinkReport where
  owner : Option Nat
  tag : String
  parent : Option String
  left : Option String
  right : Option String
  balance : Balance
  isLeft : Bool
  isRight : Bool
  isOrigin : Bool
  isLinked : Bool
  deriving DecidableEq, Repr

/-- The place of a link in the table of links. -/
structure LinkRow where
  link : String
  parent : Option String
  left : Option String
  right : Option String
  balance : Balance
  deriving DecidableEq, Repr

/-- The reply to a step. -/
inductive Reply where
  | nothing
  | flag (b : Bool)
  | count (i : Int)
  | balance (b : Balance)
  | text (s : String)
  | element (id : Option Nat)
  | elements (ids : List Nat)
  /-- No element is left. -/
  | done
  | link (name : Option String)
  | moved (name : Option String)
  | parted (result cursor : Option String)
  | inserted (inserted : Bool) (position : Option String) (visited : List Nat) (made : Nat)
  | found (position : Option String) (visited : List Nat)
  | summary (tag : String) (size : Int) (empty : Bool) (min max : Option Nat)
  | shape (size : Int) (shape : String)
  | linkReport (report : LinkReport)
  | linkRows (rows : List LinkRow)
  | failed (failure : Failure)
  | searchFailed (failure : Failure) (visited : List Nat)
  | insertionFailed (failure : Failure) (visited : List Nat) (made : Nat)
  /-- The step names something that the session does not have. -/
  | unknown
  deriving DecidableEq, Repr

/-- What a tree looks like after a step that changed it. -/
structure TreeChange where
  tree : Nat
  size : Int
  shape : String
  deriving DecidableEq, Repr

/-- The reply to a step, the lines that were logged, and the trees that look different now. -/
structure StepReport where
  reply : Reply
  log : List String
  changes : List TreeChange
  deriving DecidableEq, Repr

end BalancedLinks
