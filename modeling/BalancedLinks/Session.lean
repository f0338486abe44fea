import BalancedLinks.Erasure
import BalancedLinks.Session.Step

/-!
# Sessions

A session holds items, links, trees, and the cursors and traversals that were given names. It starts from a
setup, which fixes how many links there are: two for each item, one for each ghost, and an origin for each
tree that is there at the start or planted later.

A tree may take a link by its name. The name is looked up whenever the tree is used, so it may be that of a
tree planted later.
-/

set_option autoImplicit false

namespace BalancedLinks

/-- The value and the index of an item. -/
structure ItemSpec where
  value : Number
  index : Int
  deriving DecidableEq, Repr

/-- What a session starts from, and what it is asked. -/
structure Setup where
  items : List ItemSpec
  /-- The tags of the ghosts. -/
  ghosts : List String
  trees : List TreeSpec
  steps : List Step
  /-- Whether the trees that a step changed are shown. -/
  showTrees : Bool
  deriving DecidableEq, Repr

/-- Whether a step plants a tree. -/
def Step.plants : Step → Bool
  | .plant _ _ _ => true
  | _ => false

namespace Setup

/-- The number of origins: one for each tree, and one for each step that plants one. -/
def originCount (setup : Setup) : Nat :=
  setup.trees.length + setup.steps.countP Step.plants

/-- The number of links of the session. -/
def linkCount (setup : Setup) : Nat :=
  2 * setup.items.length + setup.ghosts.length + setup.originCount

/-- The items, with the first links of the session. -/
def itemTable (setup : Setup) : List (Item setup.linkCount) :=
  setup.items.mapFinIdx fun i spec h =>
    { id := i, value := spec.value, index := spec.index
      primary := ⟨2 * i, by unfold linkCount; omega⟩
      secondary := ⟨2 * i + 1, by unfold linkCount; omega⟩ }

/-- The link of a ghost. -/
def ghostLink (setup : Setup) (k : Fin setup.ghosts.length) : LinkId setup.linkCount :=
  ⟨2 * setup.items.length + k, by unfold linkCount; omega⟩

/-- The link of an origin. -/
def originLink (setup : Setup) (k : Fin setup.originCount) : LinkId setup.linkCount :=
  ⟨2 * setup.items.length + setup.ghosts.length + k, by unfold linkCount; omega⟩

end Setup

/-- A tree of a session: what it was made with, its origin, and its size. -/
structure Planted (n : Nat) where
  spec : TreeSpec
  origin : LinkId n
  size : Int
  deriving DecidableEq

/-- The tree that takes the given links for its elements. -/
def Planted.tree {n : Nat} (p : Planted n) (linkOf : Item n → LinkId n) : Tree (Item n) n :=
  { tag := p.spec.tag, linkOf, origin := p.origin, logger := p.spec.logger, verify := p.spec.verify
    order := p.spec.order.map Criterion.order, size := p.size }

/-- A session. -/
structure Session (n : Nat) where
  items : Array (Item n)
  ghosts : Array (LinkId n)
  links : Links (Item n) n
  trees : Array (Planted n)
  /-- The names of links; an origin has one once its tree is there. -/
  names : Vector String n
  /-- The origins that no tree has taken yet. -/
  spare : List (LinkId n)
  cursors : List (String × Cursor n)
  /-- Each traversal with the tree it goes through. -/
  traversals : List (String × Nat × Traversal n)

namespace Session

variable {n : Nat}

/-- A list of named values with one more, in place of an earlier one of that name. -/
def put {β : Type} (table : List (String × β)) (name : String) (value : β) : List (String × β) :=
  (name, value) :: table.filter fun entry => entry.1 != name

/-! ## Looking up -/

/-- The link of a name. -/
def link? (s : Session n) : LinkName → Option (LinkId n)
  | .primary i => s.items[i]?.map Item.primary
  | .secondary i => s.items[i]?.map Item.secondary
  | .ghost k => s.ghosts[k]?
  | .origin t => s.trees[t]?.map Planted.origin

/-- What a reference is to become: the link of a name, or no link. -/
def target? (s : Session n) : Option LinkName → Option (Option (LinkId n))
  | none => some none
  | some name => (s.link? name).map some

/-- The name of a link. -/
def name (s : Session n) (l : LinkId n) : String :=
  s.names.get l

/-- The name of the link that a reference leads to. -/
def refName (s : Session n) (l : Option (LinkId n)) : Option String :=
  l.map s.name

/-- The name of the link under a cursor. -/
def cursorName (s : Session n) (c : Cursor n) : Option String :=
  s.refName c.link

/-- The link that a tree takes for an item: where the tree names a link that is not there, the first one. -/
def linkOf (s : Session n) (choice : LinkChoice) (a : Item n) : LinkId n :=
  match choice with
  | .primary => a.primary
  | .secondary => a.secondary
  | .fixed name => (s.link? name).getD a.primary

/-- A tree as it is now, with the links of the session. -/
def linked (s : Session n) (p : Planted n) : LinkedTree (Item n) n :=
  ⟨p.tree (s.linkOf p.spec.choice), s.links⟩

/-- The tree of a number. -/
def tree? (s : Session n) (t : Nat) : Option (LinkedTree (Item n) n) :=
  s.trees[t]?.map s.linked

/-- The cursor kept under a name. -/
def cursor? (s : Session n) (name : String) : Option (Cursor n) :=
  s.cursors.lookup name

/-! ## Changing -/

/-- The session after a tree has changed: its links and its size. -/
def putTree (s : Session n) (t : Nat) (x : LinkedTree (Item n) n) : Session n :=
  { s with links := x.links, trees := s.trees.modify t fun p => { p with size := x.tree.size } }

/-- The session with a cursor kept under a name. -/
def keep (s : Session n) (name : String) (c : Cursor n) : Session n :=
  { s with cursors := put s.cursors name c }

/-- The session with a cursor kept under a name, if one is given. -/
def keepTo (s : Session n) (keepAs : Option String) (c : Cursor n) : Session n :=
  match keepAs with
  | none => s
  | some name => s.keep name c

/-! ## Planting trees -/

/-- The session with one more tree, whose origin gets its name. -/
def addTree (s : Session n) (p : Planted n) : Session n :=
  { s with
    trees := s.trees.push p
    names := s.names.set p.origin (LinkName.origin s.trees.size).text }

/-- Takes a spare origin and gives it a tag. -/
def takeOrigin? (s : Session n) (tag : String) : Option (LinkId n × Session n) :=
  match s.spare with
  | [] => none
  | origin :: spare => some (origin, { s with links := s.links.set origin (.fresh none tag), spare })

/-- The session with an empty tree more. -/
def addEmptyTree (s : Session n) (spec : TreeSpec) : Session n :=
  match s.takeOrigin? spec.tag with
  | none => s
  | some (origin, s) => s.addTree { spec, origin, size := 0 }

/-! ## Starting -/

/-- The session with the links of an item in place. -/
def addItem (s : Session n) (a : Item n) : Session n :=
  { s with
    items := s.items.push a
    links := (s.links.set a.primary (.fresh (some a) "primary")).set a.secondary
      (.fresh (some a) "secondary")
    names := (s.names.set a.primary (LinkName.primary a.id).text).set a.secondary
      (LinkName.secondary a.id).text }

/-- The session with the link of a ghost in place. -/
def addGhost (s : Session n) (ghost : LinkId n × String) : Session n :=
  { s with
    ghosts := s.ghosts.push ghost.1
    links := s.links.set ghost.1 (.fresh none ghost.2)
    names := s.names.set ghost.1 (LinkName.ghost s.ghosts.size).text }

/-- The name of an origin whose tree is not there. -/
def nameless : String := "?"

/-- The session at the start of a setup. -/
def start (setup : Setup) : Session setup.linkCount :=
  let blank : Session setup.linkCount :=
    { items := #[], ghosts := #[], links := ⟨Vector.replicate _ (.fresh none "")⟩, trees := #[]
      names := Vector.replicate _ nameless, spare := List.ofFn setup.originLink, cursors := [], traversals := [] }
  let ghosts := (List.ofFn setup.ghostLink).zip setup.ghosts
  let s := setup.itemTable.foldl addItem blank
  let s := ghosts.foldl addGhost s
  setup.trees.foldl addEmptyTree s

end Session

end BalancedLinks
