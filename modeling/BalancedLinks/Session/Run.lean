import BalancedLinks.Graphviz
import BalancedLinks.LogLine
import BalancedLinks.Session
import BalancedLinks.Session.Shape

/-!
# Running a session

Each step changes the session, replies and may log. A step that fails ends there and keeps what it had
changed; the session goes on with the next one.
-/

set_option autoImplicit false

namespace BalancedLinks

/-- What a step leaves behind. -/
structure Stepped (n : Nat) where
  session : Session n
  reply : Reply
  log : List Event

namespace Session

variable {n : Nat}

/-- A step that changed nothing and logged nothing. -/
def said (s : Session n) (reply : Reply) : Stepped n :=
  ⟨s, reply, []⟩

/-- A step that only reads: its reply, or its failure. -/
def saidResult {β : Type} (s : Session n) (result : Except Failure β) (reply : β → Reply) : Stepped n :=
  match result with
  | .ok b => s.said (reply b)
  | .error failure => s.said (.failed failure)

/-- A step that results in a cursor, which is kept if a name is given. -/
def saidCursor (s : Session n) (result : Except Failure (Cursor n)) (keepAs : Option String) : Stepped n :=
  match result with
  | .ok c => (s.keepTo keepAs c).said (.link (s.cursorName c))
  | .error failure => s.said (.failed failure)

/-- A step on the links alone, with the reports that a logger keeps. -/
def didLinks {β : Type} (s : Session n) (outcome : Outcome (Links (Item n) n) Event β)
    (logger : Option Level) (reply : β → Reply) : Stepped n :=
  let log := outcome.log.filter fun e => logger.any fun level => level.keeps e.level
  let s := { s with links := outcome.state }
  match outcome.result with
  | .ok b => ⟨s, reply b, log⟩
  | .error failure => ⟨s, .failed failure, log⟩

/-- The ids of items. -/
def ids (items : List (Item n)) : List Nat :=
  items.map Item.id

/-! ## Steps on trees -/

/-- Inserts an item, and keeps the position under a name if one is given. -/
def insert (s : Session n) (t : Nat) (a : Item n) (query : Option Query) (supply : Supply)
    (keepAs : Option String) : Option (Stepped n) := do
  let x ← s.tree? t
  let query := query.getD { sought := .value a.value, failAt := none }
  let supplied : Except String (Option (Item n)) :=
    match supply with
    | .item => .ok (some a)
    | .declined => .ok none
    | .failing => .error "factory failed"
  let insertion := x.insert query.comparator 0 supplied
  let outcome := insertion.outcome
  let visited := ids insertion.visited
  let s := s.putTree t outcome.state
  match outcome.result with
  | .error failure => some ⟨s, .insertionFailed failure visited insertion.made, outcome.log⟩
  | .ok placement =>
    some ⟨s.keepTo keepAs placement.cursor,
      .inserted placement.inserted (s.cursorName placement.cursor) visited insertion.made, outcome.log⟩

/-- Loads items into a tree. -/
def load (s : Session n) (t : Nat) (items : List (Item n)) (ranking : Ranking) : Option (Stepped n) := do
  let x ← s.tree? t
  let outcome := x.load ranking.less 0 items
  let s := s.putTree t outcome.state
  match outcome.result with
  | .error failure => some ⟨s, .failed failure, outcome.log⟩
  | .ok count => some ⟨s, .count count, outcome.log⟩

/-- Plants a tree and loads items into it; a tree whose loading fails is not added. -/
def plant (s : Session n) (spec : TreeSpec) (items : List (Item n)) (ranking : Ranking) :
    Option (Stepped n) := do
  let (origin, s) ← s.takeOrigin? spec.tag
  let planted : Planted n := { spec, origin, size := 0 }
  let outcome := (s.linked planted).load ranking.less 0 items
  let s := { s with links := outcome.state.links }
  match outcome.result with
  | .error failure => some ⟨s, .failed failure, outcome.log⟩
  | .ok _ =>
    let size := outcome.state.tree.size
    some ⟨s.addTree { planted with size }, .count size, outcome.log⟩

/-- Finds an item, and keeps the position under a name if one is given. -/
def find (s : Session n) (t : Nat) (query : Query) (keepAs : Option String) : Option (Stepped n) := do
  let x ← s.tree? t
  let finding := x.locate query.comparator 0
  let visited := ids finding.visited
  match finding.result.map x.positionOf with
  | .error failure => some (s.said (.searchFailed failure visited))
  | .ok c => some ((s.keepTo keepAs c).said (.found (s.cursorName c) visited))

/-- What an erasure names: an item, or the position of a cursor. -/
def erasureTarget? (s : Session n) : ErasureTarget → Option (Target (Item n) n)
  | .item i => s.items[i]?.map .element
  | .cursor name => (s.cursor? name).map .cursor

/-- Erases, and keeps the position behind under a name if one is given. -/
def erase (s : Session n) (t : Nat) (target : ErasureTarget) (keepAs : Option String) :
    Option (Stepped n) := do
  let x ← s.tree? t
  let target ← s.erasureTarget? target
  let outcome := x.erase target
  let s := s.putTree t outcome.state
  match outcome.result with
  | .error failure => some ⟨s, .failed failure, outcome.log⟩
  | .ok c => some ⟨s.keepTo keepAs c, .link (s.cursorName c), outcome.log⟩

/-- The size and the extremes of a tree. -/
def summary (s : Session n) (t : Nat) : Option (Stepped n) := do
  let x ← s.tree? t
  match x.min?, x.max? with
  | .ok min, .ok max =>
    some (s.said
      (.summary x.tree.tag x.tree.size x.isEmpty (min.map Item.id) (max.map Item.id)))
  | .error failure, _ => some (s.said (.failed failure))
  | _, .error failure => some (s.said (.failed failure))

/-- The elements of a tree in one direction, all or the first few. -/
def list (s : Session n) (t : Nat) (towards : Side) (take : Option Nat) : Option (Stepped n) := do
  let x ← s.tree? t
  let traversal : Traversal n := ⟨towards, .unstarted⟩
  let elements :=
    match take with
    | none => x.collect traversal
    | some count => x.take traversal count
  some (s.saidResult elements fun items => .elements (ids items))

/-- Checks a tree, as it is or with another end or size. -/
def verify (s : Session n) (t : Nat) (order : Option Criterion) (change : ViewChange) :
    Option (Stepped n) := do
  let x ← s.tree? t
  let endLink ←
    match change.endLink with
    | none => some (some x.origin)
    | some name => s.target? name
  let view : View n :=
    { tag := x.tree.tag, endCursor := ⟨endLink⟩, size := change.size.getD x.tree.size }
  some (s.saidResult (x.verifyAs view (order.map Criterion.order)) fun height => .count height)

/-- The name of an item in a graph. -/
def label (labelling : Labelling) (a : Item n) : String :=
  match labelling with
  | .value => a.value.text
  | .id => "n" ++ toString a.id
  | .index => "\"" ++ a.indexNumber.text ++ "\""

/-! ## Steps on cursors -/

/-- Moves a cursor; the reply tells where it stands now. -/
def move (s : Session n) (cursor : String) (moved : Except Failure (Cursor n)) : Stepped n :=
  match moved with
  | .error failure => s.said (.failed failure)
  | .ok c => (s.keep cursor c).said (.moved (s.cursorName c))

/-- Moves a cursor and keeps where it stood, if a name is given for that. -/
def moveAfter (s : Session n) (cursor : String) (before : Cursor n) (moved : Except Failure (Cursor n))
    (keepAs : Option String) : Stepped n :=
  match moved with
  | .error failure => s.said (.failed failure)
  | .ok c =>
    ((s.keep cursor c).keepTo keepAs before).said (.parted (s.cursorName before) (s.cursorName c))

/-- The position that a cursor is placed at. -/
def placed? (s : Session n) : CursorPlace → Option (Except Failure (Cursor n))
  | .beginOf t => (s.tree? t).map LinkedTree.beginCursor
  | .endOf t => (s.tree? t).map fun x => .ok x.endCursor
  | .nowhere => some (.ok .default)
  | .onLink name => (s.link? name).map fun l => .ok (.on l)

/-- The next element of a traversal. -/
def next (s : Session n) (name : String) : Option (Stepped n) := do
  let (t, traversal) ← s.traversals.lookup name
  let x ← s.tree? t
  match x.advance traversal with
  | .error failure => some (s.said (.failed failure))
  | .ok (element, traversal) =>
    let s := { s with traversals := put s.traversals name (t, traversal) }
    match element with
    | none => some (s.said .done)
    | some a => some (s.said (.element (some a.id)))

/-! ## Steps on links -/

/-- The session with other links. -/
def withLinks (s : Session n) (links : Links (Item n) n) : Stepped n :=
  { s with links }.said .nothing

/-- Writes one field of a link. -/
def setField (s : Session n) (l : LinkId n) : LinkField → Option (Stepped n)
  | .parent target => (s.target? target).map fun target => s.withLinks (s.links.setParent l target)
  | .child side target => (s.target? target).map fun target => s.withLinks (s.links.setChild l side target)
  | .balance value => some (s.withLinks (s.links.setBalance l (.ofInt value)))

/-- Everything about a link. -/
def report (s : Session n) (l : LinkId n) : LinkReport :=
  let g := s.links
  { owner := (g.owner l).map Item.id, tag := g.tag l, parent := s.refName (g.parent l)
    left := s.refName (g.child l .left), right := s.refName (g.child l .right), balance := g.balance l
    isLeft := g.isChild l .left, isRight := g.isChild l .right, isOrigin := g.isOrigin l
    isLinked := g.isLinked l }

/-- The links that have names: those of items, then ghosts, then origins. -/
def namedLinks (s : Session n) : List (LinkId n) :=
  (s.items.toList.flatMap fun a => [a.primary, a.secondary]) ++ s.ghosts.toList
    ++ s.trees.toList.map Planted.origin

/-- The links that are not pristine. -/
def rows (s : Session n) : List LinkRow :=
  (s.namedLinks.filter fun l => !(s.links.get l).isPristine).map fun l =>
    { link := s.name l, parent := s.refName (s.links.parent l)
      left := s.refName (s.links.child l .left), right := s.refName (s.links.child l .right)
      balance := s.links.balance l }

/-- A step that walks to a link. -/
def walked (s : Session n) (l : Option (LinkId n)) : Stepped n :=
  s.saidResult (reached l) fun l => .link (some (s.name l))

/-- Rotates a link; the reply names the link on top now. -/
def rotate (s : Session n) (l : LinkId n) (towards : Side) : Stepped n :=
  match s.links.rotate l towards with
  | .error cause => s.said (.failed (.violation cause))
  | .ok (top, links) => { s with links }.said (.link (some (s.name top)))

/-! ## All steps -/

/-- Takes a step, unless it names something that is not there. -/
def step? (s : Session n) : Step → Option (Stepped n)
  | .insert t i query supply keepAs => do s.insert t (← s.items[i]?) query supply keepAs
  | .load t items ranking => do s.load t (← items.mapM fun i => s.items[i]?) ranking
  | .plant spec items ranking => do s.plant spec (← items.mapM fun i => s.items[i]?) ranking
  | .find t query keepAs => s.find t query keepAs
  | .findElement t query => do
    let x ← s.tree? t
    some (s.saidResult (x.findElement query.comparator 0) fun a => .element (a.map Item.id))
  | .contains t i => do
    let x ← s.tree? t
    some (s.saidResult (x.contains (← s.items[i]?)) .flag)
  | .erase t target keepAs => s.erase t target keepAs
  | .clear t => do some ((s.putTree t (← s.tree? t).clear).said .nothing)
  | .summary t => s.summary t
  | .list t towards take => s.list t towards take
  | .verify t order view => s.verify t order view
  | .graphviz t labelling => do
    some (s.saidResult ((← s.tree? t).graphviz (label labelling)) .text)
  | .shape t => do
    let x ← s.tree? t
    some (s.said (.shape x.tree.size (s.links.shape s.names x.origin)))
  | .place cursor place => do some (s.saidCursor (← s.placed? place) (some cursor))
  | .advance cursor => do some (s.move cursor ((← s.cursor? cursor).next s.links))
  | .retreat cursor => do some (s.move cursor ((← s.cursor? cursor).previous s.links))
  | .advanceAfter cursor keepAs => do
    let c ← s.cursor? cursor
    some (s.moveAfter cursor c (c.next s.links) keepAs)
  | .retreatAfter cursor keepAs => do
    let c ← s.cursor? cursor
    some (s.moveAfter cursor c (c.previous s.links) keepAs)
  | .value cursor => do
    some (s.saidResult (checked ((← s.cursor? cursor).value s.links)) fun a => .element (some a.id))
  | .balance cursor => do
    some (s.saidResult (checked ((← s.cursor? cursor).balance s.links)) .balance)
  | .child cursor side keepAs => do
    some (s.saidCursor (checked ((← s.cursor? cursor).child s.links side)) keepAs)
  | .copy cursor keepAs => do some (s.saidCursor (.ok (← s.cursor? cursor)) keepAs)
  | .sameAs cursor other => do
    let c ← s.cursor? cursor
    let d ← s.cursor? other
    some (s.said (.flag (c = d)))
  | .isPlaced cursor => do some (s.said (.flag (← s.cursor? cursor).isPlaced))
  | .traverse traversal t towards => do
    let _ ← s.tree? t
    let start : Traversal n := ⟨towards, .unstarted⟩
    some ({ s with traversals := put s.traversals traversal (t, start) }.said .nothing)
  | .next traversal => s.next traversal
  | .setField l field => do s.setField (← s.link? l) field
  | .attach l side child => do
    let l ← s.link? l
    let child ← s.link? child
    some (s.withLinks ((s.links.setChild l side (some child)).setParent child (some l)))
  | .setChild l side target => do
    let l ← s.link? l
    let target ← s.target? target
    some (s.withLinks (s.links.setChild l side target))
  | .reset l => do some (s.withLinks (s.links.reset (← s.link? l)))
  | .link l => do some (s.said (.linkReport (s.report (← s.link? l))))
  | .links => some (s.said (.linkRows s.rows))
  | .outermost l side => do some (s.walked (s.links.outermost (← s.link? l) side))
  | .successor l => do some (s.walked (s.links.successor (← s.link? l)))
  | .predecessor l => do some (s.walked (s.links.predecessor (← s.link? l)))
  | .rotate l towards => do some (s.rotate (← s.link? l) towards)
  | .repair l logger => do
    some (s.didLinks (s.links.repair (← s.link? l)) logger fun top => .link (some (s.name top)))
  | .settleGrowth l logger => do
    some (s.didLinks (s.links.settleGrowth (← s.link? l)) logger fun _ => .nothing)
  | .settleShrinkage l side logger => do
    some (s.didLinks (s.links.settleShrinkage (← s.link? l) side) logger fun _ => .nothing)

/-- Takes a step; one that names something that is not there changes nothing. -/
def step (s : Session n) (step : Step) : Stepped n :=
  (s.step? step).getD (s.said .unknown)

/-! ## What changed -/

/-- The size and the shape of each tree. -/
def looks (s : Session n) : List (Int × String) :=
  s.trees.toList.map fun p => (p.size, s.links.shape s.names p.origin)

/-- How a tree looks before anything was linked into it. -/
def bare : Int × String := (0, "-")

/-- The trees that look different now, in order; a tree that was not there before counts as bare. -/
def changes (before after : List (Int × String)) : List TreeChange :=
  (after.zipIdx.filter fun look => before.getD look.2 bare ≠ look.1).map fun look =>
    { tree := look.2, size := look.1.1, shape := look.1.2 }

/-- Takes steps in order and reports each, given how the trees looked before. -/
def runFrom (showTrees : Bool) : List Step → Session n → List (Int × String) → List StepReport
  | [], _, _ => []
  | first :: rest, s, before =>
    let stepped := s.step first
    let after := if showTrees then stepped.session.looks else []
    let report : StepReport :=
      { reply := stepped.reply, log := stepped.log.map fun e => e.line.render none
        changes := changes before after }
    report :: runFrom showTrees rest stepped.session after

/-- Runs the steps of a setup from its start. -/
def run (setup : Setup) : List StepReport :=
  runFrom setup.showTrees setup.steps (start setup) []

end Session

end BalancedLinks
