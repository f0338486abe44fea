import BalancedLinks.Link

/-!
# Shapes

The links below an origin as text, in pre-order: each link by name, marked where its parent is not the link
it was reached from, with its balance and its children. A link that was written before is only named again,
so that every graph of links has a finite shape.
-/

set_option autoImplicit false

namespace BalancedLinks

namespace Links

variable {α : Type} {n : Nat}

/-- A text in progress, and which links it has written. -/
structure Sketch (n : Nat) where
  text : String
  written : Vector Bool n

/-- The sketch with a text behind it. -/
def Sketch.write {n : Nat} (s : Sketch n) (text : String) : Sketch n :=
  { s with text := s.text ++ text }

/--
Draws what hangs in a child slot of `parent`, along paths of at most the given number of links; a path
through links that were not written before has at most `n`.
-/
def drawWithin (g : Links α n) (names : Vector String n) :
    Nat → Option (LinkId n) → LinkId n → Sketch n → Sketch n
  | _, none, _, s => s.write "-"
  | 0, some _, _, s => s
  | k + 1, some l, parent, s =>
    if s.written[l] then s.write ("^" ++ names[l])
    else
      let mark := if g.parent l = some parent then ":" else "!:"
      let s := s.write (names[l] ++ mark ++ (g.balance l).text)
      let s := { s with written := s.written.set l true }
      if (g.child l .left).isNone && (g.child l .right).isNone then s
      else
        let s := drawWithin g names k (g.child l .left) l (s.write "(")
        let s := drawWithin g names k (g.child l .right) l (s.write ",")
        s.write ")"

/-- The shape of the tree below an origin. -/
def shape (g : Links α n) (names : Vector String n) (origin : LinkId n) : String :=
  let blank : Sketch n := { text := "", written := (Vector.replicate n false).set origin.val true origin.isLt }
  (g.drawWithin names (n + 1) (g.child origin .left) origin blank).text

end Links

end BalancedLinks
