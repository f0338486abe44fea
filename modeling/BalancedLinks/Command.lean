import BalancedLinks.Arguments
import BalancedLinks.Erasure
import BalancedLinks.Graphviz
import BalancedLinks.Loading
import BalancedLinks.LogLine
import BalancedLinks.Number.Numeral
import BalancedLinks.Settings

/-!
# The command

The command links the numbers among its arguments into a tree, erases those it is told to erase, checks the
tree and prints it as a directed graph. It ends with 0, with 1 when a tree error stops it, and with 2 when
its arguments are not understood.
-/

set_option autoImplicit false

namespace BalancedLinks

namespace Command

/-- How the command is called. -/
def usage : String :=
  "Usage: avl-dot [--verify] [--erase <key>]... <key>..."

/-- Why a command line is not understood. -/
inductive UsageFault where
  | argument (fault : ArgumentFault)
  /-- A key is blank, not a numeral, or not finite. -/
  | badKey (text : String)
  deriving DecidableEq, Repr

/-- The text of a fault. -/
def UsageFault.message : UsageFault → Text
  | .argument fault => fault.message
  | .badKey text => "Not a finite number: '" ++ text ++ "'"

/-- A key, which has to be a finite number. -/
structure Key where
  number : Number
  finite : number.isFinite = true
  deriving DecidableEq, Repr

/-- What a command line asks for. -/
structure Request where
  keys : List Key
  erase : List Key
  verify : Bool
  deriving DecidableEq, Repr

/-- The key that a text is a numeral of. -/
def readKey (text : String) : Except UsageFault Key :=
  match Number.ofText? text with
  | some x => if h : x.isFinite = true then .ok ⟨x, h⟩ else .error (.badKey text)
  | none => .error (.badKey text)

/-- Reads a command line: all plain keys first, then the keys to erase. -/
def readRequest (arguments : List String) : Except UsageFault Request :=
  match Arguments.read arguments with
  | .error fault => .error (.argument fault)
  | .ok a =>
    match a.plain.mapM readKey, a.erase.mapM readKey with
    | .ok keys, .ok erase => .ok { keys, erase, verify := a.verify }
    | .error fault, _ => .error fault
    | _, .error fault => .error fault

/-! ## The tree of keys -/

/-- An element of the command's tree: a key and the link it embeds. -/
structure Keyed (n : Nat) where
  link : LinkId n
  key : Key
  deriving DecidableEq

/-- The sign of a key less the key of an element. -/
def compareKey {n : Nat} (key : Key) (element : Keyed n) : Ordering :=
  Number.signOfDifference key.number element.key.number

/-- The sign of the difference of the keys of two elements. -/
def byKey {n : Nat} (a b : Keyed n) : Ordering :=
  compareKey a.key b

/-- Whether the key of one element is less than the key of another. -/
def keyLess {n : Nat} (a b : Keyed n) : Bool :=
  a.key.number.lt b.key.number

/-- The elements for some keys, each with a link of its own; one link more is the origin. -/
def elements (keys : List Key) : List (Keyed (keys.length + 1)) :=
  List.ofFn fun i : Fin keys.length => { link := i.castSucc, key := keys[i] }

/-- The empty tree that the elements for some keys can join. -/
def emptyTree (keys : List Key) (logger : Level) (verify : Bool) :
    LinkedTree (Keyed (keys.length + 1)) (keys.length + 1) :=
  { tree :=
      { tag := "key", linkOf := Keyed.link, origin := Fin.last keys.length, logger := some logger, verify
        order := some byKey, size := 0 }
    links :=
      ⟨Vector.ofFn fun i : Fin (keys.length + 1) =>
        .fresh (if h : i < keys.length then some { link := i, key := keys[i] } else none) "key"⟩ }

/-! ## The run -/

/-- An error that the printing of the graph raises. -/
inductive PrintError where
  | tree (error : TreeError)
  | other (name message : String)
  deriving DecidableEq, Repr

/-- How a run ends. -/
inductive Exit where
  | code (code : Nat)
  /-- The error that ends the run from outside. -/
  | raised (name message : String)
  deriving DecidableEq, Repr

/-- A run that has ended: how, what it printed, and what its logger wrote. -/
structure Run where
  exit : Exit
  printed : List String
  log : List LogLine
  deriving DecidableEq, Repr

/-! ### Lines of the log -/

/-- The line for a tree error that ends the run. -/
def errorLine (error : TreeError) : LogLine :=
  { level := .error, fields := [("code", .text error.code.text)], message := error.message }

/-- The line for a key to erase that is not there. -/
def absentLine (key : Key) : LogLine :=
  { level := .warn, fields := [("key", .number key.number)], message := "Key not present, nothing erased" }

/-- The line for keys that were given more than once. -/
def droppedLine (count : Nat) : LogLine :=
  { level := .debug, fields := [("dropped", .integer count)], message := "Duplicate keys dropped" }

/-- The line for a tree that was built and checked. -/
def builtLine (size : Int) (height : Nat) : LogLine :=
  { level := .info, fields := [("size", .integer size), ("height", .integer height)]
    message := "Tree built" }

/-! ### Parts of a run -/

/-- What a run does with a failure: tree errors are reported and end with 1. -/
def endWith (failure : Failure) : Exit × List LogLine :=
  match failure with
  | .violation cause => (.code 1, [errorLine cause.error])
  | .callback message => (.raised "Error" message, [])
  | .endless => (.raised "Error" "endless walk", [])

/-- Erases the elements of some keys in order, with a warning for each key that is absent. -/
def eraseKeys {n : Nat} (x : LinkedTree (Keyed n) n) :
    List Key → Outcome (LinkedTree (Keyed n) n) LogLine Unit
  | [] => .pure x ()
  | key :: keys =>
    match x.find (.ofOrdering (compareKey key)) () with
    | .error failure => .fail x failure
    | .ok position =>
      if position = x.endCursor then
        (Outcome.report x (absentLine key)).andThen fun x _ => eraseKeys x keys
      else
        ((x.erase (.cursor position)).logging Event.line).andThen fun x _ => eraseKeys x keys

/-- Links the keys, with a note on those that were there before. -/
def linkKeys (keys : List Key) (logger : Level) (verify : Bool) :
    Outcome (LinkedTree (Keyed (keys.length + 1)) (keys.length + 1)) LogLine Unit :=
  let loaded := (emptyTree keys logger verify).load (.ofBool keyLess) () (elements keys)
  (loaded.logging Event.line).andThen fun x linked =>
    if linked < keys.length then .report x (droppedLine (keys.length - linked)) else .pure x ()

/-- The name of an element's node. -/
def nodeName {n : Nat} (element : Keyed n) : String :=
  element.key.number.text

/-- Builds the tree of a request; the result is its text. -/
def build (request : Request) (logger : Level) (verify : Bool) :
    Outcome (LinkedTree (Keyed (request.keys.length + 1)) (request.keys.length + 1)) LogLine String :=
  (linkKeys request.keys logger verify).andThen fun x _ =>
    (eraseKeys x request.erase).andThen fun x _ =>
      match x.verify (some byKey) with
      | .error failure => .fail x failure
      | .ok height => ⟨x, [builtLine x.tree.size height], x.graphviz nodeName⟩

/-- Prints the graph of a request that was understood. -/
def answer (request : Request) (logger : Level) (verify : Bool)
    (print : String → Except PrintError Unit) : Run :=
  let built := build request logger verify
  match built.result with
  | .error failure =>
    let ended := endWith failure
    { exit := ended.1, printed := [], log := built.log ++ ended.2 }
  | .ok text =>
    match print text with
    | .ok () => { exit := .code 0, printed := [text], log := built.log }
    | .error (.tree error) =>
      { exit := .code 1, printed := [], log := built.log ++ [errorLine error] }
    | .error (.other name message) => { exit := .raised name message, printed := [], log := built.log }

/-- Runs the command. A request to verify wins over the setting given. -/
def run (arguments : List String) (logger : Level) (verify : Bool)
    (print : String → Except PrintError Unit) : Run :=
  let run : Run :=
    match readRequest arguments with
    | .error fault =>
      { exit := .code 2, printed := [], log := [.plain .error fault.message, .plain .error usage] }
    | .ok request => answer request logger (request.verify || verify) print
  { run with log := run.log.filter fun line => logger.keeps line.level }

/-- The name of the command's logger. -/
def loggerName : String :=
  "avl-links"

/-- Runs the command with settings, printing always. -/
def runWith (settings : Settings) (arguments : List String) : Run :=
  run arguments settings.level settings.verify fun _ => .ok ()

end Command

end BalancedLinks
