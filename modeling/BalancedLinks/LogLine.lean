import BalancedLinks.Balance
import BalancedLinks.Event
import BalancedLinks.Number.Text
import BalancedLinks.Text

/-!
# Log lines

A report as one line of JSON: an object with the level's severity, the logger's name if it has one, the
fields of the report in order, and its message.
-/

set_option autoImplicit false

namespace BalancedLinks

/-- The value of a field. -/
inductive Field where
  | integer (i : Int)
  | number (x : Number)
  | balance (b : Balance)
  | text (s : String)
  deriving DecidableEq, Repr

/-- A number in JSON, which can write finite numbers only. -/
def Number.json (x : Number) : String :=
  if x.isFinite then x.text else "null"

/-- The value of a field as it is written. -/
def Field.render : Field → String
  | .integer i => toString i
  | .number x => x.json
  | .balance b => b.json
  | .text s => quoted s

/-- One line of a log. -/
structure LogLine where
  level : Level
  fields : List (String × Field)
  message : Text
  deriving DecidableEq, Repr

namespace LogLine

/-- A line with a message alone. -/
def plain (level : Level) (message : Text) : LogLine :=
  { level, fields := [], message }

/-- The fields of a line, each behind its name. -/
def renderFields (fields : List (String × Field)) : String :=
  String.join (fields.map fun field => quoted field.1 ++ ":" ++ field.2.render ++ ",")

/-- A line as a logger of the given name writes it. -/
def render (name : Option String) (line : LogLine) : String :=
  let named := (name.map fun name => ("name", Field.text name)).toList
  "\x7b\"level\":" ++ toString line.level.severity ++ "," ++ renderFields (named ++ line.fields)
    ++ "\"msg\":" ++ line.message.quoted ++ "\x7d"

end LogLine

/-- The name of a repair in the log. -/
def RotationKind.name : RotationKind → String
  | .single => "single"
  | .double => "double"

/-- The name of a change in the log. -/
def Change.name : Change → String
  | .insert => "findOrInsert"
  | .erase => "erase"

/-- The line that reports an event. -/
def Event.line (e : Event) : LogLine :=
  let fields : List (String × Field) × String :=
    match e with
    | .rotated kind balance =>
      ([("rotation", .text kind.name), ("balance", .balance balance)], "AVL rotation")
    | .inserted size => ([("size", .integer size)], "AVL insert")
    | .erased size => ([("size", .integer size)], "AVL erase")
    | .violated change cause =>
      ([("operation", .text change.name), ("reason", .text cause.message)], "AVL invariant violated")
  { level := e.level, fields := fields.1, message := fields.2 }

end BalancedLinks
