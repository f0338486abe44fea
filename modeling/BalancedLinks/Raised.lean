import BalancedLinks.Failure
import BalancedLinks.LogLine
import BalancedLinks.Number.Numeral

/-!
# Raised values

Anything can be raised, not only errors, and a report needs a message for it. An error has its message and a
text is its own; every other value is written in JSON, and where that cannot be done, because a big integer
or a cycle is reached, it is turned into text piece by piece. That can fail too, at a symbol inside a list
and at an object that hides its own text.
-/

set_option autoImplicit false

namespace BalancedLinks

/-- An error as a value: its name, its message, and the code that only tree errors carry. -/
structure ErrorValue where
  name : String
  code : Option ErrorCode
  message : String
  deriving DecidableEq, Repr

/-- A value that can be raised. -/
inductive Value where
  | absent
  | null
  | truth (b : Bool)
  | number (x : Number)
  | text (s : String)
  | bigInteger (i : Int)
  | symbol (description : String)
  | error (e : ErrorValue)
  | list (items : List Value)
  | object (fields : List (String × Value))
  /-- A list whose last item, behind those given, is the list itself. -/
  | cyclicList (items : List Value)
  /-- An object with a field for the object itself. -/
  | cyclicObject (fields : List (String × Value))

namespace Value

/-! ## The fields of an object -/

/-- The place of a key that counts items: a numeral without leading zeros, below the largest count. -/
def place? (key : String) : Option Nat :=
  match Numeral.natural? 10 key.toList with
  | none => none
  | some place => if toString place = key ∧ place < 4294967295 then some place else none

/-- The fields with one set: a field set again keeps its place among the others. -/
def setField {β : Type} (fields : List (String × β)) (key : String) (value : β) : List (String × β) :=
  if fields.any fun field => field.1 = key then
    fields.map fun field => if field.1 = key then (key, value) else field
  else fields ++ [(key, value)]

/-- A field put among those whose keys count items, by its place. -/
def insertByPlace {β : Type} (place : Nat) (field : String × β) :
    List (Nat × String × β) → List (Nat × String × β)
  | [] => [(place, field)]
  | first :: rest =>
    if place < first.1 then (place, field) :: first :: rest
    else first :: insertByPlace place field rest

/-- The fields in the order of an object: keys that count items first, by place, then the others as given. -/
def ordered {β : Type} (fields : List (String × β)) : List (String × β) :=
  let set := fields.foldl (fun set field => setField set field.1 field.2) []
  let placed := set.foldl (fun placed field =>
    match place? field.1 with
    | some place => insertByPlace place field placed
    | none => placed) []
  placed.map Prod.snd ++ set.filter fun field => (place? field.1).isNone

/-! ## Values in JSON -/

/-- Why a value cannot be written in JSON. -/
inductive Unwritable where
  | bigInteger
  | cycle
  deriving DecidableEq, Repr

/-- A list of written items; an item that is not written at all stands as null. -/
def writeItems (items : List (Except Unwritable (Option String))) : Except Unwritable (Option String) :=
  (items.mapM id).map fun items =>
    some ("[" ++ ",".intercalate (items.map fun item => item.getD "null") ++ "]")

/-- An object of written fields; a field that is not written at all is left out. -/
def writeFields (fields : List (String × Except Unwritable (Option String))) :
    Except Unwritable (Option String) :=
  let written := (ordered fields).mapM fun field => field.2.map fun text => (field.1, text)
  written.map fun fields =>
    let present := fields.filterMap fun field =>
      field.2.map fun text => quoted field.1 ++ ":" ++ text
    some ("\x7b" ++ ",".intercalate present ++ "\x7d")

/-- An error inside another value: an empty object, or the code and the name of a tree error. -/
def writeError (e : ErrorValue) : String :=
  match e.code with
  | none => "\x7b\x7d"
  | some code => "\x7b\"code\":" ++ quoted code.text ++ ",\"name\":" ++ quoted e.name ++ "\x7d"

mutual

/-- A value in JSON; nothing for what is absent and for symbols. -/
def write : Value → Except Unwritable (Option String)
  | absent => .ok none
  | symbol _ => .ok none
  | null => .ok (some "null")
  | truth b => .ok (some (if b then "true" else "false"))
  | number x => .ok (some x.json)
  | text s => .ok (some (quoted s))
  | bigInteger _ => .error .bigInteger
  | error e => .ok (some (writeError e))
  | list items => writeItems (writeAll items)
  | object fields => writeFields (writeEach fields)
  | cyclicList _ => .error .cycle
  | cyclicObject _ => .error .cycle

/-- Each item of a list in JSON. -/
def writeAll : List Value → List (Except Unwritable (Option String))
  | [] => []
  | item :: items => write item :: writeAll items

/-- Each field in JSON. -/
def writeEach : List (String × Value) → List (String × Except Unwritable (Option String))
  | [] => []
  | (key, value) :: fields => (key, write value) :: writeEach fields

end

/-! ## Values piece by piece -/

/-- Why a value cannot be turned into text. -/
inductive Untellable where
  /-- A symbol inside a list has no text. -/
  | symbolInside
  /-- An object with a field named for its text hides the text that objects have. -/
  | textHidden
  deriving DecidableEq, Repr

/-- The message of the error that says so. -/
def Untellable.message : Untellable → String
  | .symbolInside => "Cannot convert a Symbol value to a string"
  | .textHidden => "Cannot convert object to primitive value"

/-- Whether the value is absent or null. -/
def isNothing : Value → Bool
  | absent => true
  | null => true
  | _ => false

/-- The text of an object, which does not tell its fields. -/
def tellObject (fields : List (String × Value)) : Except Untellable String :=
  if fields.any fun field => field.1 = "toString" then .error .textHidden else .ok "[object Object]"

mutual

/-- A value turned into text inside another one. -/
def tell : Value → Except Untellable String
  | absent => .ok "undefined"
  | null => .ok "null"
  | truth b => .ok (if b then "true" else "false")
  | number x => .ok x.text
  | text s => .ok s
  | bigInteger i => .ok (toString i)
  | symbol _ => .error .symbolInside
  | error e => .ok (errorText e.name e.message)
  | list items => (tellItems items).map fun items => ",".intercalate items
  | cyclicList items => (tellItems items).map fun items => ",".intercalate (items ++ [""])
  | object fields => tellObject fields
  | cyclicObject fields => tellObject fields

/-- The items of a list as text; what is absent or null leaves its place empty. -/
def tellItems : List Value → Except Untellable (List String)
  | [] => .ok []
  | item :: items =>
    match if item.isNothing then .ok "" else tell item with
    | .error fault => .error fault
    | .ok first => (tellItems items).map fun rest => first :: rest

end

/-- A value turned into text; a symbol by itself has one. -/
def describe : Value → Except Untellable String
  | symbol description => .ok ("Symbol(" ++ description ++ ")")
  | value => value.tell

/-- The message for a raised value. -/
def message (v : Value) : Except Untellable String :=
  match v with
  | error e => .ok e.message
  | text s => .ok s
  | v =>
    match v.write with
    | .ok (some written) => .ok written
    | .ok none => v.describe
    | .error _ => v.describe

end Value

end BalancedLinks
