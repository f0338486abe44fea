import BalancedLinks.Text

/-!
# Arguments

How the arguments of the command are read. `--erase` takes a text, behind an equals sign or as the next
argument, and can be repeated; `--verify` takes none. All else that starts with a dash is refused, but for a
dash alone; and behind `--` every argument is a plain one. The first argument at fault decides. Behind a
single dash an option is one 16-bit unit, so the refusal names no more than that.
-/

set_option autoImplicit false

namespace BalancedLinks

/-- The arguments of a command. -/
structure Arguments where
  plain : List String
  erase : List String
  verify : Bool
  deriving DecidableEq, Repr

/-- What can be wrong with an argument. -/
inductive ArgumentFault where
  /-- There is no such option. -/
  | unknown (option : Text)
  /-- The text to erase is missing. -/
  | eraseMissing
  /-- The text to erase looks like an option. -/
  | eraseAmbiguous
  /-- The option to verify takes no text. -/
  | verifyGiven
  deriving DecidableEq, Repr

/-- The text of a fault. -/
def ArgumentFault.message : ArgumentFault → Text
  | .unknown option =>
    ("Unknown option '" : Text) ++ option ++ "'. To specify a positional argument starting with a '-', "
      ++ "place it at the end of the command after '--', as in '-- " ++ option.quoted
  | .eraseMissing => "Option '--erase <value>' argument missing"
  | .eraseAmbiguous =>
    "Option '--erase' argument is ambiguous.\n"
      ++ "Did you forget to specify the option argument for '--erase'?\n"
      ++ "To specify an option argument starting with a dash use '--erase=-XYZ'."
  | .verifyGiven => "Option '--verify' does not take an argument"

/-- One argument by its form. -/
inductive ArgumentForm where
  | plain
  /-- The end of the options. -/
  | terminator
  /-- A dash and the first unit of a character, with more behind it or not. -/
  | short (letter : Glyph)
  /-- Two dashes and a name, and the text behind an equals sign if there is one. -/
  | long (name : String) (value : Option String)
  deriving DecidableEq, Repr

/--
The form of an argument. An equals sign parts name and text only behind at least one other character; once
there is one, the first equals sign of all parts them.
-/
def ArgumentForm.of (argument : String) : ArgumentForm :=
  match argument.toList with
  | ['-', '-'] => .terminator
  | '-' :: '-' :: first :: more =>
    let name := first :: more
    if more.contains '=' then
      .long (String.ofList (name.takeWhile (· ≠ '=')))
        (some (String.ofList ((name.dropWhile (· ≠ '=')).drop 1)))
    else .long (String.ofList name) none
  | '-' :: letter :: _ => .short (.firstUnit letter)
  | _ => .plain

namespace Arguments

/-- The arguments of an empty command. -/
def empty : Arguments :=
  { plain := [], erase := [], verify := false }

/-- Whether a text could be taken for an option: a dash with something behind it. -/
def looksLikeOption (text : String) : Bool :=
  match text.toList with
  | '-' :: _ :: _ => true
  | _ => false

/-- Reads arguments in order; what comes later stands behind what came before. -/
def read : List String → Except ArgumentFault Arguments
  | [] => .ok empty
  | argument :: rest =>
    match ArgumentForm.of argument with
    | .plain => (read rest).map fun a => { a with plain := argument :: a.plain }
    | .terminator => .ok { empty with plain := rest }
    | .short letter => .error (.unknown ⟨[.whole '-', letter]⟩)
    | .long "erase" (some value) => (read rest).map fun a => { a with erase := value :: a.erase }
    | .long "erase" none =>
      match rest with
      | [] => .error .eraseMissing
      | value :: rest =>
        if looksLikeOption value then .error .eraseAmbiguous
        else (read rest).map fun a => { a with erase := value :: a.erase }
    | .long "verify" none => (read rest).map fun a => { a with verify := true }
    | .long "verify" (some _) => .error .verifyGiven
    | .long name _ => .error (.unknown ("--" ++ name))

end Arguments

end BalancedLinks
