import BalancedLinks.Quoted

/-!
# Text by units

A character beyond U+FFFF takes two 16-bit units. Where a text is cut by units, such a character can be cut
in half, and what is left of it is no character. `Text` can hold that: it is a sequence of characters and
first halves. A half is quoted by its four digits to base 16, as the units that are no characters are; whole
characters are quoted as in a string.
-/

set_option autoImplicit false

namespace BalancedLinks

/-- A character, or the first half of one. -/
inductive Glyph where
  | whole (c : Char)
  /-- The first of the two units of a character. -/
  | half (unit : Nat)
  deriving DecidableEq, Repr

namespace Glyph

/-- The first unit of a character: the character itself where it takes no other unit, and its first half else. -/
def firstUnit (c : Char) : Glyph :=
  if c.toNat < 0x10000 then .whole c else .half (0xD800 + (c.toNat - 0x10000) / 0x400)

/-- A glyph as it is written between quotation marks. -/
def escaped : Glyph → List Char
  | .whole c => BalancedLinks.escaped c
  | .half unit => unitEscape unit

/-- A glyph as a character; the replacement character stands for a half. -/
def printable : Glyph → Char
  | .whole c => c
  | .half _ => '\ufffd'

end Glyph

/-- A text in which characters may be cut in half. -/
structure Text where
  glyphs : List Glyph
  deriving DecidableEq, Repr

namespace Text

/-- The text of a string, in which all characters are whole. -/
def ofString (s : String) : Text :=
  ⟨s.toList.map .whole⟩

instance : Coe String Text := ⟨ofString⟩

/-- Two texts, one behind the other. -/
def append (a b : Text) : Text :=
  ⟨a.glyphs ++ b.glyphs⟩

instance : Append Text := ⟨append⟩

/-- A text between quotation marks. -/
def quoted (t : Text) : String :=
  "\"" ++ String.ofList (t.glyphs.flatMap Glyph.escaped) ++ "\""

/-! The first half of a character beyond U+FFFF, and a character that takes one unit. -/

example : (Text.mk [.whole '-', .firstUnit '😀']).quoted = "\"-\\ud83d\"" := by decide

example : (Text.mk [.whole '-', .firstUnit 'é']).quoted = "\"-é\"" := by decide

/-- A text as a string; replacement characters stand for halves. -/
def printable (t : Text) : String :=
  String.ofList (t.glyphs.map Glyph.printable)

end Text

end BalancedLinks
