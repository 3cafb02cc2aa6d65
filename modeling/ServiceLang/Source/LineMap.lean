import ServiceLang.Source.Chars
import ServiceLang.Source.Position

/-!
Byte offsets to lines and columns.

`Source.position` walks the text from its start.  The line is one more than the
number of newlines before the offset, the column one more than the number of
characters since the last of them.  Offsets past the end behave like the end.
An offset inside a character has no whole number of characters before it; its
column counts bytes instead.
-/

namespace ServiceLang

/-- A source text with the name under which messages cite it. -/
structure Source where
  filename : String
  text : List Char

namespace Source

def ofString (filename text : String) : Source := ⟨filename, text.toList⟩

def byteLength (s : Source) : Nat := ServiceLang.byteLength s.text

/-- How far a walk over the text has come: the byte offset reached, its line and
column, and the offset at which that line starts. -/
structure Place where
  offset : Nat
  line : Nat
  column : Nat
  lineStart : Nat

namespace Place

def start : Place := ⟨0, 1, 1, 0⟩

/-- The place after one more character. -/
def advance (p : Place) (c : Char) : Place :=
  let offset := p.offset + c.utf8Size
  if c = '\n' then ⟨offset, p.line + 1, 1, offset⟩
  else ⟨offset, p.line, p.column + 1, p.lineStart⟩

/-- Walks on until the target offset is reached or passed. -/
def seek (target : Nat) (p : Place) : List Char → Place
  | [] => p
  | c :: cs =>
    if target ≤ p.offset then p
    else if target < p.offset + c.utf8Size then
      ⟨target, p.line, target - p.lineStart + 1, p.lineStart⟩
    else (p.advance c).seek target cs

end Place

def position (s : Source) (offset : Nat) : Position :=
  let place := Place.start.seek offset s.text
  ⟨s.filename, place.line, place.column, place.offset⟩

end Source

end ServiceLang
