/-!
Positions in a source text.

A position names a file, a line and a column (both counted from one) and a byte
offset (counted from zero).  The zero position stands for "nowhere": built-in
functions are declared there, and it is the only position that is not valid.

Causes of failure have the byte offset at which they are reported.  Offsets in the
text of a region are moved by the offset of the region.
-/

namespace ServiceLang

structure Position where
  filename : String
  line : Nat
  column : Nat
  offset : Nat
deriving DecidableEq, Inhabited, Repr

namespace Position

/-- The position of things that no source text declares. -/
def unknown : Position := ⟨"", 0, 0, 0⟩

/-- Lines are counted from one, so line zero marks the unknown position. -/
def isValid (p : Position) : Bool := 0 < p.line

/-- How messages cite a position: `line:column`, after the file name if there is one. -/
def display (p : Position) : String :=
  if p.isValid then
    let place := toString p.line ++ ":" ++ toString p.column
    if p.filename.isEmpty then place else p.filename ++ ":" ++ place
  else "<unknown>"

theorem isValid_unknown : unknown.isValid = false := rfl

end Position

/-- Something said about the text at a byte offset. -/
structure Located (α : Type) where
  offset : Nat
  cause : α
deriving DecidableEq, Repr

namespace Located

/-- The same cause, seen from so many bytes further left. -/
def shift {α : Type} (base : Nat) (l : Located α) : Located α := ⟨base + l.offset, l.cause⟩

/-- Another cause at the same place. -/
def map {α β : Type} (f : α → β) (l : Located α) : Located β := ⟨l.offset, f l.cause⟩

end Located

end ServiceLang
