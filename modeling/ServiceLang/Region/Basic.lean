import ServiceLang.Source.Chars
import ServiceLang.Source.Position

/-!
Regions: the parts of a source text that have a grammar of their own.

An endpoint declaration, with the annotations in front of it, is an endpoint
region; a workflow or job declaration is a flow region.  Everything else is main
text.  A text that cannot be cut into regions has a fault with an offset.
-/

namespace ServiceLang

namespace Region

/-- Which grammar a region belongs to. -/
inductive Kind where
  | endpoint
  | flow
deriving DecidableEq, Repr

/-- The constructs that have to be closed before the text ends. -/
inductive Construct where
  | annotationArguments
  | stringLiteral
  | blockComment
  | execBlock
  | declaration (kind : Kind)
deriving DecidableEq, Repr

namespace Construct

def name : Construct → String
  | annotationArguments => "annotation arguments"
  | stringLiteral => "string literal"
  | blockComment => "block comment"
  | execBlock => "exec block"
  | declaration .endpoint => "endpoint block"
  | declaration .flow => "workflow block"

end Construct

/-- Why a text cannot be cut into regions. -/
inductive Fault where
  | controlCharacter (c : Char)
  | unterminated (construct : Construct)
deriving DecidableEq, Repr

/-- The code point in upper-case hexadecimal, with at least four digits. -/
def codePointText (c : Char) : String :=
  let digits := (Nat.toDigits 16 c.toNat).map Char.toUpper
  "U+" ++ String.ofList (List.replicate (4 - digits.length) '0' ++ digits)

namespace Fault

def message : Fault → String
  | controlCharacter c => "unexpected character " ++ codePointText c
  | unterminated construct => "unterminated " ++ construct.name

end Fault

end Region

/-- The bytes from `start` up to `stop` belong to the grammar of `kind`. -/
structure Region where
  kind : Region.Kind
  start : Nat
  stop : Nat
deriving DecidableEq, Repr

namespace Region

def text (r : Region) (source : List Char) : List Char :=
  takeBytes (r.stop - r.start) (dropBytes r.start source)

end Region

end ServiceLang
