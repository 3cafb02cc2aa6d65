/-!
Escapes in string literals.

A backslash and one of the letters `n`, `t`, `r` or the digit `0` stand for a
control character, and a backslash keeps a quote or another backslash.  Every
other escape is kept as it is written, backslash included.
-/

namespace ServiceLang.Text

/-- What a backslash and this character stand for, if they are an escape. -/
def escaped? : Char → Option Char
  | 'n' => some '\n'
  | 't' => some '\t'
  | 'r' => some '\r'
  | '0' => some '\x00'
  | '"' => some '"'
  | '\\' => some '\\'
  | _ => none

/-- The text that the body of a string literal stands for. -/
def unescape : List Char → List Char
  | [] => []
  | [c] => [c]
  | c :: d :: rest =>
    if c = '\\' then
      match escaped? d with
      | some e => e :: unescape rest
      | none => c :: d :: unescape rest
    else c :: unescape (d :: rest)

/-- The value of a string literal: its text without the quotes, escapes replaced. -/
def literalValue (literal : List Char) : String :=
  String.ofList (unescape (literal.drop 1).dropLast)

end ServiceLang.Text
