import ServiceLang.Decimal.Layout
import ServiceLang.Record.Basic

/-!
Records as indented documents.

Every entry of a list or record stands on a line of its own, indented by two spaces
for each level; empty ones are closed at once.  Strings escape quotes, backslashes
and the control characters below the space, and nothing else.  Numbers are
documents' numbers; those that are not finite are null.
-/

namespace ServiceLang.Record

def hexDigit (n : Nat) : Char := Nat.digitChar (n % 16)

/-- How a character is written in a string. -/
def stringChar (c : Char) : List Char :=
  if c = '"' then ['\\', '"']
  else if c = '\\' then ['\\', '\\']
  else if c = '\n' then ['\\', 'n']
  else if c = '\r' then ['\\', 'r']
  else if c = '\t' then ['\\', 't']
  else if c = '\x08' then ['\\', 'b']
  else if c = '\x0c' then ['\\', 'f']
  else if c.toNat < 0x20 then ['\\', 'u', '0', '0', hexDigit (c.toNat / 16), hexDigit c.toNat]
  else [c]

def stringText (s : String) : String :=
  String.ofList ('"' :: (s.toList.flatMap stringChar ++ ['"']))

/-- A new line with the indentation of a level. -/
def newLine (depth : Nat) : String := "\n" ++ String.ofList (List.replicate (2 * depth) ' ')

/-- Entries between brackets, each on a line of its own. -/
def enclosed (opening closing : String) (depth : Nat) (entries : List String) : String :=
  if entries.isEmpty then opening ++ closing
  else
    opening ++ newLine (depth + 1) ++ ("," ++ newLine (depth + 1)).intercalate entries ++
      newLine depth ++ closing

def entryText (key value : String) : String := stringText key ++ ": " ++ value

/-- A position as a record of its four parts. -/
def positionText (depth : Nat) (p : Position) : String :=
  enclosed "\x7b" "\x7d" depth
    [entryText "filename" (stringText p.filename), entryText "line" (toString p.line),
      entryText "column" (toString p.column), entryText "offset" (toString p.offset)]

mutual

def document (depth : Nat) : Record → String
  | .null => "null"
  | .bool b => if b then "true" else "false"
  | .text s => stringText s
  | .integer i => toString i
  | .number x => (Decimal.document x).getD "null"
  | .position p => positionText depth p
  | .list items => enclosed "[" "]" depth (documents (depth + 1) items)
  | .fields entries => enclosed "\x7b" "\x7d" depth (entryDocuments (depth + 1) entries)

def documents (depth : Nat) : List Record → List String
  | [] => []
  | r :: rs => document depth r :: documents depth rs

def entryDocuments (depth : Nat) : List (String × Record) → List String
  | [] => []
  | (key, value) :: rest => entryText key (document depth value) :: entryDocuments depth rest

end

def toDocument (r : Record) : String := document 0 r

end ServiceLang.Record
