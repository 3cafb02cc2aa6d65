import ServiceLang.Source.Chars
import ServiceLang.Text.Digit
import ServiceLang.Text.Split

/-!
Forms of names and numerals in string-valued settings.

Letters are ASCII letters.  Numerals and versions are written with the decimal
digits of any script.
-/

namespace ServiceLang

/-- A text whose first character and whose other characters are of two classes. -/
def startsAndContinues (start rest : Char → Bool) : List Char → Bool
  | [] => false
  | c :: cs => start c && cs.all rest

/-- A segment of an event name: a small letter, then small letters, digits and
underscores. -/
def isEventSegment : List Char → Bool :=
  startsAndContinues Char.isLower fun c => c.isLower || c.isDigit || c = '_'

/-- Event names are two or more segments with points between them, as in
`user.created`. -/
def isEventName (text : String) : Bool :=
  let segments := Text.splitOn '.' text.toList
  2 ≤ segments.length && segments.all isEventSegment

/-- A word: a letter or underscore, then letters, digits and underscores. -/
def isWord : List Char → Bool := startsAndContinues isWordStart isWordChar

/-- Identifiers are single words. -/
def isIdentifier (text : String) : Bool := isWord text.toList

/-- Identifier paths are words with points between them, as in `user.id`. -/
def isIdentifierPath (text : String) : Bool := (Text.splitOn '.' text.toList).all isWord

/-- One decimal digit or more. -/
def isDigits (cs : List Char) : Bool := !cs.isEmpty && cs.all Text.isDecimalDigit

/-- Numerals are digits with a fraction or without, perhaps after a minus sign. -/
def isNumeric (text : String) : Bool :=
  let unsigned := match text.toList with
    | '-' :: cs => cs
    | cs => cs
  match Text.splitOn '.' unsigned with
  | [whole] => isDigits whole
  | [whole, fraction] => isDigits whole && isDigits fraction
  | _ => false

/-- Versions are digits with points between them, perhaps after a `v`. -/
def isVersion (text : String) : Bool :=
  let numbers := match text.toList with
    | 'v' :: cs => cs
    | cs => cs
  (Text.splitOn '.' numbers).all isDigits

/-- Type names start with a capital letter and go on with letters and digits. -/
def isPascalCase (text : String) : Bool :=
  startsAndContinues Char.isUpper Char.isAlphanum text.toList

end ServiceLang
