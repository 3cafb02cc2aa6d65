/-!
Parsing expression grammars as data.

A grammar over a type `R` of rules gives every rule a kind and a pattern.
Choices are ordered, repetitions are greedy, and neither is taken back once it
has succeeded.  Between the parts of a sequence trivia (blanks and comments) may
stand, unless the kind of the rule says that its text is written without.
-/

namespace ServiceLang.Peg

inductive CharClass where
  | any
  | digit
  | letter
  | alphanumeric
deriving DecidableEq, Repr

namespace CharClass

/-- Membership in a class; all but `any` hold ASCII characters only. -/
def contains : CharClass → Char → Bool
  | any, _ => true
  | digit, c => c.isDigit
  | letter, c => c.isAlpha
  | alphanumeric, c => c.isAlphanum

end CharClass

/-- What a rule matches. -/
inductive Pattern (R : Type) where
  /-- This text. -/
  | literal (text : String)
  /-- One character of the class. -/
  | oneOf (cls : CharClass)
  | rule (r : R)
  /-- The first pattern, then the second. -/
  | andThen (first second : Pattern R)
  /-- The first pattern, or else the second. -/
  | orElse (first second : Pattern R)
  /-- As many repetitions as match, none allowed. -/
  | many (p : Pattern R)
  | optional (p : Pattern R)
  /-- Nothing, provided that the pattern does not match here. -/
  | notHere (p : Pattern R)
  /-- Nothing, at the start of the text. -/
  | textStart
  /-- Nothing, at the end of the text. -/
  | textEnd

namespace Pattern

/-- All of these, one after another. -/
def all {R : Type} : List (Pattern R) → Pattern R
  | [] => .literal ""
  | [p] => p
  | p :: ps => .andThen p (all ps)

/-- The first of these that matches. -/
def choice {R : Type} : List (Pattern R) → Pattern R
  | [] => .notHere (.literal "")
  | [p] => p
  | p :: ps => .orElse p (choice ps)

def some {R : Type} (p : Pattern R) : Pattern R := .andThen p (.many p)

def wordChar {R : Type} : Pattern R := .orElse (.oneOf .alphanumeric) (.literal "_")

/-- The first characters of identifiers. -/
def wordStart {R : Type} : Pattern R := .orElse (.oneOf .letter) (.literal "_")

/-- This word, not as the beginning of a longer one. -/
def word {R : Type} (text : String) : Pattern R := .andThen (.literal text) (.notHere wordChar)

/-- An identifier, reserved or not. -/
def name {R : Type} : Pattern R := .andThen wordStart (.many wordChar)

/-- Items with commas between them; one more comma may follow the last. -/
def commaSeparated {R : Type} (item : Pattern R) : Pattern R :=
  all [item, .many (all [.literal ",", item]), .optional (.literal ",")]

end Pattern

/-- How a rule treats trivia, and whether it leaves a node in the parse tree. -/
inductive Kind where
  /-- Trivia may stand between the parts; leaves a node. -/
  | spaced
  /-- As `spaced`, but leaves no node of its own and is named in no message. -/
  | silent
  /-- No trivia inside, and the rules below leave no nodes. -/
  | token
  /-- No trivia inside; the rules below leave nodes. -/
  | unspaced
  /-- As `spaced`, even below an unspaced rule. -/
  | respaced
deriving DecidableEq, Repr

/-- How much of the rules at work is left open to trivia and nodes. -/
inductive Spacing where
  | free
  | tight
  | sealed
deriving DecidableEq, Repr

namespace Kind

/-- The parts of sequences and repetitions in such a rule have trivia between them. -/
def separates : Kind → Bool
  | spaced | silent | respaced => true
  | token | unspaced => false

/-- The spacing under which the rule itself is recorded. -/
def outer : Kind → Spacing → Spacing
  | spaced, s | silent, s | token, s => s
  | unspaced, _ => .tight
  | respaced, _ => .free

/-- The spacing under which its pattern is matched. -/
def inner : Kind → Spacing → Spacing
  | spaced, s | silent, s => s
  | token, _ => .sealed
  | unspaced, _ => .tight
  | respaced, _ => .free

end Kind

structure Definition (R : Type) where
  kind : Kind
  pattern : Pattern R

/-- A grammar over the rules `R`. -/
structure Grammar (R : Type) where
  /-- The rules in the order in which messages list them. -/
  rules : List R
  /-- The name of a rule in messages. -/
  name : R → String
  definition : R → Definition R

end ServiceLang.Peg
