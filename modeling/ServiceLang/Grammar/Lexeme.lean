import ServiceLang.Peg.Grammar

/-!
The lexemes that all three grammars of the language share: reserved words,
identifiers, strings, numbers and truth values.

A reserved word is never an identifier.  The words that introduce declarations
are not reserved, so they stay usable as names.
-/

namespace ServiceLang

/-- The lexemes shared by all grammars, and the end of a text. -/
inductive Lexeme where
  | endOfInput
  | keyword
  | ident
  | string
  | stringInner
  | number
  | boolLit
deriving DecidableEq, Repr

/-- The words that are never identifiers.  One that begins another comes later. -/
def reservedWords : List String :=
  ["function", "return", "false", "else", "exec", "true",
    "var", "for", "not", "and", "if", "in", "or"]

namespace Lexeme

open Peg Pattern

def all : List Lexeme := [endOfInput, keyword, ident, string, stringInner, number, boolLit]

def name : Lexeme → String
  | endOfInput => "EOI"
  | keyword => "keyword"
  | ident => "ident"
  | string => "string"
  | stringInner => "string_inner"
  | number => "number"
  | boolLit => "bool_lit"

/-- Digits, and a fraction if a point with digits follows. -/
def unsignedNumber {R : Type} : Pattern R :=
  .andThen (.some (.oneOf .digit))
    (.optional (.andThen (.literal ".") (.some (.oneOf .digit))))

/-- The definition of a lexeme in a grammar whose rules include the lexemes. -/
def definition {R : Type} (lexeme : Lexeme → R) : Lexeme → Definition R
  | endOfInput => ⟨.spaced, .textEnd⟩
  | keyword => ⟨.token, .andThen (choice (reservedWords.map .literal)) (.notHere wordChar)⟩
  | ident => ⟨.token, .andThen (.notHere (.rule (lexeme keyword))) Pattern.name⟩
  | string => ⟨.unspaced, .andThen (.literal "\"")
      (.andThen (.rule (lexeme stringInner)) (.literal "\""))⟩
  | stringInner => ⟨.token, .many (.orElse
      (.andThen (.literal "\\") (.oneOf .any))
      (.andThen (.notHere (.orElse (.literal "\"") (.literal "\\"))) (.oneOf .any)))⟩
  | number => ⟨.token, unsignedNumber⟩
  | boolLit => ⟨.token, .andThen (.orElse (.literal "true") (.literal "false")) (.notHere wordChar)⟩

end Lexeme

end ServiceLang
