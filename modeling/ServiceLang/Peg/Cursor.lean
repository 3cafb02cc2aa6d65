import ServiceLang.Source.Chars

/-!
Cursors into a text, and the trivia between tokens: blanks and comments, which a cursor
skips without looking at anything else.
-/

namespace ServiceLang.Peg

/-- A place in a text: the bytes before it and the characters after it. -/
structure Cursor where
  offset : Nat
  rest : List Char
deriving DecidableEq, Repr

namespace Cursor

def start (text : List Char) : Cursor := ⟨0, text⟩

/-- The place after one character, which has to satisfy the condition. -/
def next? (p : Char → Bool) (c : Cursor) : Option Cursor :=
  match c.rest with
  | [] => none
  | x :: xs => if p x then some ⟨c.offset + x.utf8Size, xs⟩ else none

/-- The place after exactly these characters. -/
def strip? : List Char → Cursor → Option Cursor
  | [], c => some c
  | x :: xs, c =>
    match c.next? (· = x) with
    | none => none
    | some c => strip? xs c

/-- The place after all characters up to the first that fails the condition. -/
def skipWhile (p : Char → Bool) (c : Cursor) : Cursor :=
  ⟨c.offset + byteLength (c.rest.takeWhile p), c.rest.dropWhile p⟩

end Cursor

/-! ## Trivia -/

/-- The text after the first `*/`, with the number of bytes passed. -/
def afterBlockComment? : Nat → List Char → Option Cursor
  | offset, '*' :: '/' :: rest => some ⟨offset + 2, rest⟩
  | offset, c :: rest => afterBlockComment? (offset + c.utf8Size) rest
  | _, [] => none

/-- The place after the comment that starts here.  A block comment has to be closed. -/
def comment? (c : Cursor) : Option Cursor :=
  match c.rest with
  | '/' :: '/' :: rest => some (Cursor.skipWhile (· ≠ '\n') ⟨c.offset + 2, rest⟩)
  | '/' :: '*' :: rest => afterBlockComment? (c.offset + 2) rest
  | _ => none

/-- Skips at most so many comments, with the blanks around them. -/
def skipComments : Nat → Cursor → Cursor
  | 0, c => c
  | n + 1, c =>
    match comment? c with
    | none => c
    | some c => skipComments n (c.skipWhile isBlank)

/-- The place after all blanks and comments.  There are fewer comments than characters. -/
def skipTrivia (c : Cursor) : Cursor :=
  let c := c.skipWhile isBlank
  if (comment? c).isSome then skipComments c.rest.length c else c

end ServiceLang.Peg
