import ServiceLang.Proofs.Region.Piece
import ServiceLang.Text.Escape
import ServiceLang.Text.Quoted

/-!
Quoted text reads back.

A text between quotes falls into single characters and pairs that a backslash begins, if
each of its characters is written as one of these (`Written`).  Then a scanner that skips
what a backslash keeps ends at the closing quote (`quotedTail_of_written`), and replacing
the escapes gives the text back (`literalValue_of_written`).  The quoted strings of messages
are written so if each character stands between quotes as it is or as an escape that string
literals know (`isQuotable`), and every text has a literal, in which quotes and backslashes
are escaped (`literalText`).
-/

namespace ServiceLang.Text

/-- Between quotes the character stands as it is, or as an escape of string literals. -/
def isQuotable (c : Char) : Bool :=
  ['"', '\\', '\n', '\r', '\t', '\x00'].contains c || !isUnprintable c

def quotedBody (s : String) : List Char := s.toList.flatMap quoteChar

/-- How a character may stand in the body of a string literal. -/
inductive Written (c : Char) : List Char → Prop
  | plain : c ≠ '"' → c ≠ '\\' → Written c [c]
  | escape {d : Char} : escaped? d = some c → Written c ['\\', d]

theorem Written.ne_nil {c : Char} {k : List Char} (h : Written c k) : k ≠ [] := by
  cases h <;> simp

/-- A quotable character is written so that it can be read. -/
theorem written_quoteChar {c : Char} (h : isQuotable c) : Written c (quoteChar c) := by
  unfold quoteChar
  split
  · next hc => subst hc; exact .escape rfl
  split
  · next hc => subst hc; exact .escape rfl
  split
  · next hc => subst hc; exact .escape rfl
  split
  · next hc => subst hc; exact .escape rfl
  split
  · next hc => subst hc; exact .escape rfl
  split
  · next hc => subst hc; exact .escape rfl
  next h1 h2 h3 h4 h5 h6 =>
  split
  · next hu => simp [isQuotable, hu, h1, h2, h3, h4, h5, h6] at h
  · exact .plain h1 h2

/-- What a character is written as is read as that character. -/
theorem unescape_append {c : Char} {k : List Char} (h : Written c k) (rest : List Char) :
    unescape (k ++ rest) = c :: unescape rest := by
  cases h with
  | plain _ hc =>
    cases rest with
    | nil => rfl
    | cons d rest => rw [List.singleton_append, unescape, if_neg hc]
  | @escape d he =>
    show unescape ('\\' :: d :: rest) = _
    rw [unescape, if_pos rfl, he]

section Written

variable {write : Char → List Char} {cs : List Char} (h : ∀ c ∈ cs, Written c (write c))
include h

theorem unescape_flatMap : unescape (cs.flatMap write) = cs := by
  induction cs with
  | nil => rfl
  | cons c cs ih =>
    rw [List.flatMap_cons, unescape_append (h c List.mem_cons_self),
      ih fun d hd => h d (List.mem_cons_of_mem c hd)]

/-- A text is the value of the literal that writes its characters. -/
theorem literalValue_of_written : literalValue ('"' :: (cs.flatMap write ++ ['"'])) = String.ofList cs := by
  have hbody : (('"' :: (cs.flatMap write ++ ['"'])).drop 1).dropLast = cs.flatMap write := by simp
  rw [literalValue, hbody, unescape_flatMap h]

/-- The closing quote is the first that no backslash keeps. -/
theorem quotedTail_of_written : Region.QuotedTail false (cs.flatMap write ++ ['"']) := by
  induction cs with
  | nil => exact .close
  | cons c cs ih =>
    have rest := ih fun d hd => h d (List.mem_cons_of_mem c hd)
    have first := h c List.mem_cons_self
    rw [List.flatMap_cons, List.append_assoc]
    generalize write c = k at first
    cases first with
    | plain h1 h2 => exact .char h1 h2 rest
    | escape _ => exact .escape (.escaped rest)

end Written

/-! ## Quoted strings -/

theorem toList_quoted (s : String) : (quoted s).toList = '"' :: (quotedBody s ++ ['"']) := by
  rw [quoted, String.toList_ofList]
  rfl

theorem literalValue_quoted (s : String) (h : ∀ c ∈ s.toList, isQuotable c) :
    literalValue ('"' :: (quotedBody s ++ ['"'])) = s :=
  (literalValue_of_written fun c hc => written_quoteChar (h c hc)).trans String.ofList_toList

theorem quotedTail_quotedBody (s : String) (h : ∀ c ∈ s.toList, isQuotable c) :
    Region.QuotedTail false (quotedBody s ++ ['"']) :=
  quotedTail_of_written fun c hc => written_quoteChar (h c hc)

/-! ## Literals -/

/-- How a character is written in a literal: with a backslash if it is a quote or a
backslash, else as it is. -/
def escapeChar (c : Char) : List Char := if c = '"' ∨ c = '\\' then ['\\', c] else [c]

def literalText (v : String) : List Char := '"' :: (v.toList.flatMap escapeChar ++ ['"'])

theorem written_escapeChar (c : Char) : Written c (escapeChar c) := by
  unfold escapeChar
  split
  · next h =>
    rcases h with rfl | rfl
    · exact .escape rfl
    · exact .escape rfl
  · next h => exact .plain (fun hq => h (.inl hq)) (fun hs => h (.inr hs))

theorem literalValue_literalText (v : String) : literalValue (literalText v) = v :=
  (literalValue_of_written fun c _ => written_escapeChar c).trans String.ofList_toList

/-- Every literal of a text ends with its closing quote. -/
theorem exists_quotedTail_literalText (v : String) :
    ∃ tail, literalText v = '"' :: tail ∧ Region.QuotedTail false tail :=
  ⟨_, rfl, quotedTail_of_written fun c _ => written_escapeChar c⟩

end ServiceLang.Text
