import ServiceLang.Grammar.Main
import ServiceLang.Proofs.Peg.Token

/-!
Braces and `exec` blocks in the main grammar.

Every rule closes the braces that it opens.  This is checked on the definitions of
the rules: `depthAfter` follows a pattern with a number of open braces, and finds
none if the pattern closes one too many, or if it reads an `@` outside all braces
or a character that the region scanner would take for the start of a comment or a
string.  Strings, `exec` blocks and tokens are left to their own rules, so the
check of a rule does not look into others (`rule_cases`).

`blockStarts` lists where the `exec` blocks of a parse tree start.
-/

namespace ServiceLang.MainGrammar

open Peg

/-! ## Characters -/

/-- Operators and separators that stand for themselves in main text. -/
def marks : List Char :=
  ['.', ',', ':', '?', '=', '!', '<', '>', '+', '-', '*', '%', '&', '|', '(', ')', '[', ']']

/-- The characters of tokens, but for the operator of divisions. -/
def isTokenChar (c : Char) : Bool := isWordChar c || marks.contains c

/-- The classes of characters that tokens are made of. -/
def isTokenClass (cls : CharClass) : Bool := cls ≠ .any

theorem isTokenChar_of_contains (cls : CharClass) (x : Char) (h : isTokenClass cls)
    (hx : cls.contains x) : isTokenChar x := by
  have word : x.isAlphanum → isTokenChar x := by
    intro h
    simp [isTokenChar, isWordChar, h]
  have digit : x.isDigit → x.isAlphanum := by
    intro h
    simp [Char.isAlphanum, h]
  have letter : x.isAlpha → x.isAlphanum := by
    intro h
    simp [Char.isAlphanum, h]
  cases cls with
  | any => cases h
  | digit => exact word (digit hx)
  | letter => exact word (letter hx)
  | alphanumeric => exact word hx

/-! ## Braces -/

/-- The number of braces that are open behind a text, from the number before it. -/
def depthAfterText : List Char → Nat → Option Nat
  | [], depth => some depth
  | c :: cs, depth =>
    if c = '{' then depthAfterText cs (depth + 1)
    else if depth ≠ 0 && c = '}' then depthAfterText cs (depth - 1)
    else if (depth ≠ 0 && c = '@') || marks.contains c then depthAfterText cs depth
    else none

/-- The number of braces around a rule, at least. -/
def minDepth : Rule → Nat
  | .fieldDecl | .modifier => 1
  | _ => 0

/-- The rules that may be read on their own.  What may follow the operator of a
product is left to the product. -/
def standsAlone : Rule → Bool
  | .mulOp | .lexeme .stringInner | .shellBody | .shellText => false
  | _ => true

/-- Operands never begin with these, so no operator ends in a comment. -/
def commentChars : List Char := ['*', '/']

/-- The pattern is the operator of a product. -/
def isMulOp : Pattern Rule → Bool
  | .rule .mulOp => true
  | _ => false

theorem eq_of_isMulOp {p : Pattern Rule} (h : isMulOp p) : p = .rule .mulOp := by
  unfold isMulOp at h
  split at h
  · rfl
  · cases h

/-- The number of braces that are open behind a pattern, from the number before it. -/
def depthAfter : Pattern Rule → Nat → Option Nat
  | .literal text, depth => depthAfterText text.toList depth
  | .oneOf _, _ => none
  | .rule r, depth => if standsAlone r && minDepth r ≤ depth then some depth else none
  | .andThen p q, depth =>
    if isMulOp p then
      if q.avoids (grammar.avoids commentChars 6) commentChars true then depthAfter q depth else none
    else (depthAfter p depth).bind (depthAfter q)
  | .orElse p q, depth => if depthAfter p depth = depthAfter q depth then depthAfter p depth else none
  | .many p, depth | .optional p, depth =>
    if depthAfter p depth = some depth then some depth else none
  | .notHere _, depth | .textStart, depth | .textEnd, depth => some depth

/-- The rule is a token of other characters than those of comments and strings. -/
def isPlainToken (r : Rule) : Bool := grammar.reads isTokenClass isTokenChar 3 r

/-- The rule closes the braces that it opens. -/
def isBalanced (r : Rule) : Bool :=
  ((definition r).kind = .spaced || (definition r).kind = .silent) &&
    depthAfter (definition r).pattern (minDepth r) = some (minDepth r)

/-- What the rules of the grammar are for the braces of a text. -/
theorem rule_cases (r : Rule) (h : standsAlone r) :
    r = .lexeme .string ∨ r = .execBlock ∨ isPlainToken r ∨ isBalanced r := by
  have all : ∀ r ∈ Rule.all, standsAlone r →
      r = .lexeme .string ∨ r = .execBlock ∨ isPlainToken r ∨ isBalanced r := by decide +kernel
  exact all r r.mem_all h

/-! ## Blocks -/

mutual

/-- Where the `exec` blocks of a tree start. -/
def blockStartsOf : ParseTree Rule → List Nat
  | .node r start _ children => if r = .execBlock then [start.offset] else blockStarts children

/-- Where the `exec` blocks of trees start. -/
def blockStarts : List (ParseTree Rule) → List Nat
  | [] => []
  | t :: ts => blockStartsOf t ++ blockStarts ts

end

theorem blockStarts_append (ts us : List (ParseTree Rule)) :
    blockStarts (ts ++ us) = blockStarts ts ++ blockStarts us := by
  induction ts with
  | nil => simp [blockStarts]
  | cons t ts ih =>
    rw [List.cons_append, blockStarts, blockStarts, ih, List.append_assoc]

/-- Blocks that start in two stretches one behind the other start in both together. -/
theorem blockStarts_append_range {ts us : List (ParseTree Rule)} {a b b' c : Nat}
    (hts : ∀ o ∈ blockStarts ts, a ≤ o ∧ o < b) (hus : ∀ o ∈ blockStarts us, b' ≤ o ∧ o < c)
    (hab : a ≤ b) (hgap : b ≤ b') (hbc : b' ≤ c) : ∀ o ∈ blockStarts (ts ++ us), a ≤ o ∧ o < c := by
  intro o ho
  rw [blockStarts_append] at ho
  rcases List.mem_append.1 ho with ho | ho
  · have := hts o ho
    omega
  · have := hus o ho
    omega

/-- A rule that is no `exec` block has the blocks inside it. -/
theorem blockStarts_keepNodes (kind : Kind) (r : Rule) (mode : Mode) (c : Cursor) (stop : Nat)
    (inner : List (ParseTree Rule)) (h : r ≠ .execBlock) :
    blockStarts (keepNodes kind r mode c stop inner) = blockStarts inner := by
  unfold keepNodes nodesOf
  split
  · rfl
  split
  · simp [blockStarts, blockStartsOf, h]
  · rfl

/-- The blocks of a derivation start where it reads. -/
theorem blockStarts_range {sep : Bool} {p : Pattern Rule} {mode : Mode} {c d : Cursor}
    {nodes : List (ParseTree Rule)} (h : Derives grammar sep p mode c nodes d) :
    ∀ o ∈ blockStarts nodes, c.offset ≤ o ∧ o < d.offset := by
  induction h with
  | @rule sep r mode c d nodes h ih =>
    intro o ho
    by_cases hr : r = .execBlock
    · subst hr
      have hread : grammar.avoids [] 4 .execBlock := by decide
      have hrule : Derives grammar sep (.rule .execBlock) mode c _ d := .rule h
      obtain ⟨x, xs, -, -, hlt⟩ := hrule.exists_first [] 4 hread
      unfold keepNodes nodesOf at ho
      split at ho
      · exact ih o ho
      split at ho
      · simp only [blockStarts, blockStartsOf, if_true, List.append_nil, List.mem_singleton] at ho
        omega
      · exact ih o ho
    · rw [blockStarts_keepNodes _ r mode c d.offset nodes hr] at ho
      exact ih o ho
  | @andThen sep p q mode c d e nodes more h1 h2 ih1 ih2 =>
    exact blockStarts_append_range ih1 ih2 h1.reaches.offset_le (reaches_gap sep mode d).offset_le
      h2.reaches.offset_le
  | first _ ih => exact ih
  | second _ ih => exact ih
  | once _ ih => exact ih
  | @again sep p mode c d e nodes more h1 h2 ih1 ih2 =>
    exact blockStarts_append_range ih1 ih2 h1.reaches.offset_le (reaches_gap sep mode d).offset_le
      h2.reaches.offset_le
  | «with» _ ih => exact ih
  | _ =>
    intro o ho
    simp [blockStarts] at ho

end ServiceLang.MainGrammar
