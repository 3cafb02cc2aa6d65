import ServiceLang.Proofs.Grammar.Lexeme
import ServiceLang.Proofs.Grammar.Piece

/-!
Braces in the grammars of regions.

Where a text holds no comments, the trivia between the parts of a declaration is blank
(`Bare`), so what a grammar reads there is made of blanks, strings and characters that stand
for themselves to the scanner as well.  Every rule of such a grammar closes the braces that it
opens, which is checked on the definitions of the rules (`bracesAfter`).  Hence the scanner
has as many braces open behind a derivation as before it (`Derives.braces`).
-/

namespace ServiceLang

open Peg Region

/-! ## Texts without comments -/

/-- Where a place of a text lies: in its code, or inside a string literal, there perhaps
behind a backslash. -/
inductive Spot where
  | code
  | quoted (escaped : Bool)
deriving DecidableEq, Repr

/-- No comment begins in the text, outside of its string literals. -/
def commentFree : Spot → List Char → Bool
  | _, [] => true
  | .code, c :: cs =>
    if c = '"' then commentFree (.quoted false) cs
    else !(c = '/' && (cs.head? = some '/' || cs.head? = some '*')) && commentFree .code cs
  | .quoted true, _ :: cs => commentFree (.quoted false) cs
  | .quoted false, c :: cs => commentFree (if c = '"' then .code else .quoted (c = '\\')) cs

theorem commentFree_code {c : Char} {cs : List Char} (hc : c ≠ '"') (h : commentFree .code (c :: cs)) :
    ¬(c = '/' ∧ (cs.head? = some '/' ∨ cs.head? = some '*')) ∧ commentFree .code cs := by
  rw [commentFree, if_neg hc, Bool.and_eq_true] at h
  refine ⟨fun hcomment => ?_, h.2⟩
  rcases hcomment with ⟨rfl, hnext | hnext⟩ <;> simp [hnext] at h

/-- Behind a string literal there is code again. -/
theorem commentFree_quoted {e : Bool} {k : List Char} (hk : QuotedTail e k) (ys : List Char) :
    commentFree (.quoted e) (k ++ ys) = commentFree .code ys := by
  induction hk with
  | close => rfl
  | escape _ ih => exact ih
  | escaped _ ih => exact ih
  | char hquote hslash _ ih => rw [List.cons_append, commentFree, if_neg hquote, decide_eq_false hslash, ih]

namespace Peg

/-- No comment begins in the text ahead, which is code. -/
def Cursor.Bare (c : Cursor) : Prop := commentFree .code c.rest

namespace Cursor.Bare

variable {c d : Cursor}

theorem passes (h : c.Bare) {k : List Char} (hk : c.Passes k d) (hq : ∀ x ∈ k, x ≠ '"') : d.Bare := by
  induction k generalizing c with
  | nil => exact hk.eq_of_nil ▸ h
  | cons x k ih =>
    obtain ⟨e, hx, hrest⟩ := hk.exists_cons
    refine ih ?_ hrest fun y hy => hq y (List.mem_cons_of_mem x hy)
    unfold Bare at h ⊢
    rw [hx.1] at h
    exact (commentFree_code (hq x List.mem_cons_self) h).2

theorem quoted (h : c.Bare) {k : List Char} (hk : c.Passes ('"' :: k) d) (hq : QuotedTail false k) :
    d.Bare := by
  unfold Bare at h ⊢
  rw [hk.1, List.cons_append, commentFree, if_pos rfl, commentFree_quoted hq] at h
  exact h

theorem comment?_eq_none (h : c.Bare) : comment? c = none := by
  unfold comment?
  split
  · next rest hr =>
    unfold Bare at h
    rw [hr] at h
    exact absurd ⟨rfl, .inl rfl⟩ (commentFree_code (by decide) h).1
  · next rest hr =>
    unfold Bare at h
    rw [hr] at h
    exact absurd ⟨rfl, .inr rfl⟩ (commentFree_code (by decide) h).1
  · rfl

/-- The blanks before the next token. -/
theorem exists_blanks (h : c.Bare) : ∃ k, c.Passes k (skipTrivia c) ∧ (∀ x ∈ k, isBlank x) ∧
    (∀ x, (skipTrivia c).rest.head? = some x → isBlank x = false) ∧ (skipTrivia c).Bare := by
  have hpass : c.Passes (c.rest.takeWhile isBlank) (c.skipWhile isBlank) :=
    ⟨List.takeWhile_append_dropWhile.symm, rfl⟩
  have hblank : ∀ x ∈ c.rest.takeWhile isBlank, isBlank x := fun x hx => List.mem_takeWhile_imp hx
  have hbare : (c.skipWhile isBlank).Bare := h.passes hpass fun x hx => by
    rcases (isBlank_iff x).1 (hblank x hx) with rfl | rfl | rfl | rfl <;> decide
  have hskip : skipTrivia c = c.skipWhile isBlank := by
    unfold skipTrivia
    dsimp only
    rw [hbare.comment?_eq_none]
    rfl
  rw [hskip]
  refine ⟨_, hpass, hblank, fun x hx => ?_, hbare⟩
  have hnot := List.head?_dropWhile_not isBlank c.rest
  rw [show (c.rest.dropWhile isBlank).head? = some x from hx] at hnot
  exact hnot

end Cursor.Bare

theorem Cursor.Bare.skipTrivia_eq {c : Cursor} (h : c.Bare)
    (hs : ∀ x, c.rest.head? = some x → isBlank x = false) : skipTrivia c = c := by
  obtain ⟨k, hk, hblank, -⟩ := h.exists_blanks
  cases k with
  | nil => exact hk.eq_of_nil.symm
  | cons x k =>
    have hx := hs x (by rw [hk.1]; rfl)
    rw [hblank x List.mem_cons_self] at hx
    cases hx

/-- Behind the last token of a text that ends with it there is nothing. -/
theorem Cursor.Bare.rest_eq_nil {text : List Char} {x : Char} {e : Cursor} (h : e.Bare)
    (hr : (Cursor.start text).Reaches e) (hend : (skipTrivia e).rest = [])
    (hlast : text.getLast? = some x) (hx : isBlank x = false) : e.rest = [] := by
  obtain ⟨k, hk, hblank, -⟩ := h.exists_blanks
  obtain ⟨before, hbefore, -⟩ := hr
  have hrest : e.rest = k := by rw [hk.1, hend, List.append_nil]
  have htext : text = before ++ k := hrest ▸ hbefore
  rw [hrest]
  rcases List.eq_nil_or_concat k with rfl | ⟨l, y, rfl⟩
  · rfl
  · rw [htext, List.getLast?_append] at hlast
    have hy := hblank y (by simp)
    obtain rfl : y = x := by simpa using hlast
    rw [hx] at hy
    cases hy

/-! ## Braces between two places -/

/-- Of the braces open at the first cursor, `n` at least, `m` are left at the second where
the scanner reads on. -/
def Braces (n m : Nat) (c d : Cursor) : Prop :=
  ∃ k, c.Passes k d ∧ ∀ j tail, BracesTo (m + j + 1) tail → BracesTo (n + j + 1) (k ++ tail)

namespace Braces

variable {n m l : Nat} {c d e : Cursor}

theorem refl (n : Nat) (c : Cursor) : Braces n n c c := ⟨[], .nil c, fun _ _ h => h⟩

theorem trans (h : Braces n m c d) (h2 : Braces m l d e) : Braces n l c e := by
  obtain ⟨k, hk, hbraces⟩ := h
  obtain ⟨k2, hk2, hbraces2⟩ := h2
  refine ⟨k ++ k2, hk.append hk2, fun j tail ht => ?_⟩
  rw [List.append_assoc]
  exact hbraces j _ (hbraces2 j _ ht)

theorem add (h : Braces n m c d) (i : Nat) : Braces (n + i) (m + i) c d := by
  obtain ⟨k, hk, hbraces⟩ := h
  refine ⟨k, hk, fun j tail ht => ?_⟩
  rw [Nat.add_assoc m] at ht
  rw [Nat.add_assoc n]
  exact hbraces (i + j) tail ht

end Braces

/-! ## Words -/

section

variable {R : Type} {g : Grammar R} {sep : Bool} {mode : Mode} {c d : Cursor} {nodes : List (ParseTree R)}

theorem Derives.of_word {text : String} (h : Derives g sep (.word text) mode c nodes d)
    (hm : mode.spacing ≠ .free) : c.Passes text.toList d ∧ StopsAt isWordChar d := by
  obtain ⟨_, e, _, -, hliteral, hend⟩ := h.of_tight hm
  cases hliteral with
  | literal hliteral =>
  cases hend with
  | notHere hend => exact ⟨Cursor.passes_of_strip? hliteral, stopsAt_of_fails hend⟩

/-- A name is made of word characters. -/
theorem Derives.of_name (h : Derives g sep .name mode c nodes d) (hm : mode.spacing ≠ .free) :
    ∃ k, c.Passes k d ∧ k.head?.any isWordStart ∧ ∀ x ∈ k, isWordChar x := by
  have hclass (cls : CharClass) (x : Char) (hcls : decide (cls ≠ .any)) (hx : cls.contains x) :
      isWordChar x := isWordChar_of_contains cls (of_decide_eq_true hcls) hx
  obtain ⟨_, e, _, -, hstart, hmany⟩ := h.of_tight hm
  obtain ⟨-, k, hk, hword⟩ := hstart.reads (fun cls => cls ≠ .any) isWordChar hclass hm 0 rfl
  obtain ⟨-, l, hl, hmore⟩ := hmany.reads (fun cls => cls ≠ .any) isWordChar hclass hm 0 rfl
  obtain ⟨x, hx, hletter⟩ := hstart.head_of_wordStart
  cases k with
  | nil =>
    obtain ⟨-, -, -, -, hlt⟩ := hstart.exists_first [] 0 rfl
    rw [hk.eq_of_nil] at hlt
    exact absurd hlt (Nat.lt_irrefl _)
  | cons y k =>
    rw [hk.1] at hx
    obtain rfl := Option.some.inj hx
    refine ⟨y :: k ++ l, hk.append hl, hletter, fun z hz => ?_⟩
    exact (List.mem_append.1 hz).elim (hword z) (hmore z)

end

end Peg

/-! ## Characters that stand for themselves -/

/-- A character that stands for itself wherever no comment begins. -/
def isMark (c : Char) : Bool :=
  c ≠ '"' && c ≠ '\x7b' && c ≠ '\x7d' && c ≠ '/' && (isBlank c || !isAsciiControl c)

theorem isMark_of_isBlank {c : Char} (h : isBlank c) : isMark c := by
  rcases (isBlank_iff c).1 h with rfl | rfl | rfl | rfl <;> decide

theorem isMark_of_isWordChar {c : Char} (h : isWordChar c) : isMark c := by
  have hne (d : Char) (hd : isWordChar d = false) := ne_of_isWordChar c d h hd
  simp [isMark, hne '"' rfl, hne '{' rfl, hne '}' rfl, hne '/' rfl,
    isAsciiControl_eq_false_of_isWordChar c h]

theorem ne_quote_of_isMark {c : Char} (h : isMark c) : c ≠ '"' := by
  rintro rfl
  cases h

theorem isPlain_of_isMark {c : Char} (h : isMark c) (next : Option Char) : IsPlain c next := by
  simp only [isMark, Bool.and_eq_true, decide_eq_true_eq, Bool.or_eq_true] at h
  obtain ⟨⟨⟨⟨hquote, hopen⟩, hclose⟩, hslash⟩, hprints⟩ := h
  refine ⟨⟨hquote, hopen, hclose, fun hc => hslash hc.1⟩, hprints.imp id fun hc => ?_⟩
  simpa using hc

/-- Characters that stand for themselves leave the braces as they are. -/
theorem Region.BracesTo.marks {n : Nat} {k tail : List Char} (hk : ∀ x ∈ k, isMark x)
    (h : BracesTo n tail) : BracesTo n (k ++ tail) := by
  induction k with
  | nil => exact h
  | cons x k ih =>
    exact .char (isPlain_of_isMark (hk x List.mem_cons_self) _)
      (ih fun y hy => hk y (List.mem_cons_of_mem x hy))

namespace Peg

namespace Braces

variable {c d : Cursor}

theorem marks (n : Nat) {k : List Char} (hk : c.Passes k d) (hm : ∀ x ∈ k, isMark x) :
    Braces n n c d :=
  ⟨k, hk, fun _ _ ht => ht.marks hm⟩

theorem trivia (n : Nat) (h : c.Bare) : Braces n n c (skipTrivia c) := by
  obtain ⟨k, hk, hblank, -⟩ := h.exists_blanks
  exact .marks n hk fun x hx => isMark_of_isBlank (hblank x hx)

theorem quoted (n : Nat) {k : List Char} (hk : c.Passes ('"' :: k) d) (hq : QuotedTail false k) :
    Braces n n c d :=
  ⟨_, hk, fun _ _ ht => .skip (.quoted hq) ht⟩

end Braces

/-! ## Braces of patterns -/

/-- The number of braces open behind a text, from the number before it. -/
def bracesAfterText : List Char → Nat → Option Nat
  | [], n => some n
  | c :: cs, n =>
    if c = '{' then bracesAfterText cs (n + 1)
    else if c = '}' then if n = 0 then none else bracesAfterText cs (n - 1)
    else if isMark c then bracesAfterText cs n
    else none

/-- The number of braces open behind a pattern, from the number before it, if it closes only
such as are open and reads nothing else that has a meaning for the scanner.  Rules are taken to
close the braces that they open if `call` holds of them. -/
def Pattern.bracesAfter {R : Type} (call : R → Bool) : Pattern R → Nat → Option Nat
  | literal text, n => bracesAfterText text.toList n
  | oneOf cls, n => if cls = .any then none else .some n
  | rule r, n => if call r then .some n else .none
  | andThen p q, n => (p.bracesAfter call n).bind (q.bracesAfter call)
  | orElse p q, n => if p.bracesAfter call n = q.bracesAfter call n then p.bracesAfter call n else .none
  | many p, n | optional p, n => if p.bracesAfter call n = .some n then .some n else .none
  | notHere _, n | textStart, n | textEnd, n => .some n

theorem braces_of_text {c d : Cursor} {text : List Char} {n m : Nat} (hk : c.Passes text d)
    (hc : c.Bare) (hm : bracesAfterText text n = some m) : Braces n m c d ∧ d.Bare := by
  induction text generalizing c n with
  | nil =>
    obtain rfl := hk.eq_of_nil
    cases hm
    exact ⟨.refl _ _, hc⟩
  | cons x text ih =>
    obtain ⟨e, hx, hrest⟩ := hk.exists_cons
    have bare (hq : x ≠ '"') : e.Bare := hc.passes hx fun y hy => List.mem_singleton.1 hy ▸ hq
    unfold bracesAfterText at hm
    split at hm
    · next hopen =>
      subst hopen
      obtain ⟨hbraces, hd⟩ := ih hrest (bare (by decide)) hm
      refine ⟨.trans ⟨['{'], hx, fun j tail ht => ?_⟩ hbraces, hd⟩
      rw [Nat.add_right_comm n 1 j] at ht
      exact .brace ht
    split at hm
    · next hclose =>
      subst hclose
      split at hm
      · cases hm
      next hn =>
      obtain ⟨n, rfl⟩ := Nat.exists_eq_succ_of_ne_zero hn
      obtain ⟨hbraces, hd⟩ := ih hrest (bare (by decide)) hm
      refine ⟨.trans ⟨['}'], hx, fun j tail ht => ?_⟩ hbraces, hd⟩
      rw [Nat.succ_add]
      exact .close ht
    split at hm
    · next hmark =>
      obtain ⟨hbraces, hd⟩ := ih hrest (bare (ne_quote_of_isMark hmark)) hm
      exact ⟨.trans (.marks n hx fun y hy => List.mem_singleton.1 hy ▸ hmark) hbraces, hd⟩
    · cases hm

section

variable {R : Type} {g : Grammar R} {lexeme : Lexeme → R} {call : R → Bool}

/-- Where no comment begins, a derivation leaves the braces as its pattern says.  The rules that
it calls are strings, or they close the braces that they open. -/
theorem Derives.braces (hg : ∀ l, g.definition (lexeme l) = l.definition lexeme)
    (hcall : ∀ r, call r → r = lexeme .string ∨ (g.definition r).pattern.bracesAfter call 0 = some 0)
    {sep : Bool} {p : Pattern R} {mode : Mode} {c d : Cursor} {nodes : List (ParseTree R)}
    (h : Derives g sep p mode c nodes d) (hc : c.Bare) {n m : Nat}
    (hm : p.bracesAfter call n = some m) : Braces n m c d ∧ d.Bare := by
  have gap_bare {c : Cursor} (sep : Bool) (mode : Mode) (n : Nat) (hc : c.Bare) :
      Braces n n c (gap sep mode c) ∧ (gap sep mode c).Bare := by
    unfold gap
    split
    · obtain ⟨-, -, -, -, hbare⟩ := hc.exists_blanks
      exact ⟨.trivia n hc, hbare⟩
    · exact ⟨.refl n c, hc⟩
  -- a repetition or an option that leaves the braces as they are
  have same {q : Pattern R} {n m : Nat}
      (hm : (if q.bracesAfter call n = some n then some n else Option.none) = some m) :
      n = m ∧ q.bracesAfter call n = some n := by
    split at hm
    · next hq => exact ⟨Option.some.inj hm, hq⟩
    · cases hm
  induction h generalizing n m with
  | literal h => exact braces_of_text (Cursor.passes_of_strip? h) hc hm
  | @oneOf sep cls mode c d h =>
    obtain ⟨x, hx, hcontains, ho⟩ := (Cursor.next?_eq_some_iff _ c d).1 h
    unfold Pattern.bracesAfter at hm
    split at hm
    · cases hm
    next hcls =>
    obtain rfl := Option.some.inj hm
    have hmark := isMark_of_isWordChar (isWordChar_of_contains cls hcls hcontains)
    have hpass : c.Passes [x] d := ⟨hx, by simpa using ho⟩
    exact ⟨.marks n hpass fun y hy => List.mem_singleton.1 hy ▸ hmark,
      hc.passes hpass fun y hy => List.mem_singleton.1 hy ▸ ne_quote_of_isMark hmark⟩
  | @rule sep r mode c d nodes h ih =>
    unfold Pattern.bracesAfter at hm
    split at hm
    · next hr =>
      obtain rfl := Option.some.inj hm
      rcases hcall r hr with rfl | hbalanced
      · have hstring : Derives g sep (.rule (lexeme .string)) mode c _ d := .rule h
        obtain ⟨k, -, -, hk, hq, -⟩ := exists_quoted_of_string hg hstring
        exact ⟨.quoted n hk hq, hc.quoted hk hq⟩
      · obtain ⟨hbraces, hd⟩ := ih hc hbalanced
        exact ⟨by simpa using hbraces.add n, hd⟩
    · cases hm
  | @andThen sep p q mode c d e nodes more _ _ ih1 ih2 =>
    obtain ⟨l, hp, hq⟩ := Option.bind_eq_some_iff.1 hm
    obtain ⟨hfirst, hd⟩ := ih1 hc hp
    obtain ⟨hgap, hd⟩ := gap_bare sep mode l hd
    obtain ⟨hsecond, he⟩ := ih2 hd hq
    exact ⟨(hfirst.trans hgap).trans hsecond, he⟩
  | first _ ih =>
    unfold Pattern.bracesAfter at hm
    split at hm
    · exact ih hc hm
    · cases hm
  | second _ ih =>
    unfold Pattern.bracesAfter at hm
    split at hm
    · next heq => exact ih hc (heq ▸ hm)
    · cases hm
  | none | without =>
    obtain ⟨rfl, -⟩ := same hm
    exact ⟨.refl n _, hc⟩
  | once _ ih =>
    obtain ⟨rfl, hp⟩ := same hm
    exact ih hc hp
  | «with» _ ih =>
    obtain ⟨rfl, hp⟩ := same hm
    exact ih hc hp
  | @again sep p mode c d e nodes more _ _ ih1 ih2 =>
    obtain ⟨rfl, hp⟩ := same hm
    obtain ⟨hfirst, hd⟩ := ih1 hc hm
    obtain ⟨hgap, hd⟩ := gap_bare sep mode n hd
    obtain ⟨hround, he⟩ := ih2 hd hp
    exact ⟨(hfirst.trans hgap).trans hround, he⟩
  | notHere | textStart | textEnd =>
    obtain rfl := Option.some.inj hm
    exact ⟨.refl n _, hc⟩

/-- Behind the last token of a text that ends with it there is nothing, if trivia alone is left. -/
theorem Derives.rest_eq_nil (hg : ∀ l, g.definition (lexeme l) = l.definition lexeme) {text : List Char}
    {x : Char} {c d : Cursor} {nodes : List (ParseTree R)}
    (h : Derives g true (.rule (lexeme .endOfInput)) ⟨.none, .free⟩ (skipTrivia c) nodes d) (hc : c.Bare)
    (hr : (Cursor.start text).Reaches c) (hlast : text.getLast? = some x) (hx : isBlank x = false) :
    c.rest = [] := by
  refine hc.rest_eq_nil hr ?_ hlast hx
  obtain ⟨_, hend, -⟩ := h.of_rule
  rw [hg] at hend
  generalize skipTrivia c = f at hend
  cases hend with
  | textEnd hnil => exact hnil

/-- A body in braces, with the blanks around it. -/
theorem Derives.exists_bracesTo (hg : ∀ l, g.definition (lexeme l) = l.definition lexeme)
    (hcall : ∀ r, call r → r = lexeme .string ∨ (g.definition r).pattern.bracesAfter call 0 = some 0)
    {p : Pattern R} {c d : Cursor} {nodes : List (ParseTree R)}
    (h : Derives g true (.all [.literal "\x7b", p, .literal "\x7d"]) ⟨.none, .free⟩ c nodes d)
    (hc : c.Bare) (hp : p.bracesAfter call 0 = some 0) :
    ∃ k, c.Passes ('{' :: k) d ∧ BracesTo 0 ('{' :: k) ∧ d.Bare := by
  obtain ⟨_, a, _, -, hopen, h⟩ := h.of_andThen
  obtain ⟨_, b, _, -, hbody, hclose⟩ := h.of_andThen
  cases hopen with
  | literal hopen =>
  cases hclose with
  | literal hclose =>
  have hopen : c.Passes ['{'] a := Cursor.passes_of_strip? hopen
  have hclose : Cursor.Passes (skipTrivia b) ['}'] d := Cursor.passes_of_strip? hclose
  have ha : a.Bare := hc.passes hopen (by decide)
  obtain ⟨-, -, -, -, hstart⟩ := ha.exists_blanks
  obtain ⟨hbraces, hb⟩ := Derives.braces hg hcall hbody hstart hp
  obtain ⟨-, -, -, -, hend⟩ := hb.exists_blanks
  obtain ⟨k, hk, hinner⟩ := ((Braces.trivia 0 ha).trans hbraces).trans (.trivia 0 hb)
  exact ⟨k ++ ['}'], hopen.append (hk.append hclose), .brace (hinner 0 _ .last),
    hend.passes hclose (by decide)⟩

end

end Peg

end ServiceLang
