import ServiceLang.Grammar.Main
import ServiceLang.Proofs.Peg.Token
import ServiceLang.Proofs.Region.Found

/-!
The pieces of text that the scanner passes, as the grammars have them.

The scanner and the grammars have each their own idea of comments, strings and
`exec` blocks.  They agree on where each of them ends: what `comment?` skips is a
comment of the scanner or a line comment that the text ends, a `string` is a
string literal, and behind its keyword an `execBlock` is the rest of a shell
block.
-/

namespace ServiceLang

open Peg Region

/-! ## Comments -/

/-- A star that has just been read closes nothing unless a slash follows. -/
theorem blockTail_of_star {star : Bool} {k : List Char} (ys : List Char) (h : BlockTail false k)
    (hs : star = true → (k ++ ys).head? ≠ some '/') : BlockTail star k := by
  cases h with
  | @char _ c cs _ hk =>
    refine .char ?_ hk
    rintro ⟨hstar, rfl⟩
    exact hs hstar rfl

theorem blockTail_of_afterBlockComment? (offset : Nat) (cs : List Char) (d : Cursor)
    (h : afterBlockComment? offset cs = some d) :
    ∃ k, Cursor.Passes ⟨offset, cs⟩ k d ∧ BlockTail false k := by
  induction cs generalizing offset with
  | nil => cases h
  | cons c cs ih =>
    -- a character that begins no closing pair, and the rest of the comment behind it
    have next : (c = '*' → cs.head? ≠ some '/') → afterBlockComment? (offset + c.utf8Size) cs = some d →
        ∃ k, Cursor.Passes ⟨offset, c :: cs⟩ k d ∧ BlockTail false k := by
      intro hc h2
      obtain ⟨k, ⟨hk, ho⟩, hb⟩ := ih _ h2
      have hk : cs = k ++ d.rest := hk
      refine ⟨c :: k, ⟨?_, ?_⟩, .char (by simp) ?_⟩
      · rw [hk]; rfl
      · rw [ho, byteLength_cons, Nat.add_assoc]
      · refine blockTail_of_star d.rest hb ?_
        intro hstar
        rw [← hk]
        exact hc (of_decide_eq_true hstar)
    unfold afterBlockComment? at h
    split at h
    · next rest heq =>
      cases heq
      cases h
      exact ⟨['*', '/'], ⟨rfl, rfl⟩, .char (by simp) .close⟩
    · next x o y ys hne heq =>
      cases heq
      refine next ?_ h
      rintro rfl hcs
      obtain ⟨rest, rfl⟩ := List.head?_eq_some_iff.1 hcs
      exact hne rest rfl rfl
    · next heq => cases heq

/-- A line ends with a newline, or with the text. -/
theorem line_cases (cs : List Char) :
    ('\n' ∉ cs ∧ ∀ offset, Cursor.skipWhile (· ≠ '\n') ⟨offset, cs⟩ = ⟨offset + byteLength cs, []⟩) ∨
      ∃ k ys, cs = k ++ '\n' :: ys ∧ LineTail (k ++ ['\n']) ∧
        ∀ offset, Cursor.skipWhile (· ≠ '\n') ⟨offset, cs⟩ = ⟨offset + byteLength k, '\n' :: ys⟩ := by
  induction cs with
  | nil => exact .inl ⟨nofun, fun _ => rfl⟩
  | cons c cs ih =>
    by_cases hc : c = '\n'
    · subst hc
      exact .inr ⟨[], cs, rfl, .close, fun _ => rfl⟩
    have skip : ∀ offset, Cursor.skipWhile (· ≠ '\n') ⟨offset, c :: cs⟩ =
        Cursor.skipWhile (· ≠ '\n') ⟨offset + c.utf8Size, cs⟩ := by
      intro offset
      simp [Cursor.skipWhile, hc, Nat.add_assoc]
    rcases ih with ⟨hn, hend⟩ | ⟨k, ys, rfl, hk, hend⟩
    · left
      refine ⟨?_, fun offset => ?_⟩
      · intro hm
        rcases List.mem_cons.1 hm with hm | hm
        · exact hc hm.symm
        · exact hn hm
      · rw [skip, hend, byteLength_cons, Nat.add_assoc]
    · right
      refine ⟨c :: k, ys, rfl, .char hc hk, fun offset => ?_⟩
      rw [skip, hend, byteLength_cons, Nat.add_assoc]

/-- A newline at the start of blanks is one of them. -/
theorem skipWhile_newline (offset : Nat) (ys : List Char) :
    Cursor.skipWhile isBlank ⟨offset, '\n' :: ys⟩ = Cursor.skipWhile isBlank ⟨offset + 1, ys⟩ := by
  simp [Cursor.skipWhile, isBlank, Char.utf8Size, Nat.add_assoc]

/-- The grammars skip a comment of the scanner, but for the newline behind a line
comment; or a line comment that the text ends. -/
theorem comment?_cases {c d : Cursor} (h : comment? c = some d) :
    (∃ k e, Comment k ∧ c.Passes k e ∧ d.skipWhile isBlank = e.skipWhile isBlank) ∨
      ∃ k, c.Passes ('/' :: '/' :: k) d ∧ '\n' ∉ k ∧ d.rest = [] := by
  unfold comment? at h
  split at h
  · next rest hr =>
    cases h
    rcases line_cases rest with ⟨hn, hend⟩ | ⟨k, ys, rfl, hk, hend⟩
    · right
      rw [hend]
      refine ⟨rest, ⟨by simpa using hr, ?_⟩, hn, rfl⟩
      rw [byteLength_cons, byteLength_cons]
      show c.offset + 2 + byteLength rest = c.offset + (1 + (1 + byteLength rest))
      omega
    · left
      rw [hend]
      refine ⟨'/' :: '/' :: (k ++ ['\n']), ⟨c.offset + 2 + byteLength k + 1, ys⟩, .line hk, ⟨?_, ?_⟩,
        skipWhile_newline _ _⟩
      · simpa using hr
      · rw [byteLength_cons, byteLength_cons, byteLength_append]
        show c.offset + 2 + byteLength k + 1 = c.offset + (1 + (1 + (byteLength k + 1)))
        omega
  · next rest hr =>
    obtain ⟨k, ⟨hk, ho⟩, hb⟩ := blockTail_of_afterBlockComment? _ _ d h
    left
    refine ⟨'/' :: '*' :: k, d, .block hb, ⟨?_, ?_⟩, rfl⟩
    · rw [hr]
      exact congrArg ('/' :: '*' :: ·) hk
    · rw [ho, byteLength_cons, byteLength_cons]
      show c.offset + 2 + byteLength k = c.offset + (1 + (1 + byteLength k))
      omega
  · cases h

/-! ## Strings -/

section Strings

variable {R : Type} {g : Grammar R} {lexeme : Lexeme → R}

/-- One round of the text of a string: an escaped character, or one that ends nothing. -/
theorem quotedTail_of_round {sep : Bool} {mode : Mode} {c d : Cursor} {nodes : List (ParseTree R)}
    (h : Derives g sep (.orElse (.andThen (.literal "\\") (.oneOf .any))
      (.andThen (.notHere (.orElse (.literal "\"") (.literal "\\"))) (.oneOf .any))) mode c nodes d)
    (hm : mode.spacing ≠ .free) :
    ∃ k, c.Passes k d ∧ ∀ tail, QuotedTail false tail → QuotedTail false (k ++ tail) := by
  cases h with
  | first h =>
    obtain ⟨_, e, _, -, h1, h2⟩ := h.of_tight hm
    cases h1 with
    | literal h1 =>
    cases h2 with
    | oneOf h2 =>
    obtain ⟨x, hx, -, ho⟩ := (Cursor.next?_eq_some_iff _ e d).1 h2
    have hslash : c.Passes ['\\'] e := Cursor.passes_of_strip? h1
    refine ⟨['\\', x], hslash.append (l := [x]) ⟨hx, by simpa using ho⟩, ?_⟩
    exact fun tail ht => .escape (.escaped ht)
  | second h =>
    obtain ⟨_, e, _, -, h1, h2⟩ := h.of_tight hm
    cases h1 with
    | notHere hf =>
    cases h2 with
    | oneOf h2 =>
    obtain ⟨x, hx, -, ho⟩ := (Cursor.next?_eq_some_iff _ c d).1 h2
    obtain ⟨hquote, hslash⟩ := hf.of_orElse
    refine ⟨[x], ⟨hx, by simpa using ho⟩, ?_⟩
    exact fun tail ht => .char (hquote.ne_of_literal rfl hx) (hslash.ne_of_literal rfl hx) ht

/-- A string of a grammar is a string literal of the scanner, whatever rules it stands in. -/
theorem exists_quoted_of_string (hg : ∀ l, g.definition (lexeme l) = l.definition lexeme) {sep : Bool}
    {mode : Mode} {c d : Cursor} {nodes : List (ParseTree R)}
    (h : Derives g sep (.rule (lexeme .string)) mode c nodes d) :
    ∃ k e stop, c.Passes ('"' :: k) d ∧ QuotedTail false k ∧
      nodes = keepNodes .unspaced (lexeme .string) mode c d.offset
        (keepNodes .token (lexeme .stringInner) { mode with spacing := .tight } e stop []) := by
  obtain ⟨inner, hp, rfl⟩ := h.of_rule
  rw [hg] at hp ⊢
  have htight : Spacing.tight ≠ .free := by decide
  obtain ⟨before, e, behind, rfl, h1, h2⟩ := hp.of_tight htight
  obtain ⟨body, f, last, rfl, h2, h3⟩ := h2.of_tight htight
  obtain ⟨inner, hbody, rfl⟩ := h2.of_rule
  rw [hg] at hbody ⊢
  cases h1 with
  | literal h1 =>
  cases h3 with
  | literal h3 =>
  obtain ⟨hnone, -⟩ := hbody.reads (fun _ => true) (fun _ => true) (fun _ _ _ _ => rfl) nofun 1 rfl
  obtain rfl := hnone rfl
  have hopen : c.Passes ['"'] e := Cursor.passes_of_strip? h1
  have hclose : f.Passes ['"'] d := Cursor.passes_of_strip? h3
  have htext : ∃ k, e.Passes k f ∧ ∀ tail, QuotedTail false tail → QuotedTail false (k ++ tail) := by
    refine hbody.many_induction (P := fun a => ∃ k, e.Passes k a ∧
      ∀ tail, QuotedTail false tail → QuotedTail false (k ++ tail)) nofun
      ⟨[], .nil e, fun _ ht => ht⟩ ?_
    rintro a b more ⟨k, hk, hkt⟩ hround
    obtain ⟨l, hl, hlt⟩ := quotedTail_of_round hround nofun
    refine ⟨k ++ l, hk.append hl, fun tail ht => ?_⟩
    rw [List.append_assoc]
    exact hkt _ (hlt _ ht)
  obtain ⟨k, hk, hkt⟩ := htext
  refine ⟨k ++ ['"'], e, f.offset, hopen.append (hk.append hclose), hkt _ .close, ?_⟩
  rw [List.nil_append, List.append_nil]
  rfl

theorem quotedTail_of_string (hg : ∀ l, g.definition (lexeme l) = l.definition lexeme) {sep : Bool}
    {c d : Cursor} {nodes : List (ParseTree R)}
    (h : Derives g sep (.rule (lexeme .string)) ⟨.none, .free⟩ c nodes d) :
    ∃ k e stop, c.Passes ('"' :: k) d ∧ QuotedTail false k ∧
      nodes = [.node (lexeme .string) c d.offset [.node (lexeme .stringInner) e stop []]] :=
  exists_quoted_of_string hg h

end Strings

/-! ## Shell blocks -/

namespace MainGrammar

/-- Shell text between two cursors closes as many braces as it opens. -/
def IsShellText (c d : Cursor) : Prop :=
  ∃ k, c.Passes k d ∧ ∀ depth tail, ShellTail (depth + 1) tail → ShellTail (depth + 1) (k ++ tail)

theorem IsShellText.trans {c d e : Cursor} (h : IsShellText c d) (h2 : IsShellText d e) :
    IsShellText c e := by
  obtain ⟨k, hk, hkt⟩ := h
  obtain ⟨l, hl, hlt⟩ := h2
  refine ⟨k ++ l, hk.append hl, fun depth tail ht => ?_⟩
  rw [List.append_assoc]
  exact hkt _ _ (hlt _ _ ht)

theorem IsShellText.length_le {c d : Cursor} (h : IsShellText c d) : d.rest.length ≤ c.rest.length := by
  obtain ⟨k, hk, -⟩ := h
  exact hk.reaches.length_le

/-- Text in braces opens a brace and closes it. -/
theorem IsShellText.braces {c d e f : Cursor} (hopen : c.Passes ['{'] d) (h : IsShellText d e)
    (hclose : e.Passes ['}'] f) : IsShellText c f := by
  obtain ⟨k, hk, hkt⟩ := h
  refine ⟨'{' :: (k ++ ['}']), hopen.append (hk.append hclose), fun depth tail ht => ?_⟩
  have hinner : ShellTail (depth + 2) (k ++ '}' :: tail) := hkt _ _ (.close ht)
  have := ShellTail.brace hinner
  simpa using this

/-- A rule of shell text is shell text; the induction is on the text ahead, of which
braces take some before more shell text stands inside them. -/
theorem isShellText_of_shellText (n : Nat) {sep : Bool} {mode : Mode} {c d : Cursor}
    {nodes : List (ParseTree Rule)} (h : Derives grammar sep (.rule .shellText) mode c nodes d)
    (hm : mode.spacing ≠ .free) (hn : c.rest.length ≤ n) : IsShellText c d := by
  induction n using Nat.strongRecOn generalizing sep mode c d nodes with
  | ind n ih =>
  obtain ⟨inner, hp, -⟩ := h.of_rule
  have hm2 : (Kind.silent.inner mode.spacing) ≠ .free := hm
  refine hp.many_induction (P := IsShellText c) hm2 ⟨[], .nil c, fun _ _ ht => ht⟩ ?_
  intro e f more he hround
  refine he.trans ?_
  have hle := he.length_le
  cases hround with
  | first h =>
    obtain ⟨_, a, _, -, h1, h2⟩ := h.of_tight hm2
    obtain ⟨_, b, _, -, h2, h3⟩ := h2.of_tight hm2
    cases h1 with
    | literal h1 =>
    cases h3 with
    | literal h3 =>
    have hopen : e.Passes ['{'] a := Cursor.passes_of_strip? h1
    have hlt : a.rest.length < n := by
      have := congrArg List.length hopen.1
      simp at this
      omega
    exact .braces hopen (ih _ hlt h2 hm2 (Nat.le_refl _)) (Cursor.passes_of_strip? h3)
  | second h =>
    obtain ⟨_, a, _, -, h1, h2⟩ := h.of_tight hm2
    cases h1 with
    | notHere hf =>
    cases h2 with
    | oneOf h2 =>
    obtain ⟨x, hx, -, ho⟩ := (Cursor.next?_eq_some_iff _ e f).1 h2
    obtain ⟨hopen, hclose⟩ := hf.of_orElse
    refine ⟨[x], ⟨hx, by simpa using ho⟩, ?_⟩
    exact fun depth tail ht => .char (hopen.ne_of_literal rfl hx) (hclose.ne_of_literal rfl hx) ht

theorem execAt_of_nextIs {ys : List Char} (hw : ys.head?.any isWordChar = false)
    (hn : nextIs '{' ys) : execAt ("exec".toList ++ ys) := by
  have hword : ("exec".toList ++ ys).takeWhile isWordChar = "exec".toList ∧
      ("exec".toList ++ ys).dropWhile isWordChar = ys := by
    have hexec : ∀ x ∈ "exec".toList, isWordChar x := List.all_eq_true.1 rfl
    rw [List.takeWhile_append_of_pos hexec, List.dropWhile_append_of_pos hexec]
    cases ys with
    | nil => exact ⟨rfl, rfl⟩
    | cons y ys =>
      have hy : isWordChar y = false := hw
      simp [hy]
  unfold execAt
  rw [hword.1, hword.2, hn]
  rfl

/-- Behind its first character, an `exec` block is the rest of a shell block of the
scanner, which the word opens. -/
theorem exists_of_execBlock {sep : Bool} {c d : Cursor} {nodes : List (ParseTree Rule)}
    (h : Derives grammar sep (.rule .execBlock) ⟨.none, .free⟩ c nodes d) :
    ∃ k inner, c.Passes ('e' :: k) d ∧ ShellTail 0 k ∧ execAt c.rest ∧
      nodes = [.node .execBlock c d.offset inner] := by
  obtain ⟨inner, hp, rfl⟩ := h.of_rule
  have htight : Spacing.tight ≠ .free := by decide
  obtain ⟨_, a, _, -, hword, hp⟩ := hp.of_tight htight
  obtain ⟨_, b, _, -, hblanks, hp⟩ := hp.of_tight htight
  obtain ⟨_, e, _, -, hopen, hp⟩ := hp.of_tight htight
  obtain ⟨_, f, _, -, hbody, hclose⟩ := hp.of_tight htight
  obtain ⟨_, hword, -⟩ := hword.of_rule
  obtain ⟨_, a', _, -, hword, hend⟩ := hword.of_tight nofun
  obtain ⟨_, hbody, -⟩ := hbody.of_rule
  cases hword with
  | literal hword =>
  cases hend with
  | notHere =>
  cases hopen with
  | literal hopen =>
  cases hclose with
  | literal hclose =>
  have hword : c.Passes "exec".toList a := Cursor.passes_of_strip? hword
  have hopen : b.Passes ['{'] e := Cursor.passes_of_strip? hopen
  have hclose : f.Passes ['}'] d := Cursor.passes_of_strip? hclose
  obtain ⟨-, bs, hbs, hblank⟩ := hblanks.reads (fun _ => false) isBlank nofun htight 0 rfl
  obtain ⟨k, hk, hkt⟩ := isShellText_of_shellText _ hbody nofun (Nat.le_refl _)
  have htext := hword.append (hbs.append (hopen.append (hk.append hclose)))
  refine ⟨"xec".toList ++ (bs ++ '{' :: (k ++ ['}'])), inner, htext, ?_, ?_, rfl⟩
  · have hbraces : ShellTail 0 ('{' :: (k ++ ['}'])) := .brace (hkt 0 ['}'] (.last (Nat.le_refl 1)))
    have hmore : ShellTail 0 (bs ++ '{' :: (k ++ ['}'])) := by
      clear hbs htext
      induction bs with
      | nil => exact hbraces
      | cons x bs ih =>
        have hx := hblank x List.mem_cons_self
        refine .char ?_ ?_ (ih fun y hy => hblank y (List.mem_cons_of_mem x hy))
        · rintro rfl; cases hx
        · rintro rfl; cases hx
    exact .char (by decide) (by decide) (.char (by decide) (by decide)
      (.char (by decide) (by decide) hmore))
  · rw [htext.1, List.append_assoc]
    refine execAt_of_nextIs ?_ ?_
    · cases bs with
      | nil => rfl
      | cons x bs =>
        have hx := hblank x List.mem_cons_self
        rcases (isBlank_iff x).1 hx with rfl | rfl | rfl | rfl <;> rfl
    · unfold nextIs skipBlanks
      rw [List.append_assoc, List.dropWhile_append_of_pos hblank]
      rfl

end MainGrammar

end ServiceLang
