import ServiceLang.Proofs.Grammar.Balance
import ServiceLang.Proofs.Grammar.Piece

/-!
The region scanner in step with the main grammar.

The scanner reads a text character by character, the main grammar derives it part
by part.  `InStep` says that both have come to the same place: the scanner reads
main text there and has found nothing.  Blanks, comments, strings, braces and
operators keep them in step, whatever the text is.  Words do as long as they fit
(`WordsFit`): they open no region, and they open `exec` blocks just where the
grammar has them.  So the two stay in step over a whole derivation
(`InStep.derives`).
-/

namespace ServiceLang.MainGrammar

open Peg Region

/-- A word ahead of the scanner opens no region, and it opens an `exec` block just if
one of the blocks starts here. -/
def WordFits (blocks : List Nat) (s : Scan) (ahead : List Char) : Prop :=
  (s.mainDepth? = some 0 → StartsWord true s.before ahead → headAt s.before ahead = none) ∧
  (s.mainDepth?.isSome → (OpensExec s ahead ↔ s.offset ∈ blocks))

/-- Wherever the scanner comes in main text, the word ahead fits the blocks. -/
def WordsFit (text : List Char) (blocks : List Nat) : Prop :=
  ∀ s ahead, Reads .start text s ahead → WordFits blocks s ahead

instance (blocks : List Nat) (s : Scan) (ahead : List Char) : Decidable (WordFits blocks s ahead) :=
  inferInstanceAs (Decidable ((_ → _ → _) ∧ (_ → (_ ↔ _))))

instance (text : List Char) (blocks : List Nat) : Decidable (WordsFit text blocks) :=
  decidable_of_iff' _ (forall_reads_iff text (WordFits blocks))

/-- The scanner has come to a cursor, where it reads main text inside so many braces or
the text has ended. -/
structure InStep (text : List Char) (s : Scan) (c : Cursor) (depth : Nat) : Prop where
  reads : Reads .start text s c.rest
  offset_eq : s.offset = c.offset
  found_eq : s.found = []
  place : s.stack = [.main depth] ∨ c.rest = [] ∧ Closed s.stack

namespace InStep

variable {text : List Char} {blocks : List Nat} {s : Scan} {c d : Cursor} {depth : Nat}

theorem stack_eq (h : InStep text s c depth) {x : Char} {rest : List Char} (hc : c.rest = x :: rest) :
    s.stack = [.main depth] := by
  rcases h.place with hs | ⟨hr, -⟩
  · exact hs
  · rw [hc] at hr
    cases hr

/-- Some text is passed by both. -/
theorem pass (h : InStep text s c depth) {k : List Char} (hk : c.Passes k d) {t : Scan} {n : Nat}
    (hr : Reads s (k ++ d.rest) t d.rest) (hf : t.found = s.found)
    (ht : t.stack = [.main n] ∨ d.rest = [] ∧ Closed t.stack) : InStep text t d n := by
  obtain ⟨l, hl, -, ho⟩ := hr.exists_read
  obtain rfl := List.append_cancel_right hl
  refine ⟨h.reads.trans ?_, ?_, hf.trans h.found_eq, ht⟩
  · rw [hk.1]
    exact hr
  · rw [ho, h.offset_eq, hk.2]

/-! ### Trivia -/

theorem blanks (h : InStep text s c depth) : ∃ t, InStep text t (c.skipWhile isBlank) depth := by
  have hk : c.Passes (c.rest.takeWhile isBlank) (c.skipWhile isBlank) :=
    ⟨List.takeWhile_append_dropWhile.symm, rfl⟩
  cases hr : c.rest with
  | nil =>
    have hc : c.skipWhile isBlank = c := by
      unfold Cursor.skipWhile
      rw [hr]
      cases c
      simp_all
    rw [hc]
    exact ⟨s, h⟩
  | cons x rest =>
    have hs := h.stack_eq hr
    have hblank : ∀ y ∈ c.rest.takeWhile isBlank, isBlank y := by
      intro y hy
      exact List.all_eq_true.1 List.all_takeWhile y hy
    exact ⟨_, h.pass hk (Reads.blanks hs trivial hblank _) rfl (.inl hs)⟩

theorem comment (h : InStep text s c depth) (hc : comment? c = some d) :
    ∃ t, InStep text t (d.skipWhile isBlank) depth := by
  rcases comment?_cases hc with ⟨k, e, hk, hpass, heq⟩ | ⟨k, hpass, hk, hend⟩
  · rw [heq]
    have hne : ∃ x rest, c.rest = x :: rest := by
      rw [hpass.1]
      cases hk <;> exact ⟨_, _, rfl⟩
    obtain ⟨x, rest, hr⟩ := hne
    have hs := h.stack_eq hr
    have he : InStep text _ e depth :=
      h.pass hpass (Reads.comment hs trivial hk e.rest) rfl (.inl hs)
    exact he.blanks
  · -- the text ends inside a line comment
    have hs := h.stack_eq hpass.1
    let t := ((s.advance '/').push (.lineComment s.offset)).after ('/' :: k)
    have hd : InStep text t d depth := by
      refine h.pass hpass ?_ rfl (.inr ⟨hend, ?_⟩)
      · rw [hend, List.append_nil]
        refine (Reads.code hs trivial .lineComment).trans ?_
        refine reads_openLine ('/' :: k) ?_ _ s.offset s.stack rfl
        intro hm
        rcases List.mem_cons.1 hm with hm | hm
        · cases hm
        · exact hk hm
      · intro f hf
        rcases List.mem_cons.1 hf with rfl | hf
        · rfl
        · have hf : f ∈ s.stack := hf
          rw [hs] at hf
          rw [List.mem_singleton.1 hf]
          rfl
    exact hd.blanks

theorem trivia (h : InStep text s c depth) : ∃ t, InStep text t (skipTrivia c) depth := by
  refine skipTrivia_induction (P := fun c => ∃ t, InStep text t c depth) c h.blanks ?_
  rintro d e ⟨t, ht⟩ he
  exact ht.comment he

/-! ### Characters and pieces -/

/-- A character that starts nothing is passed. -/
theorem other (h : InStep text s c depth) {x : Char} (hk : c.Passes [x] d) (hb : isBlank x = false)
    (hw : isWordChar x = false) (hn : StartsNothing x d.rest.head?) (hx : isAsciiControl x = false)
    (ha : ¬(x = '@' ∧ depth = 0)) : ∃ t, InStep text t d depth := by
  have hs := h.stack_eq hk.1
  have hstep : Reads s (x :: d.rest) _ d.rest := Reads.code hs trivial
    (.other hb hw hn hx (by rw [isTopLevel_main]; simpa using ha))
  exact ⟨_, h.pass hk hstep (by simp) (.inl (by simpa using hs))⟩

theorem mark (h : InStep text s c depth) {x : Char} (hk : c.Passes [x] d) (hx : x ∈ marks) :
    ∃ t, InStep text t d depth := by
  have plain : marks.all fun x => isBlank x = false ∧ isWordChar x = false ∧ x ≠ '"' ∧ x ≠ '{' ∧
      x ≠ '}' ∧ x ≠ '/' ∧ isAsciiControl x = false ∧ x ≠ '@' := by decide
  obtain ⟨hb, hw, h1, h2, h3, h4, hc, h5⟩ := of_decide_eq_true (List.all_eq_true.1 plain x hx)
  exact h.other hk hb hw ⟨h1, h2, h3, fun hs => h4 hs.1⟩ hc fun ha => h5 ha.1

theorem openBrace (h : InStep text s c depth) (hk : c.Passes ['{'] d) :
    ∃ t, InStep text t d (depth + 1) := by
  have hs := h.stack_eq hk.1
  have hstep : Reads s ('{' :: d.rest) _ d.rest := Reads.code hs trivial .openBrace
  refine ⟨_, h.pass hk hstep ?_ (.inl rfl)⟩
  simp [Region.openBrace]

theorem closeBrace (h : InStep text s c (depth + 1)) (hk : c.Passes ['}'] d) :
    ∃ t, InStep text t d depth := by
  have hs := h.stack_eq hk.1
  have hstep : Reads s ('}' :: d.rest) _ d.rest := Reads.code hs trivial .closeBrace
  exact ⟨_, h.pass hk hstep rfl (.inl rfl)⟩

theorem string (h : InStep text s c depth) {k : List Char} (hk : c.Passes ('"' :: k) d)
    (hq : QuotedTail false k) : ∃ t, InStep text t d depth := by
  have hs := h.stack_eq hk.1
  have hr := Reads.quoted hs trivial hq d.rest
  exact ⟨_, h.pass hk hr (by simp) (.inl (by simpa using hs))⟩

/-! ### Words -/

/-- A character of a word that fits is passed where no block starts. -/
theorem wordChar (h : InStep text s c depth) (hw : WordsFit text blocks) {x : Char}
    (hk : c.Passes [x] d) (hx : isWordChar x) (hb : c.offset ∉ blocks) :
    ∃ t, InStep text t d depth := by
  have hs := h.stack_eq hk.1
  have hd := mainDepth?_of_stack hs
  obtain ⟨hheads, hexecs⟩ := hw s c.rest h.reads
  have hfits := hexecs (by rw [hd]; rfl)
  rw [hk.1] at hheads hfits
  cases hi : insideWord (Frame.main depth).isTopLevel s.before with
  | true => exact ⟨_, h.pass hk (Reads.code hs trivial (.insideWord hx hi)) rfl (.inl hs)⟩
  | false =>
    have hstep : Reads s (x :: d.rest) _ d.rest := Reads.code hs trivial (.word hx hi)
    have hexec : execAt (x :: d.rest) = false := by
      rw [Bool.eq_false_iff]
      intro hexec
      exact hb (h.offset_eq ▸ hfits.1 ((opensExec_iff hs x d.rest).2 ⟨hx, hi, hexec⟩))
    rw [stepWord_main, hexec, if_neg (by simp)] at hstep
    by_cases hzero : depth = 0
    · subst hzero
      have hnone : headAt s.before (x :: d.rest) = none := hheads hd ⟨hx, hi⟩
      rw [if_neg (by simp), hnone] at hstep
      exact ⟨_, h.pass hk hstep (by simp) (.inl (by simpa using hs))⟩
    · rw [if_pos hzero] at hstep
      exact ⟨_, h.pass hk hstep rfl (.inl hs)⟩

theorem block (h : InStep text s c depth) (hw : WordsFit text blocks) {k : List Char}
    (hk : c.Passes ('e' :: k) d) (ht : ShellTail 0 k) (hb : c.offset ∈ blocks) :
    (∃ t, InStep text t d depth) ∧ OpensShell text c.offset := by
  have hs := h.stack_eq hk.1
  have hopens := ((hw s c.rest h.reads).2 (by rw [mainDepth?_of_stack hs]; rfl)).2 (h.offset_eq ▸ hb)
  refine ⟨?_, h.offset_eq ▸ opensShell_of_opensExec h.reads hopens⟩
  rw [hk.1] at hopens
  obtain ⟨-, hi, hexec⟩ := (opensExec_iff hs 'e' (k ++ d.rest)).1 hopens
  have hstep : Reads s ('e' :: (k ++ d.rest)) _ (k ++ d.rest) :=
    Reads.code hs trivial (.word rfl hi)
  rw [stepWord_main, if_pos hexec] at hstep
  have hbody := reads_shell 0 k ht (((s.advance 'e').dropPendingIf true).push
    (.shell s.offset 1 false)) s.offset s.stack d.rest rfl
  exact ⟨_, h.pass hk (hstep.trans hbody) rfl (.inl hs)⟩

/-- The text of a token that fits is passed where no block starts. -/
theorem token (hw : WordsFit text blocks) (k : List Char) {s : Scan} {c : Cursor}
    (h : InStep text s c depth) (hk : c.Passes k d) (hx : ∀ x ∈ k, isTokenChar x)
    (hb : ∀ o, c.offset ≤ o → o < d.offset → o ∉ blocks) : ∃ t, InStep text t d depth := by
  induction k generalizing s c with
  | nil =>
    rw [hk.eq_of_nil] at h
    exact ⟨s, h⟩
  | cons x k ih =>
    obtain ⟨e, hstep, hrest⟩ := hk.exists_cons
    have hce := hstep.offset_lt
    have hed := hrest.reaches.offset_le
    have hnext : ∃ t, InStep text t e depth := by
      have hxk := hx x List.mem_cons_self
      unfold isTokenChar at hxk
      rcases Bool.or_eq_true_iff.1 hxk with hxw | hxm
      · exact h.wordChar hw hstep hxw (hb _ (Nat.le_refl _) (by omega))
      · exact h.mark hstep (by simpa using hxm)
    obtain ⟨t, ht⟩ := hnext
    refine ih ht hrest (fun y hy => hx y (List.mem_cons_of_mem x hy)) fun o ho hod => ?_
    exact hb o (by omega) hod

/-- A literal of the grammar is passed if its braces can be counted. -/
theorem literal (k : List Char) {s : Scan} {c : Cursor} {n m j : Nat} (h : InStep text s c (n + j))
    (hk : c.Passes k d) (hd : depthAfterText k n = some m) : ∃ t, InStep text t d (m + j) := by
  induction k generalizing s c n with
  | nil =>
    cases hd
    rw [hk.eq_of_nil] at h
    exact ⟨s, h⟩
  | cons x k ih =>
    obtain ⟨e, hstep, hrest⟩ := hk.exists_cons
    unfold depthAfterText at hd
    split at hd
    · next hx =>
      subst hx
      obtain ⟨t, ht⟩ := h.openBrace hstep
      rw [Nat.add_right_comm] at ht
      exact ih ht hrest hd
    split at hd
    · next hx =>
      obtain ⟨hn, rfl⟩ : n ≠ 0 ∧ x = '}' := by simpa using hx
      rw [show n + j = n - 1 + j + 1 by omega] at h
      obtain ⟨t, ht⟩ := h.closeBrace hstep
      exact ih ht hrest hd
    split at hd
    · next hx =>
      rcases Bool.or_eq_true_iff.1 hx with hx | hx
      · obtain ⟨hn, rfl⟩ : n ≠ 0 ∧ x = '@' := by simpa using hx
        obtain ⟨t, ht⟩ := h.other hstep rfl rfl ⟨by decide, by decide, by decide, by simp⟩ rfl (by omega)
        exact ih ht hrest hd
      · obtain ⟨t, ht⟩ := h.mark hstep (by simpa using hx)
        exact ih ht hrest hd
    · cases hd

end InStep

/-! ## Whole derivations -/

section

variable {text : List Char} {blocks : List Nat} {s : Scan} {c d e : Cursor}

/-- The operator of a product is a single character. -/
theorem exists_of_mulOp {sep : Bool} {nodes : List (ParseTree Rule)}
    (h : Derives grammar sep (.rule .mulOp) ⟨.none, .free⟩ c nodes d) :
    blockStarts nodes = [] ∧ ∃ x, c.Passes [x] d ∧ (x ∈ marks ∨ x = '/') := by
  obtain ⟨inner, hp, rfl⟩ := h.of_rule
  rw [blockStarts_keepNodes _ _ _ _ _ _ (by decide)]
  cases hp with
  | first h =>
    cases h with
    | literal h => exact ⟨rfl, '*', Cursor.passes_of_strip? h, .inl (by decide)⟩
  | second h =>
  cases h with
  | first h =>
    cases h with
    | literal h => exact ⟨rfl, '/', Cursor.passes_of_strip? h, .inr rfl⟩
  | second h =>
    cases h with
    | literal h => exact ⟨rfl, '%', Cursor.passes_of_strip? h, .inl (by decide)⟩

/-- The operator of a division begins no comment: none stands here, and the operand
behind it does not begin with a star. -/
theorem startsNothing_of_division {q : Pattern Rule} {more : List (ParseTree Rule)}
    (hc : comment? c = none) (hk : c.Passes ['/'] d)
    (h : Derives grammar true q ⟨.none, .free⟩ (skipTrivia d) more e)
    (ha : q.avoids (grammar.avoids commentChars 6) commentChars true) :
    StartsNothing '/' d.rest.head? := by
  refine ⟨by decide, by decide, by decide, ?_⟩
  rintro ⟨-, hslash | hstar⟩
  · obtain ⟨rest, hr⟩ := List.head?_eq_some_iff.1 hslash
    have htext : c.rest = '/' :: '/' :: rest := by rw [hk.1, hr]; rfl
    unfold comment? at hc
    rw [htext] at hc
    cases hc
  · obtain ⟨rest, hr⟩ := List.head?_eq_some_iff.1 hstar
    have hstay : skipTrivia d = d := by
      obtain ⟨o, r⟩ := d
      cases hr
      rfl
    rw [hstay] at h
    obtain ⟨x, xs, hx, hne, -⟩ := h.exists_first commentChars 6 ha
    rw [hr] at hx
    cases hx
    exact hne (by decide)

/-- The blocks of a sequence, for each of its parts. -/
theorem blocks_of_append {sep sep2 : Bool} {p q : Pattern Rule} {mode mode2 : Mode} {f : Cursor}
    {nodes more : List (ParseTree Rule)} (h1 : Derives grammar sep p mode c nodes d)
    (hde : d.Reaches e) (h2 : Derives grammar sep2 q mode2 e more f)
    (hb : ∀ o, c.offset ≤ o → o < f.offset → (o ∈ blocks ↔ o ∈ blockStarts (nodes ++ more))) :
    (∀ o, c.offset ≤ o → o < d.offset → (o ∈ blocks ↔ o ∈ blockStarts nodes)) ∧
      ∀ o, e.offset ≤ o → o < f.offset → (o ∈ blocks ↔ o ∈ blockStarts more) := by
  have hcd := h1.reaches.offset_le
  have hde := hde.offset_le
  have hef := h2.reaches.offset_le
  constructor
  · intro o hco hod
    rw [hb o hco (by omega), blockStarts_append, List.mem_append]
    constructor
    · rintro (ho | ho)
      · exact ho
      · have := blockStarts_range h2 o ho
        omega
    · exact .inl
  · intro o heo hof
    rw [hb o (by omega) hof, blockStarts_append, List.mem_append]
    constructor
    · rintro (ho | ho)
      · have := blockStarts_range h1 o ho
        omega
      · exact ho
    · exact .inr

/-- Behind a part of a text, the scanner is in step and has opened its blocks. -/
def Follows (text : List Char) (nodes : List (ParseTree Rule)) (d : Cursor) (depth : Nat) : Prop :=
  (∃ t, InStep text t d depth) ∧ ∀ o ∈ blockStarts nodes, OpensShell text o

theorem InStep.follows {t : Scan} {depth : Nat} {nodes : List (ParseTree Rule)}
    (h : InStep text t d depth) (hn : blockStarts nodes = []) : Follows text nodes d depth := by
  refine ⟨⟨t, h⟩, fun o ho => ?_⟩
  rw [hn] at ho
  cases ho

theorem Follows.append {nodes more : List (ParseTree Rule)} {n m : Nat} (h : Follows text nodes d n)
    (h2 : Follows text more e m) : Follows text (nodes ++ more) e m := by
  refine ⟨h2.1, fun o ho => ?_⟩
  rw [blockStarts_append] at ho
  rcases List.mem_append.1 ho with ho | ho
  · exact h.2 o ho
  · exact h2.2 o ho

/-- Behind trivia the next part is followed from where the scanner is then. -/
theorem Follows.behind_trivia {nodes more : List (ParseTree Rule)} {n m : Nat} (h : Follows text nodes d n)
    (h2 : ∀ u, InStep text u (skipTrivia d) n → Follows text more e m) : Follows text (nodes ++ more) e m := by
  obtain ⟨t, ht⟩ := h.1
  obtain ⟨u, hu⟩ := ht.trivia
  exact h.append (h2 u hu)

/-- A rule that is a string, a block or a token is followed.  The rules that have
parts of their own are left to `hparts`. -/
theorem follows_of_rule (hw : WordsFit text blocks) {r : Rule} {nodes : List (ParseTree Rule)}
    (h : Derives grammar (definition r).kind.separates (definition r).pattern
      ⟨.none, (definition r).kind.inner .free⟩ c nodes d)
    (hr : standsAlone r) {n : Nat} (hs : InStep text s c n)
    (hb : ∀ o, c.offset ≤ o → o < d.offset →
      (o ∈ blocks ↔ o ∈ blockStarts (keepNodes (definition r).kind r ⟨.none, .free⟩ c d.offset nodes)))
    (hparts : isBalanced r → r ≠ .execBlock → Follows text nodes d n) :
    Follows text (keepNodes (definition r).kind r ⟨.none, .free⟩ c d.offset nodes) d n := by
  have hrule : Derives grammar true (.rule r) ⟨.none, .free⟩ c _ d := .rule h
  rcases rule_cases r hr with rfl | rfl | htoken | hbal
  · obtain ⟨k, a, stop, hk, hq, hnodes⟩ := quotedTail_of_string (fun _ => rfl) hrule
    obtain ⟨t, ht⟩ := hs.string hk hq
    refine ht.follows ?_
    have hnodes : keepNodes (definition (.lexeme .string)).kind (.lexeme .string) ⟨.none, .free⟩ c
        d.offset nodes = _ := hnodes
    rw [hnodes]
    rfl
  · obtain ⟨k, inner, hk, ht, -, hnodes⟩ := exists_of_execBlock hrule
    have hnodes : keepNodes (definition .execBlock).kind .execBlock ⟨.none, .free⟩ c d.offset nodes =
        _ := hnodes
    rw [hnodes] at hb ⊢
    have hmem : c.offset ∈ blocks := (hb _ (Nat.le_refl _) hk.offset_lt).2 List.mem_cons_self
    obtain ⟨hstep, hopen⟩ := hs.block hw hk ht hmem
    refine ⟨hstep, fun o ho => ?_⟩
    rw [List.mem_singleton.1 ho]
    exact hopen
  · have hkind : (definition r).kind = .token ∧
        (definition r).pattern.reads (grammar.reads isTokenClass isTokenChar 2) isTokenClass
          isTokenChar := by
      unfold isPlainToken Grammar.reads at htoken
      obtain ⟨h1, h2⟩ := Bool.and_eq_true_iff.1 htoken
      exact ⟨of_decide_eq_true h1, h2⟩
    obtain ⟨hkind, hreads⟩ := hkind
    have hexec : r ≠ .execBlock := by
      rintro rfl
      cases hkind
    rw [blockStarts_keepNodes _ _ _ _ _ _ hexec] at hb
    rw [hkind] at h
    obtain ⟨hnone, k, hk, hok⟩ := h.reads _ _ isTokenChar_of_contains (by decide) 2 hreads
    obtain rfl := hnone rfl
    obtain ⟨t, ht⟩ := InStep.token hw k hs hk hok fun o hco hod ho => by
      have := (hb o hco hod).1 ho
      cases this
    refine ht.follows ?_
    rw [blockStarts_keepNodes _ _ _ _ _ _ hexec]
    rfl
  · have hexec : r ≠ .execBlock := by
      rintro rfl
      cases hbal
    obtain ⟨hstep, hopen⟩ := hparts hbal hexec
    refine ⟨hstep, fun o ho => ?_⟩
    rw [blockStarts_keepNodes _ _ _ _ _ _ hexec] at ho
    exact hopen o ho

/-- The operator of a product is followed, and then its operand may come. -/
theorem follows_of_mulOp {sep : Bool} {q : Pattern Rule} {nodes more : List (ParseTree Rule)} {n : Nat}
    (hc : comment? c = none) (h1 : Derives grammar sep (.rule .mulOp) ⟨.none, .free⟩ c nodes d)
    (h2 : Derives grammar true q ⟨.none, .free⟩ (skipTrivia d) more e)
    (ha : q.avoids (grammar.avoids commentChars 6) commentChars true) (hs : InStep text s c n) :
    Follows text nodes d n := by
  obtain ⟨hnone, x, hk, hx⟩ := exists_of_mulOp h1
  have hstep : ∃ t, InStep text t d n := by
    rcases hx with hx | rfl
    · exact hs.mark hk hx
    · exact hs.other hk rfl rfl (startsNothing_of_division hc hk h2 ha) rfl (by simp)
  obtain ⟨t, ht⟩ := hstep
  exact ht.follows hnone

/-- The scanner stays in step over a derivation between parts of which trivia may
stand, from wherever no comment starts.  The braces open inside the rule are
counted by `depthAfter`, those around it by `j`. -/
theorem InStep.derives (hw : WordsFit text blocks) {sep : Bool} {p : Pattern Rule} {mode : Mode}
    {nodes : List (ParseTree Rule)} (h : Derives grammar sep p mode c nodes d) (hsep : sep = true)
    (hm : mode = ⟨.none, .free⟩) (hc : comment? c = none)
    (hb : ∀ o, c.offset ≤ o → o < d.offset → (o ∈ blocks ↔ o ∈ blockStarts nodes)) {n m j : Nat}
    (hd : depthAfter p n = some m) (hs : InStep text s c (n + j)) : Follows text nodes d (m + j) := by
  induction h generalizing s n m j with
  | literal h =>
    obtain ⟨t, ht⟩ := hs.literal _ (Cursor.passes_of_strip? h) hd
    exact ht.follows rfl
  | oneOf => cases hd
  | @rule sep r mode c d nodes h ih =>
    subst hm
    unfold depthAfter at hd
    split at hd
    · next hr =>
      cases hd
      obtain ⟨halone, hmin⟩ : standsAlone r = true ∧ minDepth r ≤ n := by simpa using hr
      refine follows_of_rule hw h halone hs hb fun hbal hexec => ?_
      unfold isBalanced at hbal
      obtain ⟨hkind, hbal⟩ := Bool.and_eq_true_iff.1 hbal
      have hkind : (definition r).kind = .spaced ∨ (definition r).kind = .silent := by
        simpa using hkind
      have hb2 : ∀ o, c.offset ≤ o → o < d.offset → (o ∈ blocks ↔ o ∈ blockStarts nodes) := by
        intro o hco hod
        rw [hb o hco hod, blockStarts_keepNodes _ _ _ _ _ _ hexec]
      have hj : n + j = minDepth r + (n - minDepth r + j) := by omega
      rw [hj] at hs ⊢
      refine ih ?_ ?_ hc hb2 (of_decide_eq_true hbal) hs
      · rcases hkind with hk | hk <;> (show (definition r).kind.separates = true; rw [hk]; rfl)
      · rcases hkind with hk | hk <;> (show Mode.mk _ ((definition r).kind.inner _) = _; rw [hk]; rfl)
    · cases hd
  | @andThen sep p q mode c d e nodes more h1 h2 ih1 ih2 =>
    subst hsep hm
    obtain ⟨hb1, hb2⟩ := blocks_of_append h1 (reaches_gap _ _ d) h2 hb
    have hc2 : comment? (gap true ⟨.none, .free⟩ d) = none := comment?_skipTrivia d
    -- the second part, from where the scanner has followed the first
    have second : ∀ k, Follows text nodes d (k + j) → depthAfter q k = some m →
        Follows text (nodes ++ more) e (m + j) := by
      intro k hfirst hq
      exact hfirst.behind_trivia fun _ hu => ih2 rfl rfl hc2 hb2 hq hu
    unfold depthAfter at hd
    split at hd
    · next hp =>
      obtain rfl := eq_of_isMulOp hp
      split at hd
      · next ha => exact second n (follows_of_mulOp hc h1 h2 ha hs) hd
      · cases hd
    · obtain ⟨k, hp, hq⟩ := Option.bind_eq_some_iff.1 hd
      exact second k (ih1 rfl rfl hc hb1 hp hs) hq
  | first _ ih =>
    unfold depthAfter at hd
    split at hd
    · exact ih hsep hm hc hb hd hs
    · cases hd
  | second _ ih =>
    unfold depthAfter at hd
    split at hd
    · next heq => exact ih hsep hm hc hb (heq ▸ hd) hs
    · cases hd
  | none =>
    unfold depthAfter at hd
    split at hd
    · cases hd; exact hs.follows rfl
    · cases hd
  | once _ ih =>
    unfold depthAfter at hd
    split at hd
    · next hp => cases hd; exact ih hsep hm hc hb hp hs
    · cases hd
  | @again sep p mode c d e nodes more h1 h2 ih1 ih2 =>
    have hmany := hd
    unfold depthAfter at hd
    split at hd
    · next hp =>
      cases hd
      subst hsep hm
      obtain ⟨hb1, hb2⟩ := blocks_of_append h1 (reaches_gap _ _ d) h2 hb
      have hc2 : comment? (gap true ⟨.none, .free⟩ d) = none := comment?_skipTrivia d
      exact (ih1 rfl rfl hc hb1 hmany hs).behind_trivia fun _ hu => ih2 rfl rfl hc2 hb2 hp hu
    · cases hd
  | without =>
    unfold depthAfter at hd
    split at hd
    · cases hd; exact hs.follows rfl
    · cases hd
  | «with» _ ih =>
    unfold depthAfter at hd
    split at hd
    · next hp => cases hd; exact ih hsep hm hc hb hp hs
    · cases hd
  | notHere => cases hd; exact hs.follows rfl
  | textStart => cases hd; exact hs.follows rfl
  | textEnd => cases hd; exact hs.follows rfl

end

end ServiceLang.MainGrammar
