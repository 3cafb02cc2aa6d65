import ServiceLang.Grammar.Lexeme
import ServiceLang.Proofs.Decimal.Layout
import ServiceLang.Proofs.Peg.Node
import ServiceLang.Proofs.Peg.Run
import ServiceLang.Proofs.Peg.Token
import ServiceLang.Proofs.Source.Chars
import ServiceLang.Proofs.Text.Quoted

/-!
Which texts match as lexemes.

A name, a numeral or a word matches where its characters stand and end: the next
character must not go on with it.  That names are not reserved, and that the words of
operators and truth values are, keeps them apart (`IsName`, `not_derives_word`).
-/

namespace ServiceLang

open Peg

variable {R : Type} {g : Grammar R}

/-! ## Runs of characters -/

section Runs

variable {call : R → Mode → Cursor → Attempts R → Peg.Outcome R} {sep : Bool} {p : Pattern R}
  {mode : Mode} {c d : Cursor} {k : List Char} {ok : Char → Bool}

/-- The text ahead does not begin with such a character. -/
def StopsAt (ok : Char → Bool) (c : Cursor) : Prop := ∀ x, c.rest.head? = some x → ok x = false

theorem StopsAt.of_rest {ok : Char → Bool} {c : Cursor} {x : Char} {xs : List Char} (h : c.rest = x :: xs)
    (hx : ok x = false) : StopsAt ok c := by
  intro y hy
  rw [h] at hy
  exact Option.some.inj hy ▸ hx

theorem StopsAt.head?_any {ok : Char → Bool} {c : Cursor} (h : StopsAt ok c) :
    c.rest.head?.any ok = false := by
  unfold StopsAt at h
  cases hr : c.rest.head? with
  | none => rfl
  | some x => exact h x hr

/-- The run of such characters that stands here, perhaps an empty one. -/
theorem exists_run (ok : Char → Bool) (c : Cursor) :
    ∃ k d, c.Passes k d ∧ (∀ x ∈ k, ok x) ∧ StopsAt ok d := by
  refine ⟨c.rest.takeWhile ok, c.skipWhile ok, ⟨List.takeWhile_append_dropWhile.symm, rfl⟩, ?_, ?_⟩
  · exact List.all_eq_true.1 List.all_takeWhile
  · intro x hx
    have hnot := List.head?_dropWhile_not ok c.rest
    rw [show (c.rest.dropWhile ok).head? = some x from hx] at hnot
    exact hnot

/-- The pattern reads one character of a class, and nothing else. -/
structure ReadsOne (call : R → Mode → Cursor → Attempts R → Peg.Outcome R) (sep : Bool) (p : Pattern R)
    (mode : Mode) (ok : Char → Bool) : Prop where
  one : ∀ {c d : Cursor} {x : Char}, c.Passes [x] d → ok x → Matches call sep p mode c [] d
  stop : ∀ {c : Cursor}, StopsAt ok c → Misses call sep p mode c

theorem matches_oneOf_passes {cls : CharClass} {x : Char} (h : c.Passes [x] d)
    (hx : cls.contains x) : Matches call sep (.oneOf cls) mode c [] d := by
  obtain ⟨offset, rest⟩ := d
  obtain ⟨hr, ho⟩ := h
  obtain rfl : offset = c.offset + x.utf8Size := by simpa using ho
  exact .oneOf hr hx

theorem ReadsOne.oneOf (cls : CharClass) : ReadsOne call sep (.oneOf cls) mode cls.contains where
  one h hx := matches_oneOf_passes h hx
  stop h := .oneOf h

theorem ReadsOne.wordChar : ReadsOne call sep Pattern.wordChar mode isWordChar where
  one {c d x} h hx := by
    cases halnum : x.isAlphanum with
    | true => exact .first (matches_oneOf_passes h halnum)
    | false =>
      obtain rfl : x = '_' := by simpa [isWordChar, halnum] using hx
      refine .second (.oneOf fun y hy => ?_) (.literal h)
      rw [h.1] at hy
      obtain rfl := Option.some.inj hy
      exact halnum
  stop {c} h := by
    refine .orElse (.oneOf fun x hx => ?_) (.literal fun d hd => ?_)
    · have := h x hx
      simp only [isWordChar, Bool.or_eq_false_iff] at this
      exact this.1
    · have := h '_' (by rw [hd.1]; rfl)
      cases this

theorem matches_wordStart {x : Char} (h : c.Passes [x] d) (hx : isWordStart x) :
    Matches call sep Pattern.wordStart mode c [] d := by
  cases halpha : x.isAlpha with
  | true => exact .first (matches_oneOf_passes h halpha)
  | false =>
    obtain rfl : x = '_' := by simpa [isWordStart, halpha] using hx
    refine .second (.oneOf fun y hy => ?_) (.literal h)
    rw [h.1] at hy
    obtain rfl := Option.some.inj hy
    exact halpha

/-- Without trivia, rounds go on to the end of a run. -/
theorem ReadsOne.rounds (hp : ReadsOne call sep p mode ok) (hm : mode.spacing ≠ .free)
    (h : c.Passes k d) (hk : ∀ x ∈ k, ok x) (hd : StopsAt ok d) : Rounds call sep p mode c [] d := by
  induction k generalizing c with
  | nil =>
    obtain rfl := h.eq_of_nil
    refine .done ?_
    rw [gap_of_not_free sep mode c hm]
    exact hp.stop hd
  | cons x k ih =>
    obtain ⟨e, hx, hrest⟩ := h.exists_cons
    have hround := hp.one hx (hk x List.mem_cons_self)
    rw [← gap_of_not_free sep mode c hm] at hround
    refine .round (a := []) hround ?_ (ih hrest fun y hy => hk y (List.mem_cons_of_mem x hy))
    rw [hx.1]
    exact Nat.lt_succ_self _

theorem ReadsOne.many (hp : ReadsOne call sep p mode ok) (hm : mode.spacing ≠ .free)
    (h : c.Passes k d) (hk : ∀ x ∈ k, ok x) (hd : StopsAt ok d) :
    Matches call sep (.many p) mode c [] d :=
  (hp.rounds hm h hk hd).matches_many (gap_of_not_free sep mode c hm)

/-- A character that does not stand here is not matched. -/
theorem misses_character {text : String} {x y : Char} (htext : text.toList = [y]) (h : c.Passes (x :: k) d)
    (hne : x ≠ y) : Misses call sep (.literal text) mode c := by
  refine .literal fun e he => hne ?_
  rw [htext] at he
  exact (List.cons.inj (h.1.symm.trans he.1)).1

/-- Without trivia, the parts of a sequence match one directly behind the other. -/
theorem Peg.Matches.tight {q : Pattern R} {e : Cursor} (hm : mode.spacing ≠ .free)
    (h : Matches call sep p mode c [] d) (h2 : Matches call sep q mode d [] e) :
    Matches call sep (.andThen p q) mode c [] e := by
  rw [← gap_of_not_free sep mode d hm] at h2
  exact h.andThen (a := []) h2

theorem ReadsOne.some (hp : ReadsOne call sep p mode ok) (hm : mode.spacing ≠ .free)
    (h : c.Passes k d) (hne : k ≠ []) (hk : ∀ x ∈ k, ok x) (hd : StopsAt ok d) :
    Matches call sep (.some p) mode c [] d := by
  obtain ⟨x, k, rfl⟩ := List.exists_cons_of_ne_nil hne
  obtain ⟨e, hx, hrest⟩ := h.exists_cons
  exact (hp.one hx (hk x List.mem_cons_self)).tight hm
    (hp.many hm hrest (fun y hy => hk y (List.mem_cons_of_mem x hy)) hd)

theorem matches_word {text : String} (hm : mode.spacing ≠ .free) (h : c.Passes text.toList d)
    (hd : StopsAt isWordChar d) : Matches call sep (Pattern.word text) mode c [] d :=
  (Matches.literal h).tight hm (.notHere (ReadsOne.wordChar.stop hd))

theorem matches_name (hm : mode.spacing ≠ .free) (h : c.Passes k d)
    (hstart : k.head?.any isWordStart) (hk : ∀ x ∈ k, isWordChar x) (hd : StopsAt isWordChar d) :
    Matches call sep Pattern.name mode c [] d := by
  cases k with
  | nil => cases hstart
  | cons x k =>
    obtain ⟨e, hx, hrest⟩ := h.exists_cons
    exact (matches_wordStart hx hstart).tight hm
      (ReadsOne.wordChar.many hm hrest (fun y hy => hk y (List.mem_cons_of_mem x hy)) hd)

end Runs

/-! ## Words and names -/

theorem stopsAt_of_fails {c : Cursor} {sep : Bool} (h : Fails (R := R) sep Pattern.wordChar c) :
    StopsAt isWordChar c := by
  intro x hx
  cases hw : isWordChar x with
  | false => rfl
  | true =>
    obtain ⟨call, mode, log, log', h⟩ := h
    obtain ⟨xs, hr⟩ := List.head?_eq_some_iff.1 hx
    have hpass : c.Passes [x] ⟨c.offset + x.utf8Size, xs⟩ := ⟨hr, by simp⟩
    have hword : ReadsOne call sep (Pattern.wordChar (R := R)) mode isWordChar := .wordChar
    obtain ⟨log2, h2⟩ := hword.one hpass hw log
    rw [h] at h2
    cases h2

/-- Names begin with a letter or an underscore. -/
theorem Peg.Derives.head_of_wordStart {sep : Bool} {mode : Mode} {c d : Cursor}
    {nodes : List (ParseTree R)} (h : Derives g sep Pattern.wordStart mode c nodes d) :
    ∃ x, c.rest.head? = some x ∧ isWordStart x := by
  cases h with
  | first h =>
    cases h with
    | oneOf h =>
      obtain ⟨x, hx, halpha, -⟩ := (Cursor.next?_eq_some_iff _ c d).1 h
      have hletter : x.isAlpha := halpha
      exact ⟨x, by rw [hx]; rfl, by simp [isWordStart, hletter]⟩
  | second h =>
    cases h with
    | literal h => exact ⟨'_', by rw [(Cursor.passes_of_strip? h).1]; rfl, rfl⟩

theorem word_unique {c d e : Cursor} {k l : List Char} (hk : c.Passes k d) (hl : c.Passes l e)
    (hkw : ∀ x ∈ k, isWordChar x) (hlw : ∀ x ∈ l, isWordChar x) (hd : StopsAt isWordChar d)
    (he : StopsAt isWordChar e) : k = l := by
  have take : ∀ {m : List Char} {f : Cursor}, c.Passes m f → (∀ x ∈ m, isWordChar x) →
      StopsAt isWordChar f → c.rest.takeWhile isWordChar = m := by
    intro m f hm hmw hf
    rw [hm.1, List.takeWhile_append_of_pos hmw]
    cases hr : f.rest with
    | nil => simp
    | cons x xs => simp [hf x (by rw [hr]; rfl)]
  rw [← take hk hkw hd, take hl hlw he]

/-- Where a word ends no other is derived. -/
theorem not_derives_word {sep : Bool} {mode : Mode} (texts : List String)
    (hm : mode.spacing ≠ .free) {p : Pattern R} {c d : Cursor} {k : List Char}
    (hp : ∀ e nodes, Derives g sep p mode c nodes e → ∃ text ∈ texts, c.Passes text.toList e)
    (htexts : ∀ text ∈ texts, ∀ x ∈ text.toList, isWordChar x) (h : c.Passes k d)
    (hk : ∀ x ∈ k, isWordChar x) (hd : StopsAt isWordChar d) (hne : String.ofList k ∉ texts)
    (nodes : List (ParseTree R)) (e : Cursor) :
    ¬Derives g sep (.andThen p (.notHere Pattern.wordChar)) mode c nodes e := by
  intro hderives
  obtain ⟨_, f, _, -, h1, h2⟩ := hderives.of_tight hm
  obtain ⟨text, hmem, htext⟩ := hp _ _ h1
  cases h2 with
  | notHere hf =>
    obtain rfl := word_unique h htext hk (htexts text hmem) hd (stopsAt_of_fails hf)
    rw [String.ofList_toList] at hne
    exact hne hmem

theorem exists_passes_of_choice {sep : Bool} {mode : Mode} (texts : List String) {c d : Cursor}
    {nodes : List (ParseTree R)}
    (h : Derives g sep (.choice (texts.map .literal)) mode c nodes d) (hne : texts ≠ []) :
    ∃ text ∈ texts, c.Passes text.toList d := by
  induction texts with
  | nil => exact absurd rfl hne
  | cons text texts ih =>
    have literal : ∀ ns, Derives g sep (.literal text) mode c ns d →
        ∃ t ∈ text :: texts, c.Passes t.toList d := by
      intro ns h1
      cases h1 with
      | literal h1 => exact ⟨text, List.mem_cons_self, Cursor.passes_of_strip? h1⟩
    cases texts with
    | nil => exact literal _ h
    | cons text2 texts =>
      cases h with
      | first h => exact literal _ h
      | second h =>
        obtain ⟨t, ht, hpass⟩ := ih h (by simp)
        exact ⟨t, List.mem_cons_of_mem text ht, hpass⟩

/-- A name that is not reserved. -/
structure IsName (k : List Char) : Prop where
  start : k.head?.any isWordStart
  chars : ∀ x ∈ k, isWordChar x
  unreserved : String.ofList k ∉ reservedWords

theorem IsName.ne_nil {k : List Char} (hk : IsName k) : k ≠ [] := by
  rintro rfl
  cases hk.start

/-- An identifier that is not reserved. -/
def isName (name : String) : Bool :=
  name.toList.head?.any isWordStart && name.toList.all isWordChar && !reservedWords.contains name

theorem isName_iff (name : String) : isName name ↔ IsName name.toList := by
  constructor
  · intro h
    simp only [isName, Bool.and_eq_true, Bool.not_eq_true', List.all_eq_true] at h
    obtain ⟨⟨hstart, hchars⟩, hres⟩ := h
    refine ⟨hstart, hchars, ?_⟩
    rw [String.ofList_toList]
    simpa using hres
  · rintro ⟨hstart, hchars, hres⟩
    rw [String.ofList_toList] at hres
    simp only [isName, Bool.and_eq_true, Bool.not_eq_true', List.all_eq_true]
    exact ⟨⟨hstart, hchars⟩, by simpa using hres⟩

/-! ## Lexemes -/

section Lexemes

variable {lexeme : Lexeme → R} {sep : Bool} {fuel : Nat} {c d : Cursor} {k : List Char}

/-- The text of a node that has been left for these characters. -/
theorem text_node {r : R} {inner : List (ParseTree R)} (h : c.Passes k d) :
    (ParseTree.node r c d.offset inner).text = k := by
  show takeBytes (d.offset - c.offset) c.rest = k
  rw [h.1, h.2, Nat.add_sub_cancel_left, takeBytes_append]

/-- A token inside an unspaced rule matches as its pattern does, and leaves a node. -/
theorem Peg.Matches.tightToken {r : R} {nodes : List (ParseTree R)} (hk : (g.definition r).kind = .token)
    (h : Matches (matchRule g fuel) false (g.definition r).pattern ⟨.none, .sealed⟩ c nodes d) :
    Matches (matchRule g (fuel + 1)) sep (.rule r) ⟨.none, .tight⟩ c
      [.node r c d.offset nodes] d := by
  have hrule : Matches (matchRule g (fuel + 1)) sep (.rule r) ⟨.none, .tight⟩ c
      (keepNodes (g.definition r).kind r ⟨.none, .tight⟩ c d.offset nodes) d := by
    refine .rule ?_
    rw [hk]
    exact h
  rwa [hk] at hrule

/-- A token among spaced rules matches as its pattern does, and leaves a node. -/
theorem Peg.Matches.token {r : R} {nodes : List (ParseTree R)} (hk : (g.definition r).kind = .token)
    (h : Matches (matchRule g fuel) false (g.definition r).pattern ⟨.none, .sealed⟩ c nodes d) :
    Matches (matchRule g (fuel + 1)) sep (.rule r) ⟨.none, .free⟩ c
      [.node r c d.offset nodes] d := by
  have hrule : Matches (matchRule g (fuel + 1)) sep (.rule r) ⟨.none, .free⟩ c
      (keepNodes (g.definition r).kind r ⟨.none, .free⟩ c d.offset nodes) d := by
    refine .rule ?_
    rw [hk]
    exact h
  rwa [hk] at hrule

/-- A spaced rule matches as its pattern does, and leaves a node. -/
theorem Peg.Matches.spaced {r : R} {nodes : List (ParseTree R)} (hk : (g.definition r).kind = .spaced)
    (h : Matches (matchRule g fuel) true (g.definition r).pattern ⟨.none, .free⟩ c nodes d) :
    Matches (matchRule g (fuel + 1)) true (.rule r) ⟨.none, .free⟩ c
      [.node r c d.offset nodes] d := by
  have hrule : Matches (matchRule g (fuel + 1)) true (.rule r) ⟨.none, .free⟩ c
      (keepNodes (g.definition r).kind r ⟨.none, .free⟩ c d.offset nodes) d := by
    refine .rule ?_
    rw [hk]
    exact h
  rwa [hk] at hrule

/-- Between the parts of a sequence trivia is skipped. -/
theorem Peg.Matches.gapped {call : R → Mode → Cursor → Attempts R → Peg.Outcome R} {p q : Pattern R}
    {look : Lookahead} {e f : Cursor} {a b : List (ParseTree R)} (h : Matches call true p ⟨look, .free⟩ c a d)
    (hd : skipTrivia d = e) (h2 : Matches call true q ⟨look, .free⟩ e b f) :
    Matches call true (.andThen p q) ⟨look, .free⟩ c (a ++ b) f := by
  refine h.andThen ?_
  show Matches call true q ⟨look, .free⟩ (skipTrivia d) b f
  rwa [hd]

theorem matches_wordRule {r : R} {text : String} (hr : g.definition r = ⟨.token, Pattern.word text⟩)
    (h : c.Passes text.toList d) (hd : d.rest.head? = some ' ') :
    Matches (matchRule g (fuel + 1)) sep (.rule r) ⟨.none, .free⟩ c [.node r c d.offset []] d := by
  refine .token (by rw [hr]) ?_
  rw [hr]
  refine matches_word nofun h fun x hx => ?_
  rw [hd] at hx
  exact Option.some.inj hx ▸ rfl

variable (hg : ∀ l, g.definition (lexeme l) = l.definition lexeme)
include hg

/-- The pattern of identifiers reads a name. -/
theorem matches_identPattern {mode : Mode} (hm : mode.spacing ≠ .free) (hk : IsName k)
    (h : c.Passes k d) (hd : StopsAt isWordChar d) :
    Matches (matchRule g fuel) sep (Lexeme.ident.definition lexeme).pattern mode c [] d := by
  have words : ∀ text ∈ reservedWords, ∀ x ∈ text.toList, isWordChar x := by decide
  refine Matches.tight hm (.notHere ?_) (matches_name hm h hk.start hk.chars hd)
  refine misses_of_not_derives fun nodes e hderives => ?_
  obtain ⟨inner, hderives, -⟩ := hderives.of_rule
  rw [hg] at hderives
  exact not_derives_word reservedWords (show Spacing.sealed ≠ .free by decide)
    (fun e ns h1 => exists_passes_of_choice reservedWords h1 (by decide)) words h hk.chars hd hk.unreserved _ _
    hderives

theorem matches_ident (hk : IsName k) (h : c.Passes k d) (hd : StopsAt isWordChar d) :
    Matches (matchRule g (fuel + 1)) sep (.rule (lexeme .ident)) ⟨.none, .free⟩ c
      [.node (lexeme .ident) c d.offset []] d := by
  refine .token (by rw [hg]; rfl) ?_
  rw [hg]
  exact matches_identPattern hg (by decide) hk h hd

/-- A name is no truth value. -/
theorem misses_boolLit_of_name (hk : IsName k) (h : c.Passes k d) (hd : StopsAt isWordChar d) :
    Misses (matchRule g fuel) sep (.rule (lexeme .boolLit)) ⟨.none, .free⟩ c := by
  have sealed : Spacing.sealed ≠ .free := by decide
  have words : ∀ text ∈ ["true", "false"], ∀ x ∈ text.toList, isWordChar x := by decide
  refine misses_of_not_derives fun nodes e hderives => ?_
  obtain ⟨inner, hderives, -⟩ := hderives.of_rule
  rw [hg] at hderives
  refine not_derives_word ["true", "false"] sealed
    (fun e ns h1 => exists_passes_of_choice ["true", "false"] h1 (by decide)) words h
    hk.chars hd ?_ _ _ hderives
  have reserved : ∀ text ∈ ["true", "false"], text ∈ reservedWords := by decide
  exact fun hmem => hk.unreserved (reserved _ hmem)

theorem matches_boolLit {b : Bool} (h : c.Passes (if b then "true" else "false").toList d)
    (hd : StopsAt isWordChar d) :
    Matches (matchRule g (fuel + 1)) sep (.rule (lexeme .boolLit)) ⟨.none, .free⟩ c
      [.node (lexeme .boolLit) c d.offset []] d := by
  have sealed : Spacing.sealed ≠ .free := by decide
  refine .token (by rw [hg]; rfl) ?_
  rw [hg]
  refine Matches.tight sealed (d := d) ?_ (.notHere (ReadsOne.wordChar.stop hd))
  cases b with
  | true => exact .first (.literal h)
  | false =>
    refine .second (.literal fun e he => ?_) (.literal h)
    have := h.1.symm.trans he.1
    cases this

/-- A numeral matches where its digits end, unless a point follows them. -/
theorem matches_number (hk : Decimal.Numeral k) (h : c.Passes k d)
    (hd : StopsAt (fun x => x.isDigit || x = '.') d) :
    Matches (matchRule g (fuel + 1)) sep (.rule (lexeme .number)) ⟨.none, .free⟩ c
      [.node (lexeme .number) c d.offset []] d := by
  have sealed : Spacing.sealed ≠ .free := by decide
  have digits : StopsAt Char.isDigit d := fun x hx => by
    have := hd x hx
    simp only [Bool.or_eq_false_iff] at this
    exact this.1
  refine .token (by rw [hg]; rfl) ?_
  rw [hg]
  cases hk with
  | whole hds =>
    refine Matches.tight sealed ((ReadsOne.oneOf .digit).some sealed h hds.1 hds.2 digits) ?_
    refine .without (.left (.literal fun e he => ?_))
    have := hd '.' (by rw [he.1]; rfl)
    cases this
  | @fraction ds fs hds hfs =>
    have point : c.Passes ds ⟨c.offset + byteLength ds, '.' :: fs ++ d.rest⟩ :=
      ⟨by rw [h.1, List.append_assoc], rfl⟩
    have behind : Cursor.Passes ⟨c.offset + byteLength ds, '.' :: fs ++ d.rest⟩ ('.' :: fs) d :=
      ⟨rfl, by rw [h.2, byteLength_append, Nat.add_assoc]⟩
    obtain ⟨e, hpoint, hfraction⟩ := behind.exists_cons
    refine Matches.tight sealed ((ReadsOne.oneOf .digit).some sealed point hds.1 hds.2 ?_) ?_
    · intro x hx
      obtain rfl := Option.some.inj hx
      rfl
    · exact .with (Matches.tight sealed (.literal hpoint)
        ((ReadsOne.oneOf .digit).some sealed hfraction hfs.1 hfs.2 digits))

/-- One round of the text of a string. -/
def stringRound : Pattern R :=
  .orElse (.andThen (.literal "\\") (.oneOf .any))
    (.andThen (.notHere (.orElse (.literal "\"") (.literal "\\"))) (.oneOf .any))

omit hg in
/-- The text of a string is read up to the quote that closes it.  The recursion takes a
backslash together with the character behind it. -/
theorem exists_rounds_of_quotedTail {call : R → Mode → Cursor → Attempts R → Peg.Outcome R}
    {look : Lookahead} :
    ∀ (tail : List Char) {c d : Cursor}, Region.QuotedTail false tail → c.Passes tail d →
      ∃ body e, tail = body ++ ['"'] ∧ c.Passes body e ∧ e.Passes ['"'] d ∧
        Rounds call false stringRound ⟨look, .sealed⟩ c [] e
  | _, c, d, .close, hc => by
    have quote : ∀ mode, Matches call false (.literal "\"") mode c [] d := fun _ => .literal hc
    exact ⟨[], c, rfl, .nil c, hc,
      .done (.orElse (.left (misses_character rfl hc (by decide))) (.left (.notHere (.first (quote _)))))⟩
  | _ :: x :: tail, c, d, .escape (.escaped h), hc => by
    obtain ⟨a, hslash, hc⟩ := hc.exists_cons
    obtain ⟨b, hx, hc⟩ := hc.exists_cons
    obtain ⟨body, e, rfl, hbody, hclose, hrounds⟩ := exists_rounds_of_quotedTail _ h hc
    have pair := hslash.append hx
    have round : Matches call false stringRound ⟨look, .sealed⟩ c [] b :=
      .first (.tight nofun (.literal hslash) (matches_oneOf_passes hx rfl))
    exact ⟨'\\' :: x :: body, e, rfl, pair.append hbody, hclose,
      .round round (pair.length_lt (List.cons_ne_nil _ _)) hrounds⟩
  | x :: tail, c, d, .char hquote hslash h, hc => by
    obtain ⟨a, hx, hc⟩ := hc.exists_cons
    obtain ⟨body, e, rfl, hbody, hclose, hrounds⟩ := exists_rounds_of_quotedTail _ h hc
    have round : Matches call false stringRound ⟨look, .sealed⟩ c [] a :=
      .second (.left (misses_character rfl hx hslash)) (.tight nofun
        (.notHere (.orElse (misses_character rfl hx hquote) (misses_character rfl hx hslash)))
        (matches_oneOf_passes hx rfl))
    exact ⟨x :: body, e, rfl, hx.append hbody, hclose,
      .round round (hx.length_lt (List.cons_ne_nil _ _)) hrounds⟩

/-- A string literal of the scanner matches as a string, whatever rules it stands in. -/
theorem exists_matches_string {mode : Mode} (hk : Region.QuotedTail false k) (h : c.Passes ('"' :: k) d) :
    ∃ inner, Matches (matchRule g (fuel + 2)) sep (.rule (lexeme .string)) mode c
      (keepNodes .unspaced (lexeme .string) mode c d.offset inner) d := by
  obtain ⟨e, hopen, hrest⟩ := h.exists_cons
  obtain ⟨text, f, -, hbody, hclose, hrounds⟩ := exists_rounds_of_quotedTail k hk hrest
  have body : ∃ nodes, Matches (matchRule g (fuel + 1)) false (.rule (lexeme .stringInner))
      ⟨mode.look, .tight⟩ e nodes f := by
    refine ⟨_, .rule (a := []) ?_⟩
    rw [hg]
    exact hrounds.matches_many rfl
  obtain ⟨nodes, body⟩ := body
  have hrule : Matches (matchRule g (fuel + 2)) sep (.rule (lexeme .string)) mode c
      (keepNodes (g.definition (lexeme .string)).kind (lexeme .string) mode c d.offset
        ([] ++ (nodes ++ []))) d := by
    refine .rule ?_
    rw [hg]
    exact (Matches.literal hopen).andThen (body.andThen (.literal hclose))
  rw [hg] at hrule
  exact ⟨_, hrule⟩

theorem matches_string (hk : Region.QuotedTail false k) (h : c.Passes ('"' :: k) d) :
    ∃ inner, Matches (matchRule g (fuel + 2)) sep (.rule (lexeme .string)) ⟨.none, .free⟩ c
      [.node (lexeme .string) c d.offset inner] d :=
  exists_matches_string hg hk h

end Lexemes

/-! ## Nodes of lexemes -/

/-- All classes but that of all characters are classes of word characters. -/
theorem isWordChar_of_contains (cls : CharClass) {x : Char} (hcls : cls ≠ .any)
    (h : cls.contains x) : isWordChar x := by
  cases cls with
  | any => exact absurd rfl hcls
  | digit =>
    have h : x.isDigit = true := h
    simp [isWordChar, Char.isAlphanum, h]
  | letter =>
    have h : x.isAlpha = true := h
    simp [isWordChar, Char.isAlphanum, h]
  | alphanumeric =>
    have h : x.isAlphanum = true := h
    simp [isWordChar, h]

section Nodes

variable {lexeme : Lexeme → R} {t : ParseTree R}
  (hg : ∀ l, g.definition (lexeme l) = l.definition lexeme)
include hg

/-- The text of a truth value is one of the two words. -/
theorem text_of_boolLit (h : IsLeft g t) (hr : t.rule = lexeme .boolLit) :
    t.text = "true".toList ∨ t.text = "false".toList := by
  have sealed : Spacing.sealed ≠ .free := by decide
  obtain ⟨f, hf, hd⟩ := h.exists_passes
  rw [hr, hg] at hd
  obtain ⟨_, d, _, -, hword, hnot⟩ := hd.of_tight sealed
  cases hnot with
  | notHere =>
  have same {w : String} (hw : t.start.strip? w.toList = some f) : t.text = w.toList :=
    List.append_cancel_right (hf.1.symm.trans (Cursor.passes_of_strip? hw).1)
  cases hword with
  | first hword =>
    cases hword with
    | literal hword => exact .inl (same hword)
  | second hword =>
    cases hword with
    | literal hword => exact .inr (same hword)

theorem text_of_ident (h : IsLeft g t) (hr : t.rule = lexeme .ident) :
    t.text ≠ [] ∧ ∀ x ∈ t.text, isWordChar x := by
  refine ⟨h.text_ne_nil 1 ?_, h.forall_text (· ≠ .any) isWordChar (fun cls x hcls =>
    isWordChar_of_contains cls (of_decide_eq_true hcls)) 1 ?_⟩
  · rw [hr, Grammar.avoids, hg]
    rfl
  · rw [hr, Grammar.reads, hg]
    rfl

end Nodes

/-- A numeral begins with a digit. -/
theorem head_of_unsignedNumber {sep : Bool} {mode : Mode} {c d : Cursor}
    {nodes : List (ParseTree R)} (h : Derives g sep Lexeme.unsignedNumber mode c nodes d) :
    ∃ x, x.isDigit ∧ [x] <+: c.rest := by
  obtain ⟨_, _, _, -, hdigits, -⟩ := h.of_andThen
  obtain ⟨_, _, _, -, hdigit, -⟩ := hdigits.of_andThen
  cases hdigit with
  | oneOf hdigit =>
    obtain ⟨x, hx, hc, -⟩ := (Cursor.next?_eq_some_iff _ _ _).1 hdigit
    exact ⟨x, hc, _, hx.symm⟩

end ServiceLang
