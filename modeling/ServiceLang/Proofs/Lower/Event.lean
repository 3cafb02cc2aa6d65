import ServiceLang.Lower.Declaration
import ServiceLang.Proofs.Grammar.Lexeme
import ServiceLang.Proofs.Grammar.Piece
import ServiceLang.Proofs.Lower.Alike
import ServiceLang.Proofs.Peg.Shape

/-!
How events are written, and what is made of them.

Behind its name an event has trivia, and then entries in braces or nothing (`EventText`).  The
braces leave no node, so lowering looks for the one that closes a body at the end of the text
(`hasSchema_iff`).  Without a body the text ends in the trivia, and the end of trivia is a brace
only if its last comment is a line comment with a brace at its end
(`getLast?_trimEnd_of_trivia`).
-/

namespace ServiceLang

open Peg Region

/-! ## The end of trivia -/

/-- The text ends in a line comment, and the comment in a closing brace, white space apart. -/
def EndsInBraceComment (k : List Char) : Prop :=
  ∃ before line blanks, k = before ++ '/' :: '/' :: (line ++ blanks) ∧ '\n' ∉ line ∧
    (∀ x ∈ blanks, isBlank x) ∧ (Text.trimEnd line).getLast? = some '\x7d'

theorem getLast?_trimEnd (k : List Char) :
    (Text.trimEnd k).getLast? = k.reverse.find? fun c => !Text.isWhiteSpace c := by
  unfold Text.trimEnd
  rw [List.getLast?_reverse, List.find?_not_eq_head?_dropWhile]

theorem getLast?_trimEnd_append (k l : List Char) :
    (Text.trimEnd (k ++ l)).getLast? = (Text.trimEnd l).getLast?.or (Text.trimEnd k).getLast? := by
  rw [getLast?_trimEnd, getLast?_trimEnd, getLast?_trimEnd, List.reverse_append, List.find?_append]

theorem getLast?_trimEnd_blank {k : List Char} (h : ∀ x ∈ k, isBlank x) :
    (Text.trimEnd k).getLast? = none := by
  rw [getLast?_trimEnd, List.find?_eq_none]
  intro x hx
  rw [MainGrammar.isWhiteSpace_of_isBlank (h x (List.mem_reverse.1 hx))]
  nofun

/-- A character that is no white space is the last one of a text that it ends. -/
theorem getLast?_trimEnd_concat (k : List Char) {x : Char} (hx : Text.isWhiteSpace x = false) :
    (Text.trimEnd (k ++ [x])).getLast? = some x := by
  rw [getLast?_trimEnd, List.reverse_append]
  simp [hx]

theorem EndsInBraceComment.getLast? {k : List Char} (h : EndsInBraceComment k) :
    (Text.trimEnd k).getLast? = some '\x7d' := by
  obtain ⟨before, line, blanks, rfl, -, hblanks, hline⟩ := h
  have hsplit : before ++ '/' :: '/' :: (line ++ blanks) = (before ++ ['/', '/']) ++ (line ++ blanks) := by
    simp
  rw [hsplit, getLast?_trimEnd_append, getLast?_trimEnd_append, getLast?_trimEnd_blank hblanks, hline]
  rfl

/-- The rest of a line, with the newline that ends it. -/
theorem exists_of_lineTail {k : List Char} (h : LineTail k) : ∃ line, k = line ++ ['\n'] ∧ '\n' ∉ line := by
  induction h with
  | close => exact ⟨[], rfl, nofun⟩
  | @char c cs hc _ ih =>
    obtain ⟨line, rfl, hline⟩ := ih
    exact ⟨c :: line, rfl, fun hm => (List.mem_cons.1 hm).elim (fun h => hc h.symm) hline⟩

/-- The rest of a block comment ends in a slash. -/
theorem exists_of_blockTail {star : Bool} {k : List Char} (h : BlockTail star k) : ∃ l, k = l ++ ['/'] := by
  induction h with
  | close => exact ⟨[], rfl⟩
  | @char _ c _ _ _ ih =>
    obtain ⟨l, rfl⟩ := ih
    exact ⟨c :: l, rfl⟩

/-- Blanks behind a line comment end in a brace only if the comment does. -/
theorem endsInBraceComment_of_line {before line blanks : List Char} (hline : '\n' ∉ line)
    (hblanks : ∀ x ∈ blanks, isBlank x)
    (h : (Text.trimEnd (before ++ ('/' :: '/' :: line) ++ blanks)).getLast? = some '\x7d') :
    EndsInBraceComment (before ++ ('/' :: '/' :: line) ++ blanks) := by
  refine ⟨before, line, blanks, by simp, hline, hblanks, ?_⟩
  have hsplit : before ++ ('/' :: '/' :: line) ++ blanks = (before ++ ['/']) ++ ['/'] ++ line ++ blanks := by
    simp
  rw [hsplit, getLast?_trimEnd_append, getLast?_trimEnd_blank hblanks, Option.none_or,
    getLast?_trimEnd_append, getLast?_trimEnd_concat _ rfl] at h
  cases hlast : (Text.trimEnd line).getLast? with
  | none => rw [hlast] at h; exact absurd h (by decide)
  | some x => rw [hlast] at h; exact h

theorem not_endsIn_of_block {before comment blanks : List Char} (hblanks : ∀ x ∈ blanks, isBlank x) :
    (Text.trimEnd (before ++ (comment ++ ['/']) ++ blanks)).getLast? ≠ some '\x7d' := by
  rw [getLast?_trimEnd_append, getLast?_trimEnd_blank hblanks, Option.none_or, ← List.append_assoc,
    getLast?_trimEnd_concat _ rfl]
  decide

theorem exists_blanks_skipWhile (c : Cursor) :
    ∃ blanks, c.Passes blanks (c.skipWhile isBlank) ∧ ∀ x ∈ blanks, isBlank x :=
  ⟨c.rest.takeWhile isBlank, ⟨List.takeWhile_append_dropWhile.symm, rfl⟩,
    fun _ hx => List.mem_takeWhile_imp hx⟩

/-- Trivia ends in a closing brace if and only if a line comment at its end does. -/
theorem getLast?_trimEnd_of_trivia {c : Cursor} {k : List Char} (h : c.Passes k (skipTrivia c)) :
    (Text.trimEnd k).getLast? = some '\x7d' ↔ EndsInBraceComment k := by
  refine ⟨fun hlast => ?_, EndsInBraceComment.getLast?⟩
  obtain ⟨k', hk', hends⟩ : ∃ k, c.Passes k (skipTrivia c) ∧
      ((Text.trimEnd k).getLast? = some '\x7d' → EndsInBraceComment k) := by
    refine skipTrivia_induction (P := fun d => ∃ k, c.Passes k d ∧
      ((Text.trimEnd k).getLast? = some '\x7d' → EndsInBraceComment k)) c ?_ ?_
    · obtain ⟨blanks, hpass, hblanks⟩ := exists_blanks_skipWhile c
      refine ⟨blanks, hpass, fun hlast => ?_⟩
      rw [getLast?_trimEnd_blank hblanks] at hlast
      cases hlast
    · rintro d e ⟨before, hbefore, -⟩ hcomment
      rcases comment?_cases hcomment with ⟨k, f, hk, hpass, hskip⟩ | ⟨line, hpass, hline, hend⟩
      · obtain ⟨blanks, hskipped, hblanks⟩ := exists_blanks_skipWhile f
        rw [hskip]
        refine ⟨before ++ k ++ blanks, (hbefore.append hpass).append hskipped, fun hlast => ?_⟩
        cases hk with
        | line hk =>
          obtain ⟨line, rfl, hline⟩ := exists_of_lineTail hk
          have hsplit : before ++ '/' :: '/' :: (line ++ ['\n']) ++ blanks =
              before ++ ('/' :: '/' :: line) ++ '\n' :: blanks := by simp
          rw [hsplit] at hlast ⊢
          exact endsInBraceComment_of_line hline (List.forall_mem_cons.2 ⟨rfl, hblanks⟩) hlast
        | block hk =>
          obtain ⟨l, rfl⟩ := exists_of_blockTail hk
          have hblock : (Text.trimEnd (before ++ ('/' :: '*' :: l ++ ['/']) ++ blanks)).getLast? ≠
              some '\x7d' := not_endsIn_of_block hblanks
          exact absurd hlast hblock
      · obtain ⟨blanks, hskipped, hblanks⟩ := exists_blanks_skipWhile e
        exact ⟨before ++ ('/' :: '/' :: line) ++ blanks, (hbefore.append hpass).append hskipped,
          endsInBraceComment_of_line hline hblanks⟩
  rw [List.append_cancel_right (h.1.symm.trans hk'.1)] at hlast ⊢
  exact hends hlast

namespace MainGrammar

open Pattern (all)

/-! ## How events are written -/

/-- The body of an event: entries in braces, with a comma behind each or without. -/
def eventBody : Pattern Rule := braces (.many (all [.rule .schemaField, .optional (.literal ",")]))

/-- The parts of an event: the word and a name that ends at `c`, the trivia behind it, and a
body with these entries, or none. -/
structure EventText (t : ParseTree Rule) (c : Cursor) (trivia body : List Char)
    (entries : List (ParseTree Rule)) : Prop where
  named : ∃ word name head, t.children = word :: name :: entries ∧ word.rule = .word .event ∧
    name.rule = .eventName ∧ t.start.Passes head name.start ∧ name.start.Passes name.text c ∧
    t.text = head ++ (name.text ++ (trivia ++ body))
  trivia : c.Passes trivia (skipTrivia c)
  body : body = [] ∧ entries = [] ∨ ∃ d, (skipTrivia c).Passes body d ∧
    Derives grammar true eventBody ⟨.none, .free⟩ (skipTrivia c) entries d

/-- The field is what the entry says: a name, a type, and a mark if it is not required. -/
inductive EntryText (place : Nat → Position) : ParseTree Rule → EventField → Prop
  | required {t name type : ParseTree Rule} : t.children = [name, type] → name.rule = .fieldName →
      type.rule = .typeName →
      EntryText place t (EventField.mk (place t.offset) name.string type.string true)
  | marked {t name type mark : ParseTree Rule} : t.children = [name, type, mark] →
      name.rule = .fieldName → type.rule = .typeName → mark.rule = .optionalMark →
      mark.text = ['?'] →
      EntryText place t (EventField.mk (place t.offset) name.string type.string false)

variable {place : Nat → Position} {t : ParseTree Rule} {c : Cursor} {trivia body : List Char}
  {entries : List (ParseTree Rule)}

/-- Every event has such parts. -/
theorem exists_eventText (h : IsLeft grammar t) (hr : t.rule = .eventDecl) :
    ∃ c trivia body entries, EventText t c trivia body entries := by
  obtain ⟨f, hpass, hd⟩ := h.exists_passes
  rw [hr] at hd
  obtain ⟨_, a, _, hnodes, hword, hd⟩ := hd.of_andThen
  obtain ⟨_, c, entries, rfl, hname, hbody⟩ := hd.of_andThen
  obtain ⟨wordInner, -, rfl⟩ := hword.of_rule
  obtain ⟨nameInner, hspelled, rfl⟩ := hname.of_rule
  obtain ⟨head, hhead⟩ := hword.reaches.trans (reaches_skipTrivia a)
  obtain ⟨name, hname⟩ := hspelled.reaches
  obtain ⟨trivia, htrivia⟩ := reaches_skipTrivia c
  obtain ⟨body, hbodyText⟩ := hbody.reaches
  have htext : t.text = head ++ (name ++ (trivia ++ body)) :=
    List.append_cancel_right (hpass.1.symm.trans
      (hhead.append (hname.append (htrivia.append hbodyText))).1)
  have hnameText : (ParseTree.node Rule.eventName (skipTrivia a) c.offset nameInner).text = name :=
    ParseTree.text_of_passes hname
  refine ⟨c, trivia, body, entries, ⟨_, _, head, hnodes, rfl, rfl, hhead, ?_, ?_⟩, htrivia, ?_⟩
  · exact hnameText.symm ▸ hname
  · exact htext.trans (hnameText.symm ▸ rfl)
  · cases hbody with
    | without => exact .inl ⟨by simpa using hbodyText.1, rfl⟩
    | «with» hbody => exact .inr ⟨_, hbodyText, hbody⟩

/-- The characters of the names of events. -/
def isEventNameChar (x : Char) : Bool := isWordChar x || x = '.' || x = '-'

theorem isWhiteSpace_of_isEventNameChar {x : Char} (h : isEventNameChar x) :
    Text.isWhiteSpace x = false := by
  rcases Bool.or_eq_true_iff.1 h with h | h
  · rcases Bool.or_eq_true_iff.1 h with h | h
    · rw [isWordChar_iff] at h
      simp only [Text.isWhiteSpace, Bool.or_eq_false_iff, Bool.and_eq_false_iff, decide_eq_false_iff_not]
      omega
    · rw [of_decide_eq_true h]; rfl
  · rw [of_decide_eq_true h]; rfl

/-- The name of an event ends in a character of names. -/
theorem exists_last_of_eventName {name : ParseTree Rule} (h : IsLeft grammar name)
    (hr : name.rule = .eventName) :
    ∃ init x, name.text = init ++ [x] ∧ isEventNameChar x := by
  have hall : ∀ x ∈ name.text, isEventNameChar x := by
    refine h.forall_text (· ≠ .any) isEventNameChar (fun cls x hcls hx => ?_) 1 (by rw [hr]; rfl)
    have hword := isWordChar_of_contains cls (of_decide_eq_true hcls) hx
    simp [isEventNameChar, hword]
  have hne : name.text ≠ [] := h.text_ne_nil 1 (by rw [hr]; rfl)
  have hlast := List.dropLast_append_getLast hne
  exact ⟨_, _, hlast.symm, hall _ (List.getLast_mem hne)⟩

/-- Entries in braces begin and end with a brace. -/
theorem exists_of_eventBody {c d : Cursor} {nodes : List (ParseTree Rule)}
    (h : Derives grammar true eventBody ⟨.none, .free⟩ c nodes d) {k : List Char} (hk : c.Passes k d) :
    ∃ inner, k = '\x7b' :: (inner ++ ['\x7d']) := by
  obtain ⟨_, a, _, -, hopen, h⟩ := h.of_andThen
  obtain ⟨_, b, _, -, hentries, hclose⟩ := h.of_andThen
  cases hopen with
  | literal hopen =>
  cases hclose with
  | literal hclose =>
  have hopen : c.Passes ['\x7b'] a := Cursor.passes_of_strip? hopen
  have hclose : (skipTrivia b).Passes ['\x7d'] d := Cursor.passes_of_strip? hclose
  obtain ⟨inner, hinner⟩ := ((reaches_skipTrivia a).trans hentries.reaches).trans (reaches_skipTrivia b)
  exact ⟨inner, List.append_cancel_right (hk.1.symm.trans (hopen.append (hinner.append hclose)).1)⟩

namespace EventText

/-- The entries are the nodes for fields. -/
theorem childrenOf_eq (h : EventText t c trivia body entries) : t.childrenOf .schemaField = entries := by
  obtain ⟨word, name, head, hchildren, hword, hname, -⟩ := h.named
  unfold ParseTree.childrenOf
  rw [hchildren, List.filter_cons_of_neg (by rw [hword]; decide),
    List.filter_cons_of_neg (by rw [hname]; decide)]
  rcases h.body with ⟨-, rfl⟩ | ⟨d, -, hd⟩
  · rfl
  · exact hd.filter_rule ⟨rfl, nofun⟩ 0 rfl

/-- A body begins and ends with a brace. -/
theorem exists_inner (h : EventText t c trivia body entries) (hbody : body ≠ []) :
    ∃ inner, body = '\x7b' :: (inner ++ ['\x7d']) := by
  rcases h.body with ⟨rfl, -⟩ | ⟨d, hpass, hd⟩
  · exact absurd rfl hbody
  · exact exists_of_eventBody hd hpass

/-- A text without an opening brace has no body. -/
theorem eq_nil_of_not_mem (h : EventText t c trivia body entries) (hbrace : '\x7b' ∉ t.text) :
    body = [] := by
  by_contra hbody
  obtain ⟨inner, rfl⟩ := h.exists_inner hbody
  obtain ⟨-, name, head, -, -, -, -, -, htext⟩ := h.named
  rw [htext] at hbrace
  exact hbrace (by simp)

theorem entries_eq_nil (h : EventText t c trivia [] entries) : entries = [] := by
  rcases h.body with ⟨-, rfl⟩ | ⟨d, hpass, hd⟩
  · rfl
  · obtain ⟨inner, hinner⟩ := exists_of_eventBody hd hpass
    cases hinner

/-- The text ends in a brace, white space apart, if there is a body, or if the trivia ends in
a comment that does. -/
theorem hasSchema_iff (h : EventText t c trivia body entries) (hleft : IsLeft grammar t)
    (hr : t.rule = .eventDecl) :
    (Text.trimEnd t.text).getLast? = some '\x7d' ↔ body ≠ [] ∨ EndsInBraceComment trivia := by
  obtain ⟨word, name, head, hchildren, -, hname, -, -, htext⟩ := h.named
  rw [htext]
  by_cases hbody : body = []
  · have hmem : name ∈ t.children := by rw [hchildren]; simp
    obtain ⟨init, x, hlast, hx⟩ :=
      exists_last_of_eventName (hleft.child (by rw [hr]; rfl) hmem).1 hname
    have hsplit : head ++ (name.text ++ (trivia ++ body)) = (head ++ init) ++ [x] ++ trivia := by
      simp [hlast, hbody]
    have hbrace : x ≠ '\x7d' := by
      rintro rfl
      cases hx
    rw [hsplit, getLast?_trimEnd_append, getLast?_trimEnd_concat _ (isWhiteSpace_of_isEventNameChar hx),
      or_iff_right (not_not_intro hbody), ← getLast?_trimEnd_of_trivia h.trivia]
    cases (Text.trimEnd trivia).getLast? with
    | none => simpa using hbrace
    | some y => rfl
  · obtain ⟨inner, rfl⟩ := h.exists_inner hbody
    refine iff_of_true ?_ (.inl hbody)
    have hsplit : head ++ (name.text ++ (trivia ++ '\x7b' :: (inner ++ ['\x7d']))) =
        (head ++ (name.text ++ (trivia ++ '\x7b' :: inner))) ++ ['\x7d'] := by simp
    rw [hsplit, getLast?_trimEnd_concat _ rfl]

end EventText

/-! ## What is made of them -/

/-- The field of an entry with a name and a type, from what may stand behind them. -/
theorem lowerEventField_eq {name type : ParseTree Rule} {marks : List (ParseTree Rule)}
    (h : t.children = name :: type :: marks) (hname : name.rule = .fieldName)
    (htype : type.rule = .typeName) :
    lowerEventField place t =
      ⟨place t.offset, name.string, type.string, !marks.any (·.rule = .optionalMark)⟩ := by
  simp [lowerEventField, ParseTree.textOf, ParseTree.firstOf?, ParseTree.has, h, hname, htype]

theorem entryText_lowerEventField (h : IsLeft grammar t) (hr : t.rule = .schemaField) :
    EntryText place t (lowerEventField place t) := by
  obtain ⟨f, hd⟩ := h.spaced (by rw [hr]; rfl)
  rw [hr] at hd
  obtain ⟨_, a, _, hnodes, hname, hd⟩ := hd.of_andThen
  obtain ⟨_, b, _, rfl, hcolon, hd⟩ := hd.of_andThen
  obtain ⟨_, c, marks, rfl, htype, hmark⟩ := hd.of_andThen
  obtain ⟨nameInner, -, rfl⟩ := hname.of_rule
  obtain ⟨typeInner, -, rfl⟩ := htype.of_rule
  cases hcolon with
  | literal hcolon =>
  have hchildren : t.children = _ :: _ :: marks := hnodes
  have hfield : lowerEventField place t = _ := lowerEventField_eq hchildren rfl rfl
  cases hmark with
  | without =>
    rw [hfield]
    exact .required hchildren rfl rfl
  | «with» hmark =>
    obtain ⟨inner, rfl, hquestion⟩ := hmark.of_spaced rfl
    have htext : (ParseTree.node Rule.optionalMark (skipTrivia c) f.offset inner).text = ['?'] := by
      cases hquestion with
      | literal hquestion => exact ParseTree.text_of_passes (Cursor.passes_of_strip? hquestion)
    rw [hfield]
    exact .marked hchildren rfl rfl rfl htext

/-- An event with a body has its entries as schema.  Without one it has no schema, unless the
trivia behind its name ends in a comment with a brace at its end. -/
theorem EventText.schema_lowerEvent (h : EventText t c trivia body entries) (hleft : IsLeft grammar t)
    (hr : t.rule = .eventDecl) :
    (body ≠ [] → ∃ fields, (lowerEvent place t).schema = some fields ∧
      List.Forall₂ (EntryText place) entries fields) ∧
    (body = [] → ¬EndsInBraceComment trivia → (lowerEvent place t).schema = none) ∧
    (body = [] → EndsInBraceComment trivia → (lowerEvent place t).schema = some []) := by
  have hentries := h.childrenOf_eq
  have hbrace := h.hasSchema_iff hleft hr
  have hschema : (lowerEvent place t).schema =
      if (Text.trimEnd t.text).getLast? = some '\x7d' then some (entries.map (lowerEventField place))
      else none := by
    simp [lowerEvent, hentries]
  refine ⟨fun hbody => ?_, fun hbody hcomment => ?_, fun hbody hcomment => ?_⟩
  · rw [hschema, if_pos (hbrace.2 (.inl hbody))]
    refine ⟨_, rfl, List.forall₂_map_right_iff.2 (List.forall₂_same.2 fun u hu => ?_)⟩
    rw [← hentries] at hu
    obtain ⟨hu, -, hrule⟩ := hleft.of_mem_childrenOf (by rw [hr]; rfl) hu
    exact entryText_lowerEventField hu hrule
  · rw [hschema, if_neg fun hlast => (hbrace.1 hlast).elim (absurd hbody) hcomment]
  · subst hbody
    rw [hschema, if_pos (hbrace.2 (.inr hcomment)), h.entries_eq_nil]
    rfl

end MainGrammar

end ServiceLang
