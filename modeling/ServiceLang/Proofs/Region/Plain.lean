import ServiceLang.Proofs.Grammar.Balance
import ServiceLang.Proofs.Grammar.Printed
import ServiceLang.Proofs.Region.Declaration
import ServiceLang.Proofs.Region.Word

/-!
Texts in which nothing opens.

`Passed before text rest` says that the scanner passes the text from the top level to
the top level and finds nothing, when so much has been read before it and so much
follows.  A name may be one of the words that introduce regions.  It opens none where
an expression goes on before it, or where a bracket, a comma or the end of the text
follows; and where a printed expression has a name, one of the two is the case
(`Expr.passed`).
-/

namespace ServiceLang

namespace Region

/-! ## What makes a word a name -/

section Solid

variable {rest : List Char} (hword : ∀ x, rest.head? = some x → isWordChar x = false)
  (hblank : ∀ x, rest.head? = some x → isBlank x = false)

include hword hblank

/-- No word is ahead. -/
theorem followedByMethodAndPath_of_solid : followedByMethodAndPath rest = false := by
  cases rest with
  | nil => rfl
  | cons x xs =>
    have letter : x.isAlpha = false := by
      have := hword x rfl
      simp only [isWordChar, Char.isAlphanum, Bool.or_eq_false_iff] at this
      exact this.1.1
    simp [followedByMethodAndPath, skipBlanks, hblank x rfl, letter]

theorem followedByNameAndBrace_of_solid : followedByNameAndBrace rest = false := by
  cases rest with
  | nil => rfl
  | cons x xs =>
    have start : isWordStart x = false :=
      Bool.eq_false_iff.2 fun h => Bool.eq_false_iff.1 (hword x rfl) (isWordChar_of_isWordStart x h)
    simp [followedByNameAndBrace, skipBlanks, hblank x rfl, start]

end Solid

/-- A word declares nothing if it introduces no region, if an expression goes on before it, or if
neither a blank nor a word follows. -/
theorem declares?_eq_none {word : String} {before rest : List Char}
    (hstop : ∀ x, rest.head? = some x → isWordChar x = false)
    (h : word ∉ ["endpoint", "workflow", "job"] ∨ continuesExpression before ∨
      ∀ x, rest.head? = some x → isBlank x = false) : declares? before word rest = none := by
  unfold declares?
  rcases h with hword | hbefore | hrest
  · simp only [List.mem_cons, List.not_mem_nil, or_false, not_or] at hword
    simp [hword]
  · simp [hbefore]
  · simp [followedByMethodAndPath_of_solid hstop hrest, followedByNameAndBrace_of_solid hstop hrest]

/-! ## Passing a text -/

/-- From the top level the scanner passes the text, finds nothing and is at the top level
again. -/
def Passed (before text rest : List Char) : Prop :=
  ∀ s : Scan, s.stack = [.main 0] → s.before = before →
    ∃ t, Reads s (text ++ rest) t rest ∧ t.stack = [.main 0] ∧ t.found = s.found ∧
      t.before = text.reverse ++ before

theorem startsNothing_of_mark {x : Char} (hx : x ∈ MainGrammar.marks) :
    isBlank x = false ∧ isWordChar x = false ∧ (∀ next, StartsNothing x next) ∧
      isAsciiControl x = false ∧ x ≠ '@' := by
  have plain : MainGrammar.marks.all fun x => isBlank x = false ∧ isWordChar x = false ∧ x ≠ '"' ∧
      x ≠ '{' ∧ x ≠ '}' ∧ x ≠ '/' ∧ isAsciiControl x = false ∧ x ≠ '@' := by decide
  obtain ⟨hb, hw, h1, h2, h3, h4, hc, h5⟩ := of_decide_eq_true (List.all_eq_true.1 plain x hx)
  exact ⟨hb, hw, fun _ => ⟨h1, h2, h3, fun hs => h4 hs.1⟩, hc, h5⟩

namespace Passed

variable {before k l rest : List Char}

theorem nil : Passed before [] rest := fun s hs hb => ⟨s, .done _ _, hs, rfl, hb⟩

theorem append (h : Passed before k (l ++ rest))
    (h2 : Passed (k.reverse ++ before) l rest) : Passed before (k ++ l) rest := by
  intro s hs hb
  obtain ⟨t, hread, ht, hfound, hbefore⟩ := h s hs hb
  obtain ⟨u, hread', hu, hfound', hbefore'⟩ := h2 t ht hbefore
  refine ⟨u, ?_, hu, hfound'.trans hfound, ?_⟩
  · rw [List.append_assoc]
    exact hread.trans hread'
  · rw [hbefore', List.reverse_append, List.append_assoc]

theorem cons {x : Char} (h : Passed before [x] (k ++ rest))
    (h2 : Passed (x :: before) k rest) : Passed before (x :: k) rest :=
  append (k := [x]) h h2

/-- One step that opens and finds nothing. -/
theorem one {x : Char} (h : ∀ s : Scan, s.stack = [.main 0] → s.before = before →
    ∃ t, CodeStep s (.main 0) [] x rest t ∧ t.stack = [.main 0] ∧ t.found = s.found ∧
      t.before = x :: before) : Passed before [x] rest := by
  intro s hs hb
  obtain ⟨t, hstep, ht, hfound, hbefore⟩ := h s hs hb
  exact ⟨t, Reads.code hs trivial hstep, ht, hfound, hbefore⟩

theorem of_isBlank {x : Char} (hx : isBlank x) : Passed before [x] rest :=
  one fun _ hs hb => ⟨_, .blank hx, hs, rfl, congrArg (x :: ·) hb⟩

theorem blank : Passed before [' '] rest := of_isBlank rfl

/-- A character that is no part of a word and starts nothing. -/
theorem other {x : Char} (hb : isBlank x = false) (hw : isWordChar x = false)
    (hn : StartsNothing x rest.head?) (hc : isAsciiControl x = false) (ha : x ≠ '@') :
    Passed before [x] rest :=
  one fun s hs hbefore => ⟨_, .other hb hw hn hc fun h => ha h.1, by simpa using hs, by simp,
    by simpa using hbefore⟩

theorem mark {x : Char} (hx : x ∈ MainGrammar.marks) : Passed before [x] rest := by
  obtain ⟨hb, hw, hn, hc, ha⟩ := startsNothing_of_mark hx
  exact other hb hw (hn _) hc ha

/-- A word that opens neither a region nor an `exec` block. -/
theorem of_word {k : List Char} (hk : ∀ x ∈ k, isWordChar x) (hne : k ≠ [])
    (hexec : execAt (k ++ rest) = false) (hhead : headAt before (k ++ rest) = none) :
    Passed before k rest := by
  intro s hs hb
  obtain ⟨x, xs, rfl⟩ := List.exists_cons_of_ne_nil hne
  have hx := hk x List.mem_cons_self
  have first : ∃ t, CodeStep s (.main 0) [] x (xs ++ rest) t ∧ t.stack = [.main 0] ∧
      t.found = s.found ∧ t.before = x :: before := by
    cases hi : insideWord (Frame.main 0).isTopLevel s.before with
    | true => exact ⟨_, .insideWord hx hi, hs, rfl, congrArg (x :: ·) hb⟩
    | false =>
      refine ⟨_, .word hx hi, ?_⟩
      rw [stepWord_main, ← List.cons_append, hexec, hb, hhead]
      exact ⟨by simpa using hs, by simp, by simpa using hb⟩
  obtain ⟨t, hstep, ht, hfound, hbefore⟩ := first
  have inside : insideWord (Frame.main 0).isTopLevel t.before := by
    rw [hbefore]
    simp [insideWord, hx]
  have tail := Reads.wordTail ht trivial inside (fun y hy => hk y (List.mem_cons_of_mem x hy)) rest
  exact ⟨t.after xs, (Reads.code hs trivial hstep).trans tail, ht, hfound, by simp [hbefore]⟩

/-- A whole word opens nothing if it declares nothing where it stands, and is not `exec` or has no
brace behind it. -/
theorem of_declares {k : List Char} (hk : ∀ x ∈ k, isWordChar x) (hne : k ≠ [])
    (hstop : ∀ x, rest.head? = some x → isWordChar x = false)
    (hexec : String.ofList k ≠ "exec" ∨ nextIs '{' rest = false)
    (h : declares? before (String.ofList k) rest = none) : Passed before k rest := by
  have htail : rest.takeWhile isWordChar = [] ∧ rest.dropWhile isWordChar = rest := by
    cases rest with
    | nil => exact ⟨rfl, rfl⟩
    | cons x xs => simp [hstop x rfl]
  have htake : (k ++ rest).takeWhile isWordChar = k := by
    rw [List.takeWhile_append_of_pos hk, htail.1, List.append_nil]
  have hdrop : (k ++ rest).dropWhile isWordChar = rest := by
    rw [List.dropWhile_append_of_pos hk, htail.2]
  refine of_word hk hne ?_ ?_
  · rw [execAt, htake, hdrop]
    rcases hexec with hexec | hbrace
    · rw [decide_eq_false hexec, Bool.false_and]
    · rw [hbrace, Bool.and_false]
  · rw [headAt, htake, hdrop, h]

/-- A whole word that is not `exec` opens nothing if it introduces no region, if an
expression goes on before it, or if neither a blank nor a word follows. -/
theorem word {k : List Char} (hk : ∀ x ∈ k, isWordChar x) (hne : k ≠ [])
    (hstop : ∀ x, rest.head? = some x → isWordChar x = false) (hexec : String.ofList k ≠ "exec")
    (h : String.ofList k ∉ ["endpoint", "workflow", "job"] ∨ continuesExpression before ∨
      ∀ x, rest.head? = some x → isBlank x = false) : Passed before k rest :=
  of_declares hk hne hstop (.inl hexec) (declares?_eq_none hstop h)

/-- A whole word opens nothing if neither a brace nor a quote is ahead. -/
theorem bareWord {k : List Char} (hk : ∀ x ∈ k, isWordChar x) (hne : k ≠ [])
    (hstop : ∀ x, rest.head? = some x → isWordChar x = false)
    (hrest : ∀ x ∈ rest, x ≠ '{' ∧ x ≠ '"') : Passed before k rest := by
  have hdrop : (k ++ rest).dropWhile isWordChar = rest := by
    rw [List.dropWhile_append_of_pos hk]
    cases rest with
    | nil => rfl
    | cons x xs => simp [hstop x rfl]
  have absent {c : Char} {xs : List Char} (hxs : xs ⊆ rest) (hc : c ∉ rest) : nextIs c xs = false :=
    decide_eq_false fun h => hc (hxs ((List.dropWhile_sublist _).subset (List.mem_of_head? h)))
  have blanks : skipBlanks rest ⊆ rest := (List.dropWhile_sublist _).subset
  have brace : '{' ∉ rest := fun h => (hrest _ h).1 rfl
  have quote : '"' ∉ rest := fun h => (hrest _ h).2 rfl
  refine of_word hk hne ?_ ?_
  · rw [execAt, hdrop, absent (List.Subset.refl rest) brace, Bool.and_false]
  · have path : followedByMethodAndPath rest = false := by
      rw [followedByMethodAndPath,
        absent (List.Subset.trans (List.dropWhile_sublist _).subset blanks) quote, Bool.and_false]
    have body : followedByNameAndBrace rest = false := by
      rw [followedByNameAndBrace,
        absent (List.Subset.trans (List.dropWhile_sublist _).subset blanks) brace, Bool.and_false]
    rw [headAt, hdrop]
    simp [declares?, path, body]

theorem string {k : List Char} (hk : QuotedTail false k) : Passed before ('"' :: k) rest := by
  intro s hs hb
  refine ⟨_, Reads.quoted hs trivial hk rest, by simpa using hs, by simp, ?_⟩
  simp [hb]

theorem of_marks {k : List Char} (hk : ∀ x ∈ k, x ∈ MainGrammar.marks) : Passed before k rest := by
  induction k generalizing before with
  | nil => exact nil
  | cons x xs ih =>
    exact cons (mark (hk x List.mem_cons_self)) (ih fun y hy => hk y (List.mem_cons_of_mem x hy))

theorem operator (s : Spelling) : Passed before s.text.toList (' ' :: rest) := by
  have letters {k : List Char} (hk : ∀ x ∈ k, isWordChar x) (hne : k ≠ [])
      (hexec : String.ofList k ≠ "exec") (h : String.ofList k ∉ ["endpoint", "workflow", "job"]) :
      Passed before k (' ' :: rest) :=
    word hk hne (fun x hx => Option.some.inj hx ▸ rfl) hexec (.inl h)
  cases s with
  | ampersands | bars => exact of_marks (by decide)
  | printed op =>
  cases op with
  | or => exact letters (k := ['o', 'r']) (by decide) (by decide) (by decide) (by decide)
  | and => exact letters (k := ['a', 'n', 'd']) (by decide) (by decide) (by decide) (by decide)
  | div =>
    exact other (x := '/') rfl rfl ⟨by decide, by decide, by decide, fun h => by simp at h⟩ rfl
      (by decide)
  | eq | ne | lt | le | gt | ge | add | sub | mul | mod => exact of_marks (by decide)

theorem digits {k : List Char} (hk : Decimal.IsDigits k)
    (hstop : ∀ x, rest.head? = some x → isWordChar x = false) : Passed before k rest := by
  have hword : ∀ x ∈ k, isWordChar x := fun x hx => by
    have hx : x.isDigit = true := hk.2 x hx
    simp [isWordChar, Char.isAlphanum, hx]
  have other (w : String) (y : Char) (hy : w.toList.head? = some y) (hdigit : y.isDigit = false) :
      String.ofList k ≠ w := by
    rintro rfl
    rw [String.toList_ofList] at hy
    rw [hk.2 y (List.mem_of_head? hy)] at hdigit
    cases hdigit
  refine word hword hk.1 hstop (other "exec" 'e' rfl rfl) (.inl fun hmem => ?_)
  simp only [List.mem_cons, List.not_mem_nil, or_false] at hmem
  rcases hmem with h | h | h
  · exact other "endpoint" 'e' rfl rfl h
  · exact other "workflow" 'w' rfl rfl h
  · exact other "job" 'j' rfl rfl h

theorem numeral {k : List Char} (hk : Decimal.Numeral k)
    (hstop : ∀ x, rest.head? = some x → isWordChar x = false) : Passed before k rest := by
  cases hk with
  | whole hds => exact digits hds hstop
  | fraction hds hfs =>
    exact append (digits hds fun x hx => Option.some.inj hx ▸ rfl)
      (cons (mark (by decide)) (digits hfs hstop))

theorem name {name : String} (hname : isName name)
    (hstop : ∀ x, rest.head? = some x → isWordChar x = false)
    (h : continuesExpression before ∨ ∀ x, rest.head? = some x → isBlank x = false) :
    Passed before name.toList rest := by
  have hk := (isName_iff name).1 hname
  refine .word hk.chars hk.ne_nil hstop (fun hexec => ?_) (.inr h)
  have reserved : "exec" ∈ reservedWords := by decide
  exact hk.unreserved (hexec ▸ reserved)

end Passed

/-- In a text that is passed no region is found. -/
theorem find_of_passed {text : List Char} (h : Passed [] text []) : find text = .ok [] := by
  obtain ⟨t, hread, hstack, hfound, -⟩ := h .start rfl rfl
  rw [List.append_nil] at hread
  refine (find_eq_ok_iff _ _).2 ⟨t, hread, ?_, by rw [hfound]; rfl⟩
  rw [hstack]
  intro f hf
  rw [List.mem_singleton.1 hf]
  rfl

end Region

/-! ## Printed expressions -/

open Region MainGrammar

theorem MainGrammar.Ends.head_isWordChar {rest : List Char} (h : Ends rest) :
    ∀ x, rest.head? = some x → isWordChar x = false := by
  intro x hx
  rcases h with hclose | ⟨s, xs, rfl⟩
  · have plain : ∀ y ∈ [')', ']', ','], isWordChar y = false := by decide
    exact plain x (hclose x hx)
  · exact Option.some.inj hx ▸ rfl

theorem MainGrammar.Closes.head_isBlank {rest : List Char} (h : Closes rest) :
    ∀ x, rest.head? = some x → isBlank x = false := by
  have plain : ∀ y ∈ [')', ']', ','], isBlank y = false := by decide
  exact fun x hx => plain x (h x hx)

/-- Behind an opening bracket and behind a comma an expression goes on. -/
theorem Region.continuesExpression_cons {x : Char} (hx : x ∈ continuationMarks) (before : List Char) :
    continuesExpression (x :: before) := by
  have solid : ∀ y ∈ continuationMarks, isBlank y = false := by decide
  simp [continuesExpression, skipBlanks, solid x hx, hx]

mutual

/-- The scanner passes a printed expression if an expression goes on before it or a
bracket, a comma or the end of the text follows. -/
theorem Expr.passed : (e : Expr) → e.isPrintable → {before rest : List Char} → Ends rest →
    continuesExpression before ∨ Closes rest → Passed before e.display.toList rest
  | .string pos value, hp, before, rest, _, _ => by
    rw [display, Text.toList_quoted]
    exact .string (Text.quotedTail_quotedBody value (List.all_eq_true.1 hp))
  | .number pos value, hp, before, rest, hrest, _ => by
    simp only [isPrintable, isReadableNumber, Bool.and_eq_true] at hp
    rw [display]
    exact .numeral (Decimal.numeral_plain hp.1) hrest.head_isWordChar
  | .bool pos value, _, before, rest, hrest, _ => by
    rw [display]
    cases value with
    | true =>
      exact .word (k := ['t', 'r', 'u', 'e']) (by decide) (by decide) hrest.head_isWordChar
        (by decide) (.inl (by decide))
    | false =>
      exact .word (k := ['f', 'a', 'l', 's', 'e']) (by decide) (by decide) hrest.head_isWordChar
        (by decide) (.inl (by decide))
  | .ident pos name, hp, before, rest, hrest, h => by
    rw [display]
    exact .name hp hrest.head_isWordChar (h.imp id fun h => h.head_isBlank)
  | .array pos es, hp, before, rest, _, _ => by
    rw [toList_display_array]
    refine .cons (.mark (by decide)) (.append (passed_commaList es hp ?_ ⟨']', rest, rfl, by decide⟩)
      (.mark (by decide)))
    exact continuesExpression_cons (by decide) before
  | .call pos name args, hp, before, rest, _, _ => by
    obtain ⟨hname, hargs⟩ := Bool.and_eq_true_iff.1 hp
    have solid (xs : List Char) : ∀ x, ('(' :: xs).head? = some x →
        isWordChar x = false ∧ isBlank x = false := fun x hx => Option.some.inj hx ▸ ⟨rfl, rfl⟩
    rw [toList_display_call]
    refine .append (.name hname (fun x hx => (solid _ x hx).1) (.inr fun x hx => (solid _ x hx).2))
      (.cons (.mark (by decide)) (.append (passed_commaList args hargs ?_ ⟨')', rest, rfl, by decide⟩)
        (.mark (by decide))))
    exact continuesExpression_cons (by decide) _
  | .binary pos left op right, hp, before, rest, _, _ => by
    obtain ⟨hpl, hpr⟩ := Bool.and_eq_true_iff.1 hp
    rw [toList_display_binary]
    have closes : Closes ([')'] ++ rest) := fun x hx => Option.some.inj hx ▸ by decide
    refine .cons (.mark (by decide)) (.append (left.passed hpl ?_ (.inl ?_)) (.cons .blank
      (.append (.operator (.printed op)) (.cons .blank (.append (right.passed hpr (.inl closes) (.inr closes))
        (.mark (by decide)))))))
    · exact .inr ⟨.printed op, right.display.toList ++ [')'] ++ rest, by simp [Spelling.text]⟩
    · exact continuesExpression_cons (by decide) before
  | .unary pos op operand, hp, before, rest, _, _ => by
    rw [toList_display_unary]
    have closes : Closes ([')'] ++ rest) := fun x hx => Option.some.inj hx ▸ by decide
    refine .cons (.mark (by decide)) (.append ?_ (.append
      (operand.passed hp (.inl closes) (.inr closes)) (.mark (by decide))))
    cases op with
    | neg => exact .mark (by decide)
    | not =>
      exact .append (k := ['n', 'o', 't']) (l := [' '])
        (.word (by decide) (by decide) (fun x hx => Option.some.inj hx ▸ rfl) (by decide)
          (.inl (by decide))) .blank

/-- The scanner passes the expressions of a list behind its opening bracket. -/
theorem Expr.passed_commaList : (es : List Expr) → Expr.arePrintable es →
    {before rest : List Char} → continuesExpression before → ClosesList rest →
    Passed before (commaList (displayAll es)).toList rest
  | [], _, before, rest, _, _ => .nil
  | e :: es, hp, before, rest, hbefore, hrest => by
    obtain ⟨hpe, hpes⟩ := Bool.and_eq_true_iff.1 hp
    rw [toList_commaList_cons]
    exact .append (e.passed hpe (.inl (closes_commaTexts es hrest)) (.inl hbefore))
      (passed_commaTexts es hpes hrest)

/-- The scanner passes the further expressions of a list. -/
theorem Expr.passed_commaTexts : (es : List Expr) → Expr.arePrintable es →
    {before rest : List Char} → ClosesList rest → Passed before (commaTexts es) rest
  | [], _, before, rest, _ => .nil
  | e :: es, hp, before, rest, hrest => by
    obtain ⟨hpe, hpes⟩ := Bool.and_eq_true_iff.1 hp
    refine .cons (.mark (by decide)) (.cons .blank (.append
      (e.passed hpe (.inl (closes_commaTexts es hrest)) (.inl ?_)) (passed_commaTexts es hpes hrest)))
    exact continuesExpression_cons (x := ',') (by decide) before

end

end ServiceLang
