import ServiceLang.Proofs.Grammar.Statement
import ServiceLang.Proofs.Parse.Single
import ServiceLang.Proofs.Region.Named

/-!
Names in every place.

Each line of `usageLines` uses one word in all the places where names stand: as a variable, in
an expression, as a function, and as what a loop and a function bind.  No region is found in
such a line, whatever the word is (`passed_usageLine`).  If the word is a name, the lines are
parsed to the statements that use it, and if it is reserved, none of them is a program
(`Source.parse_usage`).
-/

namespace ServiceLang

open Peg Region MainGrammar

/-! ## The lines -/

def variableLine (name : String) : String := "var " ++ name ++ " = 1"

def sumLine (name : String) : String := name ++ " = " ++ name ++ " + 1"

def callLine (name : String) : String := name ++ "(" ++ name ++ ")"

def loopLine (name : String) : String :=
  "for " ++ name ++ " in [" ++ name ++ "] \x7b " ++ name ++ " = " ++ name ++ " \x7d"

def functionLine (name : String) : String :=
  "function " ++ name ++ "(" ++ name ++ ") \x7b return " ++ name ++ " \x7d"

/-- Lines that use the word in all the places where names stand. -/
def usageLines (name : String) : List String :=
  [variableLine name, sumLine name, callLine name, loopLine name, functionLine name]

/-- The lines one below the other. -/
def usageText (name : String) : String := "\n".intercalate (usageLines name)

/-- The statements of the lines, whatever their positions are. -/
def usageStatements (name : String) : List Stmt :=
  let word : Expr := .ident .unknown name
  let one : Expr := .number .unknown 1
  [.varDecl .unknown name (some one),
    .assignment .unknown name (.binary .unknown word .add one),
    .exprStmt .unknown (.call .unknown name [word]),
    .forLoop .unknown name (.array .unknown [word]) (.mk .unknown [.assignment .unknown name word]),
    .function .unknown name [name] (.mk .unknown [.returnStmt .unknown (some word)])]

theorem toList_variableLine (name : String) :
    (variableLine name).toList = 'v' :: 'a' :: 'r' :: ' ' :: (name.toList ++ [' ', '=', ' ', '1']) := by
  unfold variableLine
  simp

theorem toList_sumLine (name : String) :
    (sumLine name).toList = name.toList ++ ' ' :: '=' :: ' ' :: (name.toList ++ [' ', '+', ' ', '1']) := by
  unfold sumLine
  simp

theorem toList_callLine (name : String) :
    (callLine name).toList = name.toList ++ '(' :: (name.toList ++ [')']) := by
  unfold callLine
  simp

/-- The items of the loop and its body are kept together. -/
theorem toList_loopLine (name : String) :
    (loopLine name).toList = 'f' :: 'o' :: 'r' :: ' ' :: (name.toList ++ ' ' :: 'i' :: 'n' :: ' ' ::
      (('[' :: (name.toList ++ [']'])) ++ ' ' ::
        ('{' :: ((' ' :: (name.toList ++ ' ' :: '=' :: ' ' :: (name.toList ++ [' ']))) ++ ['}'])))) := by
  unfold loopLine
  simp

theorem toList_functionLine (name : String) :
    (functionLine name).toList = 'f' :: 'u' :: 'n' :: 'c' :: 't' :: 'i' :: 'o' :: 'n' :: ' ' ::
      (name.toList ++ '(' :: (name.toList ++ ')' :: ' ' ::
        ('{' :: ((' ' :: 'r' :: 'e' :: 't' :: 'u' :: 'r' :: 'n' :: ' ' :: (name.toList ++ [' '])) ++ ['}'])))) := by
  unfold functionLine
  simp

theorem toList_usageText (name : String) :
    (usageText name).toList = ['\n'].intercalate ((usageLines name).map String.toList) :=
  String.toList_intercalate

/-! ## What the scanner finds -/

/-- No word goes on at this character. -/
theorem stops_cons {x : Char} (hx : isWordChar x = false) (xs : List Char) :
    ∀ y, (x :: xs).head? = some y → isWordChar y = false :=
  fun _ hy => Option.some.inj hy ▸ hx

section Scanner

variable {name : String} (hword : ∀ x ∈ name.toList, isWordChar x) (hne : name.toList ≠ [])
  {before rest : List Char}
include hword

theorem isToken_wordChars : ∀ x ∈ name.toList, Passed.IsToken x :=
  fun x hx => .inr (Bool.or_eq_true_iff.2 (.inl (hword x hx)))

include hne

theorem passed_sumLine (hrest : ∀ x, rest.head? = some x → isWordChar x = false) :
    Passed before (sumLine name).toList rest := by
  rw [toList_sumLine]
  refine .append (.used hword hne rfl rfl (by decide)) ?_
  refine .cons .blank (.cons (.mark (by decide)) (.cons .blank (.append ?_ ?_)))
  · exact .operand hword hne (stops_cons rfl _) rfl (.inl rfl)
  · exact .cons .blank (.cons (.mark (by decide)) (.cons .blank (.digits ⟨by decide, by decide⟩ hrest)))

/-- The word with a bracket behind it. -/
theorem passed_operand {x : Char} (hx : x ∈ ['(', ')', ']']) : Passed before name.toList (x :: rest) := by
  have brackets : ∀ x ∈ ['(', ')', ']'], isWordChar x = false ∧ isBlank x = false ∧ x ≠ '{' := by decide
  obtain ⟨hw, hb, hbrace⟩ := brackets x hx
  exact .operand hword hne (stops_cons hw _) (by simpa [nextIs, skipBlanks, hb] using hbrace)
    (.inr fun y hy => Option.some.inj hy ▸ hb)

theorem passed_callLine : Passed before (callLine name).toList rest := by
  rw [toList_callLine]
  exact .append (passed_operand hword hne (by decide)) (.cons (.mark (by decide))
    (.append (passed_operand hword hne (by decide)) (.mark (by decide))))

section LineStart

variable (hbefore : ∀ x, before.head? = some x → isWordChar x = false)
include hbefore

/-- The word behind a first word that binds it. -/
theorem passed_binding {w : String} (hw : w ∈ bindingWords)
    (hrest : ∀ x, rest.head? = some x → isWordChar x = false) (hbrace : nextIs '{' rest = false) :
    Passed before (w.toList ++ ' ' :: name.toList) rest := by
  have words : ∀ w ∈ bindingWords, (∀ x ∈ w.toList, isWordChar x) ∧ w.toList ≠ [] ∧
      String.ofList w.toList ≠ "exec" ∧ String.ofList w.toList ∉ ["endpoint", "workflow", "job"] := by decide
  obtain ⟨hchars, hw', hexec, hplain⟩ := words w hw
  refine .append (.word hchars hw' (stops_cons rfl _) hexec (.inl hplain)) (.cons .blank ?_)
  exact .bound hword hne hrest hbrace (Passed.followsBindingWord_of_mem hw hbefore)

theorem passed_variableLine (hrest : ∀ x, rest.head? = some x → isWordChar x = false) :
    Passed before (variableLine name).toList rest := by
  rw [toList_variableLine]
  refine .append (k := ['v', 'a', 'r'] ++ ' ' :: name.toList) ?_ ?_
  · exact passed_binding hword hne hbefore (w := "var") (by decide) (stops_cons rfl _) rfl
  · exact .cons .blank (.cons (.mark (by decide)) (.cons .blank (.digits ⟨by decide, by decide⟩ hrest)))

theorem passed_loopLine : Passed before (loopLine name).toList rest := by
  rw [toList_loopLine]
  refine .append (k := ['f', 'o', 'r'] ++ ' ' :: name.toList) ?_ (.cons .blank (.append (k := ['i', 'n']) ?_
    (.cons .blank (.append ?_ (.cons .blank (.braces ?_))))))
  · exact passed_binding hword hne hbefore (w := "for") (by decide) (stops_cons rfl _) rfl
  · exact .word (by decide) (by decide) (stops_cons rfl _) (by decide) (.inl (by decide))
  · exact .cons (.mark (by decide)) (.append (passed_operand hword hne (by decide)) (.mark (by decide)))
  · have blank : Passed.IsToken ' ' := .inl rfl
    have equals : Passed.IsToken '=' := .inr rfl
    simpa [or_imp, forall_and, blank, equals] using isToken_wordChars hword

theorem passed_functionLine : Passed before (functionLine name).toList rest := by
  rw [toList_functionLine]
  refine .append (k := ['f', 'u', 'n', 'c', 't', 'i', 'o', 'n'] ++ ' ' :: name.toList) ?_
    (.cons (.mark (by decide)) (.append ?_ (.cons (.mark (by decide)) (.cons .blank (.braces ?_)))))
  · exact passed_binding hword hne hbefore (w := "function") (by decide) (stops_cons rfl _) rfl
  · exact passed_operand hword hne (by decide)
  · have blank : Passed.IsToken ' ' := .inl rfl
    have letters : ∀ x ∈ ['r', 'e', 't', 'u', 'r', 'n'], Passed.IsToken x :=
      fun x hx => .inr (by revert x; decide)
    simpa [or_imp, forall_and, blank, letters] using isToken_wordChars hword

end LineStart

theorem passedLine_usage : ∀ line ∈ usageLines name, PassedLine line.toList := by
  simp only [usageLines, List.forall_mem_cons]
  exact ⟨fun _ _ hbefore hrest => passed_variableLine hword hne hbefore hrest,
    fun _ _ _ hrest => passed_sumLine hword hne hrest, fun _ _ _ _ => passed_callLine hword hne,
    fun _ _ hbefore _ => passed_loopLine hword hne hbefore,
    fun _ _ hbefore _ => passed_functionLine hword hne hbefore, nofun⟩

/-- No region is found in a line that uses the word. -/
theorem find_usageLine {line : String} (hline : line ∈ usageLines name) : find line.toList = .ok [] :=
  find_of_passed (passedLine_usage hword hne line hline [] [] nofun nofun)

theorem find_usageText : find (usageText name).toList = .ok [] := by
  rw [toList_usageText]
  refine find_of_passed (passed_intercalate (fun k hk => ?_) nofun)
  obtain ⟨line, hline, rfl⟩ := List.mem_map.1 hk
  exact passedLine_usage hword hne line hline

end Scanner

/-! ## What the grammar yields -/

section Grammar

variable {name : String} (hname : isName name) {n : Nat} {c f : Cursor} (pos : Position)

theorem yields_one (h : c.Passes ['1'] f) (hstop : StopsAt (fun x => x.isDigit || x = '.') f) :
    Yields (n + 3) (.rule .unaryExpr) (.number pos 1) c (skipTrivia f) :=
  yields_numeral pos (.whole ⟨by decide, by decide⟩) (by decide) h hstop

include hname

theorem beginsToken_of_name (l : List Char) : BeginsToken (name.toList ++ l) := by
  have hk := (isName_iff name).1 hname
  obtain ⟨x, xs, hx⟩ := List.exists_cons_of_ne_nil hk.ne_nil
  have hword := hk.chars x (by rw [hx]; exact List.mem_cons_self)
  exact ⟨x, xs ++ l, by rw [hx]; rfl, isBlank_eq_false_of_isWordChar x hword,
    ne_of_isWordChar x '/' hword rfl⟩

/-- The name before the brace that closes a body. -/
theorem exists_lastName (h : c.Passes (name.toList ++ [' ', '}']) f) :
    ∃ d, Yields (n + 9) (.rule .expr) (.ident pos name) c d ∧ d.Passes ['}'] f := by
  obtain ⟨c₁, hc, h₁, hclose⟩ := h.exists_token (b := [' ']) (by decide) ⟨'}', _, rfl, rfl, by decide⟩
  have brace : (skipTrivia c₁).rest.head? = some '}' := by rw [hclose.1]; rfl
  refine ⟨skipTrivia c₁, .whole ?_ (noOperator_of_brace (by decide) brace), hclose⟩
  exact yields_name pos hname hc (.of_rest h₁ rfl) (by rw [brace]; exact nofun)

theorem isPrintable_name : ∀ e ∈ [Expr.ident pos name], e.isPrintable :=
  fun _ he => List.mem_singleton.1 he ▸ hname

theorem reads_name : ∀ e ∈ [Expr.ident pos name], Reads (n + 3) e :=
  fun _ he => List.mem_singleton.1 he ▸ fun _ _ => yields_ident pos hname

theorem yields_variableLine (h : c.Passes (variableLine name).toList f)
    (hstop : StopsAt (fun x => x.isDigit || x = '.') f) (hop : NoOperator (skipTrivia f)) :
    YieldsStmt (n + 11) (.varDecl pos name (some (.number pos 1))) c (skipTrivia f) := by
  rw [toList_variableLine] at h
  obtain ⟨c₁, hvar, h₁, h⟩ := h.exists_token (k := ['v', 'a', 'r']) (b := [' ']) (by decide)
    (beginsToken_of_name hname _)
  obtain ⟨c₂, hc, h₂, h⟩ := h.exists_token (b := [' ']) (by decide) ⟨'=', _, rfl, rfl, by decide⟩
  obtain ⟨c₃, heq, -, h⟩ := h.exists_token (k := ['=']) (b := [' ']) (by decide) ⟨'1', _, rfl, rfl, by decide⟩
  exact .varDecl pos hvar (.of_rest h₁ rfl) hname hc (.of_rest h₂ rfl) heq
    ((yields_one pos h hstop).whole hop)

theorem exists_assigned {l : List Char} (h : c.Passes (name.toList ++ ' ' :: '=' :: ' ' :: l) f)
    (hl : BeginsToken l) : ∃ d, d.Passes l f ∧ ∀ e g, Yields (n + 1) (.rule .expr) e d g →
      YieldsStmt (n + 3) (.assignment pos name e) c g := by
  obtain ⟨c₁, hc, h₁, h⟩ := h.exists_token (b := [' ']) (by decide) ⟨'=', _, rfl, rfl, by decide⟩
  obtain ⟨c₂, heq, -, h⟩ := h.exists_token (k := ['=']) (b := [' ']) (by decide) hl
  exact ⟨_, h, fun e g he => .assignment pos hname hc (.of_rest h₁ rfl) heq he⟩

theorem yields_sumLine (h : c.Passes (sumLine name).toList f)
    (hstop : StopsAt (fun x => x.isDigit || x = '.') f) (hop : NoOperator (skipTrivia f)) :
    YieldsStmt (n + 11) (.assignment pos name (.binary pos (.ident pos name) .add (.number pos 1))) c
      (skipTrivia f) := by
  rw [toList_sumLine] at h
  obtain ⟨d, h, assigned⟩ := exists_assigned (n := n + 8) hname pos h (beginsToken_of_name hname _)
  obtain ⟨c₁, hc, h₁, h⟩ := h.exists_token (b := [' ']) (by decide) ⟨'+', _, rfl, rfl, by decide⟩
  obtain ⟨c₂, hplus, h₂, h⟩ := h.exists_token (k := ['+']) (b := [' ']) (by decide) ⟨'1', _, rfl, rfl, by decide⟩
  have left : Yields (n + 3) (.rule .unaryExpr) (.ident pos name) d (skipTrivia c₁) :=
    yields_name pos hname hc (.of_rest h₁ rfl) (by rw [hplus.1]; exact nofun)
  exact assigned _ _ (left.binary pos (s := .printed .add) hplus h₂ (yields_one pos h hstop) hop)

theorem yields_callLine (h : c.Passes (callLine name).toList f) :
    YieldsStmt (n + 12) (.exprStmt pos (.call pos name [.ident pos name])) c (skipTrivia f) := by
  have hcall : c.Passes (Expr.call pos name [.ident pos name]).display.toList f := by
    rw [toList_callLine] at h
    simpa [Expr.toList_display_call, Expr.displayAll, Expr.display, commaList] using h
  rw [toList_callLine] at h
  obtain ⟨c₁, hc, h⟩ := h.exists_append
  have solid : skipTrivia c₁ = c₁ := skipTrivia_solid (x := '(') (by rw [h.1]; rfl) rfl (by decide)
  exact .call pos hname hc (.of_rest h.1 rfl) (by rw [solid, h.1]; rfl) (yields_callRule pos hname
    (isPrintable_name hname pos) (reads_name hname pos) hcall)

theorem yields_nameList (h : c.Passes ('[' :: (name.toList ++ [']'])) f) (hop : NoOperator (skipTrivia f)) :
    Yields (n + 17) (.rule .expr) (.array pos [.ident pos name]) c (skipTrivia f) := by
  have hlist : c.Passes (Expr.array pos [.ident pos name]).display.toList f := by
    simpa [Expr.toList_display_array, Expr.displayAll, Expr.display, commaList] using h
  exact (yields_array pos (isPrintable_name hname pos) (reads_name hname pos) hlist).whole hop

theorem yields_loopLine (h : c.Passes (loopLine name).toList f) :
    YieldsStmt (n + 19) (.forLoop pos name (.array pos [.ident pos name])
      (.mk pos [.assignment pos name (.ident pos name)])) c (skipTrivia f) := by
  rw [toList_loopLine] at h
  obtain ⟨c₁, hfor, h₁, h⟩ := h.exists_token (k := ['f', 'o', 'r']) (b := [' ']) (by decide)
    (beginsToken_of_name hname _)
  obtain ⟨c₂, hc, h₂, h⟩ := h.exists_token (b := [' ']) (by decide) ⟨'i', _, rfl, rfl, by decide⟩
  obtain ⟨c₃, hin, h₃, h⟩ := h.exists_token (k := ['i', 'n']) (b := [' ']) (by decide)
    ⟨'[', _, rfl, rfl, by decide⟩
  obtain ⟨c₄, hlist, -, h⟩ := h.exists_token (k := '[' :: (name.toList ++ [']'])) (b := [' ']) (by decide)
    ⟨'{', _, rfl, rfl, by decide⟩
  have items := yields_nameList (n := n) hname pos hlist
    (noOperator_of_brace (x := '{') (by decide) (by rw [h.1]; rfl))
  simp only [List.cons_append, List.append_assoc, List.nil_append] at h
  obtain ⟨c₅, hopen, -, h⟩ := h.exists_token (k := ['{']) (b := [' ']) (by decide) (beginsToken_of_name hname _)
  obtain ⟨d, h, assigned⟩ := exists_assigned (n := n + 13) hname pos h (beginsToken_of_name hname _)
  obtain ⟨d₁, value, hclose⟩ := exists_lastName (n := n + 5) hname pos h
  exact .forLoop pos hfor (.of_rest h₁ rfl) hname hc (.of_rest h₂ rfl) hin (.of_rest h₃ rfl) items
    ((assigned _ _ value).inBraces pos hopen hclose)

theorem yields_functionLine (h : c.Passes (functionLine name).toList f) :
    YieldsStmt (n + 14) (.function pos name [name] (.mk pos [.returnStmt pos (some (.ident pos name))])) c
      (skipTrivia f) := by
  rw [toList_functionLine] at h
  simp only [List.cons_append, List.append_assoc, List.nil_append] at h
  obtain ⟨c₁, hword, h₁, h⟩ := h.exists_token (k := ['f', 'u', 'n', 'c', 't', 'i', 'o', 'n']) (b := [' '])
    (by decide) (beginsToken_of_name hname _)
  obtain ⟨c₂, hc, h₂, h⟩ := h.exists_token (b := []) (by decide) ⟨'(', _, rfl, rfl, by decide⟩
  obtain ⟨c₃, hopen, -, h⟩ := h.exists_token (k := ['(']) (b := []) (by decide) (beginsToken_of_name hname _)
  obtain ⟨c₄, hparam, h₄, h⟩ := h.exists_token (b := []) (by decide) ⟨')', _, rfl, rfl, by decide⟩
  obtain ⟨c₅, hclose, -, h⟩ := h.exists_token (k := [')']) (b := [' ']) (by decide) ⟨'{', _, rfl, rfl, by decide⟩
  obtain ⟨c₆, hbrace, -, h⟩ := h.exists_token (k := ['{']) (b := [' ']) (by decide) ⟨'r', _, rfl, rfl, by decide⟩
  obtain ⟨c₇, hreturn, h₇, h⟩ := h.exists_token (k := ['r', 'e', 't', 'u', 'r', 'n']) (b := [' ']) (by decide)
    (beginsToken_of_name hname _)
  obtain ⟨d, value, h⟩ := exists_lastName (n := n) hname pos h
  have body : YieldsStmt (n + 11) _ (skipTrivia c₆) d :=
    .returnStmt pos hreturn (.of_rest h₇ rfl) value
  exact .function pos hword (.of_rest h₁ rfl) hname hc (.of_rest h₂ rfl) hopen hname hparam (.of_rest h₄ rfl)
    hclose (body.inBraces pos hbrace h)

/-- No expression goes on with a line that begins with the name. -/
theorem noOperator_of_line {line : String} {x : Char} {k l : List Char}
    (hline : line.toList = name.toList ++ x :: k) (hx : isWordChar x = false)
    (h : c.Passes (line.toList ++ l) f) : NoOperator c := by
  rw [hline, List.append_assoc] at h
  obtain ⟨d, hc, h⟩ := h.exists_append
  exact noOperator_of_name ((isName_iff name).1 hname) hc (.of_rest h.1 hx)

theorem beginsToken_usageLine : ∀ line ∈ usageLines name, BeginsToken line.toList := by
  simp only [usageLines, List.forall_mem_cons, toList_variableLine, toList_sumLine, toList_callLine,
    toList_loopLine, toList_functionLine]
  exact ⟨⟨'v', _, rfl, rfl, by decide⟩, beginsToken_of_name hname _, beginsToken_of_name hname _,
    ⟨'f', _, rfl, rfl, by decide⟩, ⟨'f', _, rfl, rfl, by decide⟩, List.forall_mem_nil _⟩

/-- The lines are read one behind the other. -/
theorem exists_yields_usageText : ∃ d, d.rest = [] ∧
    YieldsStmts (n + 19) (usageStatements name) (skipTrivia (.start (usageText name).toList)) d := by
  obtain ⟨hvariable, hsum, hcall, hloop, hfunction, -⟩ :
      BeginsToken (variableLine name).toList ∧ BeginsToken (sumLine name).toList ∧
        BeginsToken (callLine name).toList ∧ BeginsToken (loopLine name).toList ∧
          BeginsToken (functionLine name).toList ∧ _ := by
    simpa only [usageLines, List.forall_mem_cons] using beginsToken_usageLine hname
  have htext : (usageText name).toList = (variableLine name).toList ++ (['\n'] ++ ((sumLine name).toList ++
      (['\n'] ++ ((callLine name).toList ++ (['\n'] ++ ((loopLine name).toList ++
        (['\n'] ++ (functionLine name).toList))))))) := by
    simp [usageText, usageLines]
  obtain ⟨f, h, hf⟩ : ∃ f : Cursor, (Cursor.start (usageText name).toList).Passes _ f ∧ f.rest = [] :=
    ⟨_, Cursor.start_passes htext, rfl⟩
  rw [(hvariable.append _).skipTrivia h]
  obtain ⟨f₁, h₁, hr₁, h⟩ := h.exists_token (by decide) (hsum.append _)
  have next₁ := noOperator_of_line hname (toList_sumLine name) rfl h
  obtain ⟨f₂, h₂, hr₂, h⟩ := h.exists_token (by decide) (hcall.append _)
  have next₂ := noOperator_of_line hname (toList_callLine name) rfl h
  obtain ⟨f₃, h₃, -, h⟩ := h.exists_token (by decide) (hloop.append _)
  obtain ⟨f₄, h₄, -, h₅⟩ := h.exists_token (by decide) hfunction
  have hend : (skipTrivia f).rest = [] := by rw [skipTrivia_of_nil hf, hf]
  refine ⟨skipTrivia f, hend, ?_⟩
  refine .cons (yields_variableLine (n := n + 8) hname .unknown h₁ (.of_rest hr₁ rfl) next₁) ?_
  refine .cons (yields_sumLine (n := n + 8) hname .unknown h₂ (.of_rest hr₂ rfl) next₂) ?_
  refine .cons (yields_callLine (n := n + 7) hname .unknown h₃) ?_
  refine .cons (yields_loopLine hname .unknown h₄) ?_
  refine .cons (yields_functionLine (n := n + 5) hname .unknown h₅) (.nil ?_)
  exact misses_of_nil 4 hend (by decide)

end Grammar

/-! ## Sources -/

/-- A source whose text is read as statements up to the end is parsed to them. -/
theorem Source.parse_of_yields (filename : String) {text : List Char} {fuel : Nat} {xs : List Stmt}
    {d : Cursor} (hfind : find text = .ok []) (hf : grammar.fuel text.length ≤ fuel + 1)
    (h : YieldsStmts fuel xs (skipTrivia (.start text)) d) (hd : d.rest = []) :
    ∃ p, Source.parse ⟨filename, text⟩ = .ok p ∧ Stmt.sameAll p.statements xs := by
  let s : Source := ⟨filename, text⟩
  obtain ⟨nodes, g, hmany, rfl, -, hlowers⟩ := h.matches_many
  obtain ⟨trees, hparse, hnodes⟩ := exists_parse_of_statements hf hmany hd
  obtain ⟨xs', hlower, hsame⟩ := hlowers fun offset => s.position (0 + offset)
  exact ⟨_, s.parse_of_statements hfind hparse hnodes hlower, hsame⟩

/-- The grammar accepts no line that uses a reserved word. -/
theorem parse_reserved_usageLine : ∀ name ∈ reservedWords, ∀ line ∈ usageLines name,
    (grammar.parse .program line.toList).toOption.isNone := by
  -- word by word, since all lines together are too many for one evaluation
  simp only [reservedWords, List.forall_mem_cons]
  refine ⟨?_, ?_, ?_, ?_, ?_, ?_, ?_, ?_, ?_, ?_, ?_, ?_, ?_, List.forall_mem_nil _⟩
  all_goals decide +kernel

/-- Every name can be used in all the places, also if it is the word of a declaration; a reserved
word can be used in none of them. -/
theorem Source.parse_usage (filename name : String) :
    (isName name → ∃ p, Source.parse ⟨filename, (usageText name).toList⟩ = .ok p ∧
      Stmt.sameAll p.statements (usageStatements name)) ∧
    (name ∈ reservedWords → ∀ line ∈ usageLines name, ∃ pos m,
      Source.parse ⟨filename, line.toList⟩ = .error ⟨pos, .mismatch m⟩) := by
  constructor
  · intro hname
    have hk := (isName_iff name).1 hname
    obtain ⟨fuel, hf⟩ : ∃ fuel, grammar.fuel (usageText name).toList.length ≤ fuel := ⟨_, Nat.le_refl _⟩
    obtain ⟨d, hd, statements⟩ := exists_yields_usageText (n := fuel) hname
    have enough : grammar.fuel (usageText name).toList.length ≤ fuel + 19 + 1 := by omega
    exact Source.parse_of_yields filename (find_usageText hk.chars hk.ne_nil) enough statements hd
  · intro hname line hline
    have words : ∀ name ∈ reservedWords, (∀ x ∈ name.toList, isWordChar x) ∧ name.toList ≠ [] := by decide
    have hfind : find line.toList = .ok [] := find_usageLine (words name hname).1 (words name hname).2 hline
    have hnone := parse_reserved_usageLine name hname line hline
    cases hparse : grammar.parse .program line.toList with
    | ok trees =>
      rw [hparse] at hnone
      cases hnone
    | error m => exact ⟨_, m.cause, Source.parse_of_mismatch ⟨filename, line.toList⟩ hfind hparse⟩

/-- A word that declares elsewhere, and one that is reserved. -/
theorem Source.parse_usage_contextual :
    (isName "workflow" ∧ ∃ p, Source.parse ⟨"", (usageText "workflow").toList⟩ = .ok p ∧
      Stmt.sameAll p.statements (usageStatements "workflow")) ∧
    ("exec" ∈ reservedWords ∧ ∀ line ∈ usageLines "exec", ∃ pos m,
      Source.parse ⟨"", line.toList⟩ = .error ⟨pos, .mismatch m⟩) := by
  have name : isName "workflow" := by decide
  have reserved : "exec" ∈ reservedWords := by decide
  exact ⟨⟨name, (Source.parse_usage "" "workflow").1 name⟩, reserved, (Source.parse_usage "" "exec").2 reserved⟩

end ServiceLang
