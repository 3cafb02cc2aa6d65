import ServiceLang.Lower.Program
import ServiceLang.Proofs.Grammar.Printed
import ServiceLang.Proofs.Grammar.Program

/-!
Statements where names are used.

`YieldsStmt` says that a statement stands somewhere: the grammar matches one, and its node is
lowered to the statement, up to positions.  Declarations and most statements begin with a word
(`openers`), so where that word stands no other of them does (`matches_opened`).  A name may be
one of the words that are not reserved; but what a declaration goes on with behind its word is
neither an equality sign nor a parenthesis, so assignments and calls are not taken for
declarations (`misses_openers_of_name`).
-/

namespace ServiceLang

open Peg

/-- A name begins with a word character. -/
theorem IsName.head_mem {k : List Char} {c d : Cursor} (hk : IsName k) (h : c.Passes k d) :
    ∀ x, c.rest.head? = some x → x ∈ asciiWhere isWordChar := by
  obtain ⟨x, xs, rfl⟩ := List.exists_cons_of_ne_nil hk.ne_nil
  intro y hy
  rw [h.1] at hy
  have hword := hk.chars x List.mem_cons_self
  exact Option.some.inj hy ▸ mem_asciiWhere (toNat_lt_of_isWordChar x hword) hword

namespace MainGrammar

/-! ## What ends an expression -/

section Behind

variable {fuel : Nat} {c d : Cursor} {k : List Char}

/-- A name is neither of the spellings of a logical operator. -/
theorem misses_logical_of_name {r : Rule} {mark text : String}
    (hr : definition r = ⟨.token, .orElse (.literal mark) (Pattern.word text)⟩)
    (hmark : (Pattern.literal mark : Pattern Rule).avoids (grammar.avoids (asciiWhere isWordChar) 0)
      (asciiWhere isWordChar) false)
    (htext : text ∈ reservedWords) (hk : IsName k) (h : c.Passes k d) (hd : StopsAt isWordChar d) :
    Misses (matchRule grammar fuel) true (.rule r) ⟨.none, .free⟩ c := by
  have words : ∀ text ∈ reservedWords, ∀ x ∈ text.toList, isWordChar x := by decide
  refine misses_of_not_derives fun nodes e hderives => ?_
  obtain ⟨inner, hderives, -⟩ := hderives.of_rule
  rw [show grammar.definition r = _ from hr] at hderives
  cases hderives with
  | first hderives =>
    obtain ⟨x, xs, hx, hne, -⟩ := hderives.exists_first _ 0 hmark
    exact hne (hk.head_mem h x (by rw [hx]; rfl))
  | second hderives =>
    refine not_derives_word [text] (show Spacing.sealed ≠ .free by decide) (fun e nodes h1 => ?_)
      (by simpa using words text htext) h hk.chars hd
      (fun hmem => hk.unreserved (List.mem_singleton.1 hmem ▸ htext)) _ _ hderives
    cases h1 with
    | literal h1 => exact ⟨text, List.mem_cons_self, Cursor.passes_of_strip? h1⟩

/-- A name goes on with no expression before it. -/
theorem noOperator_of_name (hk : IsName k) (h : c.Passes k d) (hd : StopsAt isWordChar d) :
    NoOperator c := by
  intro l fuel
  cases l with
  | or => exact misses_logical_of_name rfl (by decide) (by decide) hk h hd
  | and => exact misses_logical_of_name rfl (by decide) (by decide) hk h hd
  | cmp | add | mul => exact misses_of_avoids _ 2 (by decide) (hk.head_mem h)

/-- Neither does a brace. -/
theorem noOperator_of_brace {x : Char} (hx : x ∈ ['{', '}']) (h : c.rest.head? = some x) :
    NoOperator c := by
  intro l fuel
  exact misses_of_head ['{', '}'] 2 h hx (by cases l <;> decide)

end Behind

/-! ## Words at the beginning of statements -/

section Words

variable {fuel : Nat} {c d g : Cursor} {k : List Char}

/-- The rule of a word matches where the word stands. -/
theorem matches_kw (w : Word) (h : c.Passes w.text.toList d) (hd : StopsAt isWordChar d) :
    Matches (matchRule grammar (fuel + 1)) true (kw w) ⟨.none, .free⟩ c
      [.node (.word w) c d.offset []] d :=
  .token rfl (matches_word nofun h hd)

/-- The rule of a word derives nothing where another word stands. -/
theorem not_derives_kw {w : Word} (h : c.Passes k d) (hk : ∀ x ∈ k, isWordChar x)
    (hd : StopsAt isWordChar d) (hne : String.ofList k ≠ w.text) {sep : Bool} {mode : Mode} {e : Cursor}
    {nodes : List (ParseTree Rule)} : ¬Derives grammar sep (kw w) mode c nodes e := by
  intro hderives
  obtain ⟨inner, hderives, -⟩ := hderives.of_rule
  have hword : ∀ text ∈ [w.text], ∀ x ∈ text.toList, isWordChar x := by cases w <;> decide
  refine not_derives_word [w.text] (show Spacing.sealed ≠ .free by decide) (fun e nodes h1 => ?_) hword h
    hk hd (by simpa using hne) _ _ hderives
  cases h1 with
  | literal h1 => exact ⟨w.text, List.mem_cons_self, Cursor.passes_of_strip? h1⟩

/-- The statements and declarations that begin with a word of their own, in the order in which
they are tried. -/
def openers : List (Rule × Word) :=
  [(.varDecl, .varWord), (.ifStmt, .ifWord), (.forLoop, .forWord), (.functionDecl, .functionWord),
    (.returnStmt, .returnWord), (.execBlock, .execWord), (.configDecl, .config),
    (.databaseDecl, .database), (.authDecl, .auth), (.roleDecl, .role),
    (.middlewareDecl, .middleware), (.eventDecl, .event), (.eventHandler, .on),
    (.integrationDecl, .integration), (.webhookDecl, .webhook)]

/-- All forms of a statement, in the order in which they are tried. -/
def forms : List Rule := openers.map Prod.fst ++ [.block, .assignment, .exprStmt]

theorem exists_definition_opener : ∀ p ∈ openers, ∃ kind q, definition p.1 = ⟨kind, .andThen (kw p.2) q⟩ := by
  simp only [openers, List.forall_mem_cons]
  exact ⟨⟨_, _, rfl⟩, ⟨_, _, rfl⟩, ⟨_, _, rfl⟩, ⟨_, _, rfl⟩, ⟨_, _, rfl⟩, ⟨_, _, rfl⟩, ⟨_, _, rfl⟩,
    ⟨_, _, rfl⟩, ⟨_, _, rfl⟩, ⟨_, _, rfl⟩, ⟨_, _, rfl⟩, ⟨_, _, rfl⟩, ⟨_, _, rfl⟩, ⟨_, _, rfl⟩, ⟨_, _, rfl⟩,
    List.forall_mem_nil _⟩

/-- What begins with another word is missed. -/
theorem misses_opener {p : Rule × Word} (hp : p ∈ openers) (h : c.Passes k d)
    (hk : ∀ x ∈ k, isWordChar x) (hd : StopsAt isWordChar d) (hne : String.ofList k ≠ p.2.text) :
    Misses (matchRule grammar fuel) true (.rule p.1) ⟨.none, .free⟩ c := by
  refine misses_of_not_derives fun nodes e hderives => ?_
  obtain ⟨kind, q, hdef⟩ := exists_definition_opener p hp
  obtain ⟨inner, hderives, -⟩ := hderives.of_rule
  rw [show grammar.definition p.1 = _ from hdef] at hderives
  obtain ⟨_, _, _, -, hword, -⟩ := hderives.of_andThen
  exact not_derives_kw h hk hd hne hword

/-- A statement of the form at this place, where no form before it matches. -/
theorem matches_form (i : Nat) {r : Rule} {nodes : List (ParseTree Rule)} (hi : forms[i]? = some r)
    (hbefore : ∀ q ∈ forms.take i, Misses (matchRule grammar fuel) true (.rule q) ⟨.none, .free⟩ c)
    (h : Matches (matchRule grammar fuel) true (.rule r) ⟨.none, .free⟩ c nodes g) :
    Matches (matchRule grammar (fuel + 1)) true (.rule .statement) ⟨.none, .free⟩ c nodes g := by
  refine .silent rfl (.choice_of_getElem? (l := forms.map .rule) i ?_ ?_ h)
  · rw [List.getElem?_map, hi]
    rfl
  · intro q hq
    rw [← List.map_take] at hq
    obtain ⟨r, hr, rfl⟩ := List.mem_map.1 hq
    exact hbefore r hr

theorem matches_opened (i : Nat) {r : Rule} {w : Word} {nodes : List (ParseTree Rule)}
    (hi : openers[i]? = some (r, w)) (hother : ∀ p ∈ openers.take i, w.text ≠ p.2.text)
    (hw : c.Passes w.text.toList d) (hd : StopsAt isWordChar d)
    (h : Matches (matchRule grammar fuel) true (.rule r) ⟨.none, .free⟩ c nodes g) :
    Matches (matchRule grammar (fuel + 1)) true (.rule .statement) ⟨.none, .free⟩ c nodes g := by
  have hlt : i < openers.length := (List.getElem?_eq_some_iff.1 hi).1
  have htake : forms.take i = (openers.take i).map Prod.fst := by
    rw [forms, List.take_append_of_le_length (by rw [List.length_map]; omega), List.map_take]
  have hword : ∀ x ∈ w.text.toList, isWordChar x := by cases w <;> decide
  refine matches_form i ?_ (fun q hq => ?_) h
  · rw [forms, List.getElem?_append_left (by rw [List.length_map]; omega), List.getElem?_map, hi]
    rfl
  · rw [htake] at hq
    obtain ⟨p, hp, rfl⟩ := List.mem_map.1 hq
    exact misses_opener (List.mem_of_mem_take hp) hw hword hd (by rw [String.ofList_toList]; exact hother p hp)

/-! ## Names at the beginning of statements -/

/-- An equality sign or a parenthesis stands here, as behind a name that is assigned or called. -/
def UsesName (c : Cursor) : Prop := ∃ x ∈ ['=', '('], c.rest.head? = some x

theorem UsesName.misses {q : Pattern Rule} (hc : UsesName c)
    (hq : q.avoids (grammar.avoids ['=', '('] 2) ['=', '('] true) :
    Misses (matchRule grammar fuel) true q ⟨.none, .free⟩ c := by
  obtain ⟨x, hx, hhead⟩ := hc
  exact misses_of_head ['=', '('] 2 hhead hx hq

theorem UsesName.skipTrivia_eq (hc : UsesName c) : skipTrivia c = c := by
  have solid : ∀ x ∈ ['=', '('], isBlank x = false ∧ x ≠ '/' := by decide
  obtain ⟨x, hx, hhead⟩ := hc
  exact skipTrivia_solid hhead (solid x hx).1 (solid x hx).2

/-- The word of a declaration is reserved, or the declaration goes on behind it with something
else than the use of a name. -/
theorem reserved_or_misses_behind : ∀ p ∈ openers, p.2.text ∈ reservedWords ∨
    ∃ q, definition p.1 = ⟨.spaced, .andThen (kw p.2) q⟩ ∧ ∀ {fuel : Nat} {c : Cursor}, UsesName c →
      Misses (matchRule grammar fuel) true q ⟨.none, .free⟩ c := by
  have auth {fuel : Nat} {c : Cursor} (hc : UsesName c) : Misses (matchRule grammar fuel) true
      (.andThen (.optional (lex .ident)) (braces properties)) ⟨.none, .free⟩ c := by
    refine .right (.without (hc.misses (by decide))) ?_
    show Misses _ _ _ _ (skipTrivia c)
    rw [hc.skipTrivia_eq]
    exact hc.misses (by decide)
  simp only [openers, List.forall_mem_cons]
  exact ⟨.inl (by decide), .inl (by decide), .inl (by decide), .inl (by decide), .inl (by decide),
    .inl (by decide), .inr ⟨_, rfl, fun hc => hc.misses (by decide)⟩,
    .inr ⟨_, rfl, fun hc => hc.misses (by decide)⟩, .inr ⟨_, rfl, auth⟩,
    .inr ⟨_, rfl, fun hc => hc.misses (by decide)⟩, .inr ⟨_, rfl, fun hc => hc.misses (by decide)⟩,
    .inr ⟨_, rfl, fun hc => hc.misses (by decide)⟩, .inr ⟨_, rfl, fun hc => hc.misses (by decide)⟩,
    .inr ⟨_, rfl, fun hc => hc.misses (by decide)⟩, .inr ⟨_, rfl, fun hc => hc.misses (by decide)⟩,
    List.forall_mem_nil _⟩

/-- A name that is assigned or called begins no declaration, even if it is the word of one. -/
theorem misses_openers_of_name (hk : IsName k) (h : c.Passes k d) (hd : StopsAt isWordChar d)
    (huse : UsesName (skipTrivia d)) {p : Rule × Word} (hp : p ∈ openers) :
    Misses (matchRule grammar (fuel + 2)) true (.rule p.1) ⟨.none, .free⟩ c := by
  by_cases hword : String.ofList k = p.2.text
  · rcases reserved_or_misses_behind p hp with hres | ⟨q, hdef, hq⟩
    · exact absurd (hword ▸ hres) hk.unreserved
    · have keyword : Matches (matchRule grammar (fuel + 1)) true (kw p.2) ⟨.none, .free⟩ c _ d :=
        matches_kw p.2 (by rw [← hword, String.toList_ofList]; exact h) hd
      refine .rule ?_
      rw [show grammar.definition p.1 = _ from hdef]
      exact .right keyword (hq huse)
  · exact misses_opener hp h hk.chars hd hword

theorem misses_block_of_name (hk : IsName k) (h : c.Passes k d) :
    Misses (matchRule grammar fuel) true (.rule .block) ⟨.none, .free⟩ c :=
  misses_of_avoids _ 2 (by decide) (hk.head_mem h)

/-- Where a name is used, only assignments and calls are left of the forms of a statement. -/
theorem misses_forms_of_name (hk : IsName k) (h : c.Passes k d) (hd : StopsAt isWordChar d)
    (huse : UsesName (skipTrivia d)) :
    ∀ q ∈ forms.take 16, Misses (matchRule grammar (fuel + 2)) true (.rule q) ⟨.none, .free⟩ c := by
  intro q hq
  rcases List.mem_append.1 (show q ∈ openers.map Prod.fst ++ [.block] from hq) with hq | hq
  · obtain ⟨p, hp, rfl⟩ := List.mem_map.1 hq
    exact misses_openers_of_name hk h hd huse hp
  · rw [List.mem_singleton.1 hq]
    exact misses_block_of_name hk h

end Words

/-! ## Lowering, node by node -/

section Lowering

variable {place : Nat → Position} {rule : Rule} {start : Cursor} {stop : Nat}
  {t : ParseTree Rule} {ts : List (ParseTree Rule)} {parts : List StmtPart}

theorem lowerStmt_of_parts {x : Stmt}
    (hdecl : lowerDeclaration? place (.node rule start stop ts) = none)
    (hparts : lowerStmtParts place ts = .ok parts)
    (h : assembleStmt (place start.offset) rule parts = some x) :
    lowerStmt place (.node rule start stop ts) = .ok x := by
  rw [lowerStmt, hdecl]
  dsimp only
  rw [hparts]
  dsimp only
  rw [h]

theorem lowerStmtParts_token (ht : (isStatement t.rule || t.rule = .expr || t.rule = .call ||
      t.rule = .paramList) = false) (hts : lowerStmtParts place ts = .ok parts) :
    lowerStmtParts place (t :: ts) = .ok (.token t.rule t.text :: parts) := by
  simp only [Bool.or_eq_false_iff] at ht
  obtain ⟨⟨⟨hstmt, hexpr⟩, hcall⟩, hparams⟩ := ht
  rw [lowerStmtParts, hts, if_neg (of_decide_eq_false hparams)]
  simp only [hstmt, hexpr, hcall]
  rfl

theorem lowerStmtParts_expr {e : Expr} (ht : t.rule = .expr ∨ t.rule = .call)
    (h : lowerExpr place t = .ok e) (hts : lowerStmtParts place ts = .ok parts) :
    lowerStmtParts place (t :: ts) = .ok (.expr e :: parts) := by
  have hstmt : isStatement t.rule = false := by rcases ht with ht | ht <;> rw [ht] <;> rfl
  have hexpr : (t.rule = .expr || t.rule = .call) = true := by simpa using ht
  rw [lowerStmtParts, hts, h]
  simp only [hstmt, hexpr]
  rfl

theorem lowerStmtParts_names (ht : t.rule = .paramList) (hts : lowerStmtParts place ts = .ok parts) :
    lowerStmtParts place (t :: ts) = .ok (.names (t.children.map ParseTree.string) :: parts) := by
  rw [lowerStmtParts, hts, ht]
  rfl

theorem lowerStmtParts_stmt {x : Stmt} (ht : isStatement t.rule) (h : lowerStmt place t = .ok x)
    (hts : lowerStmtParts place ts = .ok parts) :
    lowerStmtParts place (t :: ts) = .ok (.stmt x :: parts) := by
  rw [lowerStmtParts, hts, h, if_pos ht]
  rfl

theorem lowerStmtParts_stmts {xs : List Stmt} (hts : ∀ t ∈ ts, isStatement t.rule)
    (h : ts.mapM (lowerStmt place) = .ok xs) : lowerStmtParts place ts = .ok (xs.map .stmt) := by
  replace h := forall₂_of_mapM h
  induction h with
  | nil => rfl
  | cons hx _ ih =>
    obtain ⟨ht, hts⟩ := List.forall_mem_cons.1 hts
    exact lowerStmtParts_stmt ht hx (ih hts)

end Lowering

/-! ## Statements -/

/-- A statement of this form stands here, up to positions; trivia behind it ends at the second
cursor. -/
def YieldsForm (fuel : Nat) (r : Rule) (x : Stmt) (c d : Cursor) : Prop :=
  ∃ nodes f, Matches (matchRule grammar fuel) true (.rule r) ⟨.none, .free⟩ c
      [.node r c f.offset nodes] f ∧ skipTrivia f = d ∧
    ∀ place, ∃ x', lowerStmt place (.node r c f.offset nodes) = .ok x' ∧ x'.same x

/-- A statement stands here. -/
def YieldsStmt (fuel : Nat) (x : Stmt) (c d : Cursor) : Prop :=
  ∃ tree f, Matches (matchRule grammar fuel) true (.rule .statement) ⟨.none, .free⟩ c [tree] f ∧
    skipTrivia f = d ∧ ∀ place, ∃ x', lowerStmt place tree = .ok x' ∧ x'.same x

/-- Statements in braces stand here. -/
def YieldsBlock (fuel : Nat) (b : Block) (c d : Cursor) : Prop :=
  ∃ nodes f, Matches (matchRule grammar fuel) true (.rule .block) ⟨.none, .free⟩ c
      [.node .block c f.offset nodes] f ∧ skipTrivia f = d ∧
    ∀ place, ∃ b', lowerStmt place (.node .block c f.offset nodes) = .ok (.block b') ∧ b'.same b

/-- Statements stand here, one behind the other, and behind them no further one. -/
inductive YieldsStmts (fuel : Nat) : List Stmt → Cursor → Cursor → Prop
  | nil {c : Cursor} : Misses (matchRule grammar fuel) true (.rule .statement) ⟨.none, .free⟩ c →
      YieldsStmts fuel [] c c
  | cons {x : Stmt} {xs : List Stmt} {c d e : Cursor} : YieldsStmt fuel x c d →
      YieldsStmts fuel xs d e → YieldsStmts fuel (x :: xs) c e

/-- What a spaced rule leaves is a node of the rule. -/
theorem rule_of_matches {fuel : Nat} {r : Rule} {t : ParseTree Rule} {c d : Cursor}
    (hr : (definition r).kind = .spaced)
    (h : Matches (matchRule grammar fuel) true (.rule r) ⟨.none, .free⟩ c [t] d) : t.rule = r := by
  obtain ⟨inner, hnode, -⟩ := h.derives.of_spaced hr
  rw [List.singleton_inj.1 hnode]
  rfl

section Statements

variable {fuel : Nat} {c c₁ c₂ c₃ c₄ c₅ d f g : Cursor} {name : String} {e : Expr} {x : Stmt}

theorem YieldsForm.opened (i : Nat) {r : Rule} {w : Word} (h : YieldsForm fuel r x c d)
    (hi : openers[i]? = some (r, w)) (hother : ∀ p ∈ openers.take i, w.text ≠ p.2.text)
    (hw : c.Passes w.text.toList c₁) (h₁ : StopsAt isWordChar c₁) : YieldsStmt (fuel + 1) x c d := by
  obtain ⟨nodes, f, hmatch, hf, hlower⟩ := h
  exact ⟨_, f, matches_opened i hi hother hw h₁ hmatch, hf, hlower⟩

/-- The statement that gives a variable a value, as it is matched and as it is lowered. -/
theorem matches_varDecl {tree : ParseTree Rule} (hvar : c.Passes "var".toList c₁)
    (h₁ : StopsAt isWordChar c₁) (hname : isName name) (hc : (skipTrivia c₁).Passes name.toList c₂)
    (h₂ : StopsAt isWordChar c₂) (heq : (skipTrivia c₂).Passes ['='] c₃)
    (h : Matches (matchRule grammar (fuel + 1)) true (.rule .expr) ⟨.none, .free⟩ (skipTrivia c₃) [tree] f) :
    ∃ node, Matches (matchRule grammar (fuel + 3)) true (.rule .statement) ⟨.none, .free⟩ c [node] f ∧
      ∀ place e, lowerExpr place tree = .ok e →
        lowerStmt place node = .ok (.varDecl (place c.offset) name (some e)) := by
  have pattern : Matches (matchRule grammar (fuel + 1)) true (definition .varDecl).pattern ⟨.none, .free⟩ c
      [.node (.word .varWord) c c₁.offset [], .node (.lexeme .ident) (skipTrivia c₁) c₂.offset [], tree] f :=
    (matches_kw .varWord hvar h₁).gapped rfl ((matches_name_node ((isName_iff name).1 hname) hc h₂).gapped rfl
      (.with ((Matches.literal heq).gapped (a := []) rfl h)))
  refine ⟨_, matches_opened 0 rfl (List.forall_mem_nil _) hvar h₁ (matches_spaced rfl pattern), fun place e hlower => ?_⟩
  refine lowerStmt_of_parts rfl (lowerStmtParts_token rfl (lowerStmtParts_token rfl
    (lowerStmtParts_expr (.inl (rule_of_matches rfl h)) hlower rfl))) ?_
  rw [text_node hc]
  exact congrArg (fun n => some (Stmt.varDecl _ n (some e))) String.ofList_toList

theorem YieldsStmt.varDecl (pos : Position) (hvar : c.Passes "var".toList c₁) (h₁ : StopsAt isWordChar c₁)
    (hname : isName name) (hc : (skipTrivia c₁).Passes name.toList c₂) (h₂ : StopsAt isWordChar c₂)
    (heq : (skipTrivia c₂).Passes ['='] c₃) (he : Yields (fuel + 1) (.rule .expr) e (skipTrivia c₃) d) :
    YieldsStmt (fuel + 3) (.varDecl pos name (some e)) c d := by
  obtain ⟨tree, f, hmatch, hf, -, hlower⟩ := he
  obtain ⟨node, hstatement, hstmt⟩ := matches_varDecl hvar h₁ hname hc h₂ heq hmatch
  refine ⟨node, f, hstatement, hf, fun place => ?_⟩
  obtain ⟨e', hlower, hsame⟩ := hlower place
  exact ⟨_, hstmt place e' hlower, by simp [Stmt.same, sameOption, hsame]⟩

theorem YieldsStmt.assignment (pos : Position) (hname : isName name) (hc : c.Passes name.toList c₁)
    (h₁ : StopsAt isWordChar c₁) (heq : (skipTrivia c₁).Passes ['='] c₂)
    (he : Yields (fuel + 1) (.rule .expr) e (skipTrivia c₂) d) :
    YieldsStmt (fuel + 3) (.assignment pos name e) c d := by
  have hk := (isName_iff name).1 hname
  obtain ⟨tree, f, hmatch, hf, -, hlower⟩ := he
  have once : Misses (matchRule grammar (fuel + 1)) true (.literal "=") ⟨.negative, .free⟩ (skipTrivia c₂) := by
    refine .literal fun e he => ?_
    obtain ⟨x, xs, hx, hne, -⟩ := hmatch.derives.exists_first ['='] 12 (by decide)
    have hx := he.1.symm.trans hx
    exact hne (by rw [← (List.cons.inj hx).1]; exact List.mem_cons_self)
  have value : Matches (matchRule grammar (fuel + 1)) true (.andThen (.notHere (.literal "=")) (.rule .expr))
      ⟨.none, .free⟩ (skipTrivia c₂) [tree] f :=
    Matches.gapped (a := []) (.notHere once) (skipTrivia_skipTrivia c₂) hmatch
  have pattern : Matches (matchRule grammar (fuel + 1)) true (definition .assignment).pattern ⟨.none, .free⟩ c
      [.node (.lexeme .ident) c c₁.offset [], tree] f :=
    (matches_name_node hk hc h₁).gapped rfl ((Matches.literal heq).gapped (a := []) rfl value)
  have uses : UsesName (skipTrivia c₁) := ⟨'=', List.mem_cons_self, by rw [heq.1]; rfl⟩
  refine ⟨_, f, matches_form 16 rfl (misses_forms_of_name hk hc h₁ uses) (matches_spaced rfl pattern), hf,
    fun place => ?_⟩
  obtain ⟨e', hlower, hsame⟩ := hlower place
  refine ⟨.assignment (place c.offset) name e', lowerStmt_of_parts rfl (lowerStmtParts_token rfl
    (lowerStmtParts_expr (.inl (rule_of_matches rfl hmatch)) hlower rfl)) ?_, by simp [Stmt.same, hsame]⟩
  rw [text_node hc]
  exact congrArg (fun n => some (Stmt.assignment _ n e')) String.ofList_toList

theorem YieldsStmt.call (pos : Position) (hname : isName name) (hc : c.Passes name.toList c₁)
    (h₁ : StopsAt isWordChar c₁) (hparen : (skipTrivia c₁).rest.head? = some '(')
    (he : Yields (fuel + 1) (.rule .call) e c d) : YieldsStmt (fuel + 3) (.exprStmt pos e) c d := by
  have hk := (isName_iff name).1 hname
  have uses : UsesName (skipTrivia c₁) := ⟨'(', by decide, hparen⟩
  obtain ⟨tree, f, hmatch, hf, -, hlower⟩ := he
  have assignment : Misses (matchRule grammar (fuel + 2)) true (.rule .assignment) ⟨.none, .free⟩ c := by
    refine .rule (.right (matches_name_node hk hc h₁) (.left (.literal fun e he => ?_)))
    have he : (skipTrivia c₁).Passes ['='] e := he
    rw [he.1] at hparen
    cases hparen
  refine ⟨_, f, matches_form 17 rfl (fun q hq => ?_) (matches_spaced rfl hmatch), hf, fun place => ?_⟩
  · rcases List.mem_append.1 (show q ∈ forms.take 16 ++ [.assignment] from hq) with hq | hq
    · exact misses_forms_of_name hk hc h₁ uses q hq
    · rw [List.mem_singleton.1 hq]
      exact assignment
  · obtain ⟨e', hlower, hsame⟩ := hlower place
    exact ⟨.exprStmt (place c.offset) e', lowerStmt_of_parts rfl
      (lowerStmtParts_expr (.inr (rule_of_matches rfl hmatch)) hlower rfl) rfl, by simp [Stmt.same, hsame]⟩

theorem YieldsStmt.returnStmt (pos : Position) (hword : c.Passes "return".toList c₁)
    (h₁ : StopsAt isWordChar c₁) (he : Yields (fuel + 1) (.rule .expr) e (skipTrivia c₁) d) :
    YieldsStmt (fuel + 3) (.returnStmt pos (some e)) c d := by
  obtain ⟨tree, f, hmatch, hf, -, hlower⟩ := he
  have pattern : Matches (matchRule grammar (fuel + 1)) true (definition .returnStmt).pattern ⟨.none, .free⟩ c
      [.node (.word .returnWord) c c₁.offset [], tree] f :=
    (matches_kw .returnWord hword h₁).gapped rfl (.with hmatch)
  refine YieldsForm.opened 4 ⟨_, f, matches_spaced rfl pattern, hf, fun place => ?_⟩ rfl (by decide) hword h₁
  obtain ⟨e', hlower, hsame⟩ := hlower place
  exact ⟨.returnStmt (place c.offset) (some e'), lowerStmt_of_parts rfl (lowerStmtParts_token rfl
    (lowerStmtParts_expr (.inl (rule_of_matches rfl hmatch)) hlower rfl)) rfl,
    by simp [Stmt.same, sameOption, hsame]⟩

theorem YieldsStmts.exists_rounds {xs : List Stmt} (h : YieldsStmts fuel xs c d) :
    ∀ f, skipTrivia f = c → ∃ trees g,
      Rounds (matchRule grammar fuel) true (.rule .statement) ⟨.none, .free⟩ f trees g ∧ skipTrivia g = d ∧
        ∀ place, ∃ xs', trees.mapM (lowerStmt place) = .ok xs' ∧ Stmt.sameAll xs' xs := by
  induction h with
  | nil hmiss =>
    rintro f rfl
    exact ⟨[], f, .done hmiss, rfl, fun _ => ⟨[], rfl, rfl⟩⟩
  | cons hx _ ih =>
    rintro f rfl
    obtain ⟨tree, e, hmatch, he, hlower⟩ := hx
    obtain ⟨trees, g, hrounds, hg, hlowers⟩ := ih e he
    have shorter : e.rest.length < f.rest.length := by
      obtain ⟨-, -, -, -, -, hlt⟩ := exists_of_statement hmatch.derives
      have := hmatch.derives.reaches.length_lt hlt
      have := (reaches_skipTrivia f).length_le
      omega
    refine ⟨[tree] ++ trees, g, .round hmatch shorter hrounds, hg, fun place => ?_⟩
    obtain ⟨x', hlower, hsame⟩ := hlower place
    obtain ⟨xs', hlowers, hsames⟩ := hlowers place
    refine ⟨x' :: xs', ?_, by simp [Stmt.sameAll, hsame, hsames]⟩
    rw [List.singleton_append, List.mapM_cons, hlower, hlowers]
    rfl

theorem YieldsStmts.matches_many {xs : List Stmt} (h : YieldsStmts fuel xs (skipTrivia c) d) :
    ∃ trees g, Matches (matchRule grammar fuel) true (.many (.rule .statement)) ⟨.none, .free⟩
        (skipTrivia c) trees g ∧ skipTrivia g = d ∧ (∀ t ∈ trees, isStatement t.rule) ∧
      ∀ place, ∃ xs', trees.mapM (lowerStmt place) = .ok xs' ∧ Stmt.sameAll xs' xs := by
  have solid := skipTrivia_skipTrivia c
  obtain ⟨trees, g, hrounds, hg, hlowers⟩ := h.exists_rounds _ solid
  have hmany := hrounds.matches_many solid
  exact ⟨trees, g, hmany, hg, fun t ht => ((pairwise_of_statements hmany.derives).2 t ht).2.1, hlowers⟩

theorem all_isStmt_map (xs : List Stmt) : (xs.map StmtPart.stmt).all StmtPart.isStmt := by
  induction xs with
  | nil => rfl
  | cons x xs ih => exact ih

theorem statements_map (xs : List Stmt) : StmtPart.statements (xs.map .stmt) = xs := by
  induction xs with
  | nil => rfl
  | cons x xs ih => exact congrArg (x :: ·) ih

/-- Statements and the braces around them. -/
theorem YieldsStmts.block (pos : Position) {xs : List Stmt} (hopen : c.Passes ['{'] c₁)
    (h : YieldsStmts fuel xs (skipTrivia c₁) d) (hclose : d.Passes ['}'] g) :
    YieldsBlock (fuel + 1) (.mk pos xs) c (skipTrivia g) := by
  obtain ⟨trees, f, hmany, rfl, hstmts, hlowers⟩ := h.matches_many
  have pattern : Matches (matchRule grammar fuel) true (definition .block).pattern ⟨.none, .free⟩ c
      ([] ++ (trees ++ [])) g :=
    (Matches.literal hopen).gapped (a := []) rfl (hmany.gapped (b := []) rfl (.literal hclose))
  rw [List.nil_append, List.append_nil] at pattern
  refine ⟨trees, g, matches_spaced rfl pattern, rfl, fun place => ?_⟩
  obtain ⟨xs', hlowers, hsame⟩ := hlowers place
  refine ⟨.mk (place c.offset) xs', lowerStmt_of_parts rfl (lowerStmtParts_stmts hstmts hlowers) ?_,
    by simpa [Block.same] using hsame⟩
  show (if (xs'.map StmtPart.stmt).all StmtPart.isStmt
    then some (Stmt.block (.mk _ (StmtPart.statements (xs'.map .stmt)))) else none) = _
  rw [all_isStmt_map, statements_map]
  rfl

theorem YieldsStmt.inBraces (pos : Position) (hopen : c.Passes ['{'] c₁)
    (h : YieldsStmt fuel x (skipTrivia c₁) d) (hclose : d.Passes ['}'] f) :
    YieldsBlock (fuel + 1) (.mk pos [x]) c (skipTrivia f) := by
  refine YieldsStmts.block pos hopen (.cons h (.nil ?_)) hclose
  exact misses_of_head ['}'] 4 (by rw [hclose.1]; rfl) List.mem_cons_self (by decide)

/-- A loop over the items of an expression. -/
theorem YieldsStmt.forLoop (pos : Position) {b : Block} (hfor : c.Passes "for".toList c₁)
    (h₁ : StopsAt isWordChar c₁) (hname : isName name) (hc : (skipTrivia c₁).Passes name.toList c₂)
    (h₂ : StopsAt isWordChar c₂) (hin : (skipTrivia c₂).Passes "in".toList c₃) (h₃ : StopsAt isWordChar c₃)
    (he : Yields (fuel + 1) (.rule .expr) e (skipTrivia c₃) c₄) (hb : YieldsBlock (fuel + 1) b c₄ d) :
    YieldsStmt (fuel + 3) (.forLoop pos name e b) c d := by
  obtain ⟨tree, f, hmatch, rfl, -, hlower⟩ := he
  obtain ⟨nodes, g, hblock, hg, hlowers⟩ := hb
  have pattern : Matches (matchRule grammar (fuel + 1)) true (definition .forLoop).pattern ⟨.none, .free⟩ c
      [.node (.word .forWord) c c₁.offset [], .node (.lexeme .ident) (skipTrivia c₁) c₂.offset [],
        .node (.word .inWord) (skipTrivia c₂) c₃.offset [], tree,
        .node .block (skipTrivia f) g.offset nodes] g :=
    (matches_kw .forWord hfor h₁).gapped rfl ((matches_name_node ((isName_iff name).1 hname) hc h₂).gapped rfl
      ((matches_kw .inWord hin h₃).gapped rfl (hmatch.gapped rfl hblock)))
  refine YieldsForm.opened 2 ⟨_, g, matches_spaced rfl pattern, hg, fun place => ?_⟩ rfl (by decide) hfor h₁
  obtain ⟨e', hlower, hsame⟩ := hlower place
  obtain ⟨b', hlowers, hsames⟩ := hlowers place
  refine ⟨.forLoop (place c.offset) name e' b', lowerStmt_of_parts rfl (lowerStmtParts_token rfl
    (lowerStmtParts_token rfl (lowerStmtParts_token rfl (lowerStmtParts_expr
      (.inl (rule_of_matches rfl hmatch)) hlower (lowerStmtParts_stmt rfl hlowers rfl))))) ?_,
    by simp [Stmt.same, hsame, hsames]⟩
  rw [text_node hc]
  exact congrArg (fun n => some (Stmt.forLoop _ n e' b')) String.ofList_toList

theorem YieldsStmt.function (pos : Position) {param : String} {b : Block} (hword : c.Passes "function".toList c₁)
    (h₁ : StopsAt isWordChar c₁) (hname : isName name) (hc : (skipTrivia c₁).Passes name.toList c₂)
    (h₂ : StopsAt isWordChar c₂) (hopen : (skipTrivia c₂).Passes ['('] c₃) (hparam : isName param)
    (hp : (skipTrivia c₃).Passes param.toList c₄) (h₄ : StopsAt isWordChar c₄)
    (hclose : (skipTrivia c₄).Passes [')'] c₅) (hb : YieldsBlock (fuel + 2) b (skipTrivia c₅) d) :
    YieldsStmt (fuel + 4) (.function pos name [param] b) c d := by
  obtain ⟨nodes, g, hblock, hg, hlowers⟩ := hb
  have solid := skipTrivia_skipTrivia c₄
  have comma : Misses (matchRule grammar (fuel + 1)) true (.literal ",") ⟨.none, .free⟩ (skipTrivia c₄) :=
    misses_character rfl hclose (by decide)
  have params : Matches (matchRule grammar (fuel + 2)) true (.rule .paramList) ⟨.none, .free⟩ (skipTrivia c₃)
      [.node .paramList (skipTrivia c₃) (skipTrivia c₄).offset
        [.node (.lexeme .ident) (skipTrivia c₃) c₄.offset []]] (skipTrivia c₄) :=
    matches_spaced rfl ((matches_name_node ((isName_iff param).1 hparam) hp h₄).gapped rfl
      (.gapped (.none (.left comma)) solid (.without comma)))
  have pattern : Matches (matchRule grammar (fuel + 2)) true (definition .functionDecl).pattern ⟨.none, .free⟩ c
      [.node (.word .functionWord) c c₁.offset [], .node (.lexeme .ident) (skipTrivia c₁) c₂.offset [],
        .node .paramList (skipTrivia c₃) (skipTrivia c₄).offset
          [.node (.lexeme .ident) (skipTrivia c₃) c₄.offset []],
        .node .block (skipTrivia c₅) g.offset nodes] g :=
    (matches_kw .functionWord hword h₁).gapped rfl ((matches_name_node ((isName_iff name).1 hname) hc h₂).gapped
      rfl ((Matches.literal hopen).gapped (a := []) rfl (.gapped (.with params) solid
        ((Matches.literal hclose).gapped (a := []) rfl hblock))))
  refine YieldsForm.opened 3 ⟨_, g, matches_spaced rfl pattern, hg, fun place => ?_⟩ rfl (by decide) hword h₁
  obtain ⟨b', hlowers, hsames⟩ := hlowers place
  refine ⟨.function (place c.offset) name [param] b', lowerStmt_of_parts rfl (lowerStmtParts_token rfl
    (lowerStmtParts_token rfl (lowerStmtParts_names rfl (lowerStmtParts_stmt rfl hlowers rfl)))) ?_,
    by simp [Stmt.same, hsames]⟩
  have hparams : ParseTree.string (.node (Rule.lexeme .ident) (skipTrivia c₃) c₄.offset []) = param := by
    rw [ParseTree.string, text_node hp, String.ofList_toList]
  rw [text_node hc]
  show some (Stmt.function _ (String.ofList name.toList) [ParseTree.string _] b') = _
  rw [hparams, String.ofList_toList]

end Statements

end MainGrammar

end ServiceLang
