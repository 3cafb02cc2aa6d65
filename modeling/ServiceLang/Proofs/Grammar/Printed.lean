import ServiceLang.Proofs.Grammar.Level

/-!
Printed expressions parse as themselves.

Where the text of an expression stands, the grammar matches it as an operand and what
it leaves is lowered to the expression again, up to positions (`Expr.reads`).  Of the
forms that an operand is tried as, those before its own begin with other characters;
only a name has to be told from the words of operators and truth values, and from a
call.
-/

namespace ServiceLang

open Peg

namespace MainGrammar

/-! ## Primaries -/

/-- The forms of an operand without an operator, in the order in which they are tried. -/
def primaries : List (Pattern Rule) :=
  [lex .boolLit, lex .number, lex .string, .rule .arrayLit, .rule .call, lex .ident,
    .all [.literal "(", .rule .expr, .literal ")"]]

/-- A form that matches where no operator and none of the forms before it does. -/
theorem Yields.primary {fuel : Nat} {p : Pattern Rule} {e : Expr} {c d : Cursor} (i : Nat)
    (hsplit : primaries = primaries.take i ++ p :: primaries.drop (i + 1))
    (hbefore : ∀ q ∈ .rule .unaryOp :: primaries.take i,
      Misses (matchRule grammar fuel) true q ⟨.none, .free⟩ c)
    (h : Yields fuel p e c d) : Yields (fuel + 1) (.rule .unaryExpr) e c d := by
  obtain ⟨tree, f, hmatch, hf, hop, hlower⟩ := h
  have choice : Matches (matchRule grammar fuel) true (.choice primaries) ⟨.none, .free⟩ c [tree] f := by
    rw [hsplit]
    exact .choice (fun q hq => hbefore q (List.mem_cons_of_mem _ hq)) hmatch
  have operator : Misses (matchRule grammar fuel) true
      (.andThen (.rule .unaryOp) (.rule .unaryExpr)) ⟨.none, .free⟩ c :=
    .left (hbefore _ List.mem_cons_self)
  refine ⟨_, f, matches_spaced rfl (.second operator choice), hf, rfl, fun place => ?_⟩
  obtain ⟨e', hlower, hsame⟩ := hlower place
  exact ⟨e', lowerExpr_of_parts rfl (lowerExprParts_operand hop hlower rfl) rfl, hsame⟩

/-- An operator in front of an operand. -/
theorem Yields.unary {fuel : Nat} (pos : Position) {op : UnaryOp} {e : Expr} {c d g : Cursor}
    {opNode : ParseTree Rule}
    (hop : Matches (matchRule grammar fuel) true (.rule .unaryOp) ⟨.none, .free⟩ c [opNode] d)
    (hnode : opNode.rule = .unaryOp) (htext : UnaryOp.ofSymbol? opNode.string = some op)
    (h : Yields fuel (.rule .unaryExpr) e (skipTrivia d) g) :
    Yields (fuel + 1) (.rule .unaryExpr) (.unary pos op e) c g := by
  obtain ⟨tree, f, hmatch, hf, hexpr, hlower⟩ := h
  refine ⟨_, f, matches_spaced rfl (.first (hop.andThen hmatch)), hf, rfl, fun place => ?_⟩
  obtain ⟨e', hlower, hsame⟩ := hlower place
  refine ⟨.unary (place c.offset) op e', ?_, by simp [Expr.same, hsame]⟩
  have hoperator : isOperator opNode.rule = true := by rw [hnode]; rfl
  refine lowerExpr_of_parts rfl
    (lowerExprParts_operator hoperator (lowerExprParts_operand hexpr hlower rfl)) ?_
  show (UnaryOp.ofSymbol? opNode.string).map _ = _
  rw [htext]
  rfl

/-- An expression in parentheses is an operand. -/
theorem Yields.parenthesised {fuel : Nat} {e : Expr} {c d f g : Cursor} (hopen : c.Passes ['('] d)
    (h : Yields fuel (.rule .expr) e (skipTrivia d) f) (hclose : f.Passes [')'] g) :
    Yields (fuel + 1) (.rule .unaryExpr) e c (skipTrivia g) := by
  obtain ⟨tree, f, hmatch, rfl, hexpr, hlower⟩ := h
  have form : Yields fuel (.all [.literal "(", .rule .expr, .literal ")"]) e c (skipTrivia g) :=
    ⟨tree, g, (Matches.literal hopen).andThen (a := []) (hmatch.andThen (b := [])
      (.literal hclose)), rfl, hexpr, hlower⟩
  refine form.primary 6 rfl ?_
  exact misses_all_of_head ['('] 3 (by rw [hopen.1]; rfl) List.mem_cons_self (by decide)

/-! ### Leaves -/

/-- No mark of an operand's end goes on with a token. -/
theorem Ends.stopsAt {ok : Char → Bool} {c : Cursor} (h : Ends c.rest)
    (hok : ∀ x ∈ [' ', ')', ']', ','], ok x = false) : StopsAt ok c := by
  intro x hx
  rcases h with hclose | ⟨s, xs, hr⟩
  · exact hok x (List.mem_cons_of_mem _ (hclose x hx))
  · rw [hr] at hx
    obtain rfl := Option.some.inj hx
    exact hok ' ' List.mem_cons_self

theorem Ends.ne_parenthesis {c : Cursor} (h : Ends c.rest) :
    (skipTrivia c).rest.head? ≠ some '(' := by
  intro hx
  rcases h with hclose | ⟨s, xs, hr⟩
  · rw [skipTrivia_of_closes hclose] at hx
    have := hclose _ hx
    simp at this
  · have hpass : c.Passes [' '] ⟨c.offset + 1, s.text.toList ++ ' ' :: xs⟩ := ⟨hr, rfl⟩
    rw [skipTrivia_of_blank hpass, skipTrivia_of_operator s rfl] at hx
    cases s with
    | printed op => cases op <;> cases hx
    | ampersands | bars => cases hx

/-- A node of a leaf is lowered by itself. -/
theorem yields_of_leaf {fuel : Nat} {p : Pattern Rule} {r : Rule} {inner : List (ParseTree Rule)}
    {e : Expr} {c f : Cursor}
    (h : Matches (matchRule grammar fuel) true p ⟨.none, .free⟩ c [.node r c f.offset inner] f)
    (hr : isOperator r = false)
    (hleaf : ∀ pos, ∃ e', leafExpr? pos (.node r c f.offset inner) = some e' ∧ e'.same e) :
    Yields fuel p e c (skipTrivia f) := by
  refine ⟨_, f, h, rfl, hr, fun place => ?_⟩
  obtain ⟨e', hleaf, hsame⟩ := hleaf (place c.offset)
  exact ⟨e', lowerExpr_of_leaf hleaf, hsame⟩

section Leaves

variable {fuel : Nat} {c f : Cursor}

theorem yields_literal (pos : Position) {k : List Char} (hk : Region.QuotedTail false k)
    (h : c.Passes ('"' :: k) f) :
    Yields (fuel + 3) (.rule .unaryExpr) (.string pos (Text.literalValue ('"' :: k))) c (skipTrivia f) := by
  obtain ⟨inner, hmatch⟩ : ∃ inner, Matches (matchRule grammar (fuel + 2)) true (lex .string)
      ⟨.none, .free⟩ c [.node (.lexeme .string) c f.offset inner] f :=
    matches_string (fun _ => rfl) hk h
  have leaf : Yields (fuel + 2) (lex .string) (.string pos (Text.literalValue ('"' :: k))) c
      (skipTrivia f) := by
    refine yields_of_leaf hmatch rfl fun place =>
      ⟨.string place (Text.literalValue ('"' :: k)), ?_, by simp [Expr.same]⟩
    show some (Expr.string place (Text.literalValue (ParseTree.text _))) = _
    rw [text_node h]
  refine leaf.primary 2 rfl ?_
  exact misses_all_of_head ['"'] 3 (by rw [h.1]; rfl) List.mem_cons_self (by decide)

theorem yields_string (pos : Position) {s : String} (hs : ∀ x ∈ s.toList, Text.isQuotable x)
    (h : c.Passes (Text.quoted s).toList f) :
    Yields (fuel + 3) (.rule .unaryExpr) (.string pos s) c (skipTrivia f) := by
  rw [Text.toList_quoted] at h
  have literal : Yields (fuel + 3) (.rule .unaryExpr) _ c (skipTrivia f) :=
    yields_literal pos (Text.quotedTail_quotedBody s hs) h
  rwa [Text.literalValue_quoted s hs] at literal

/-- A numeral, as a number that equals what it is read as. -/
theorem yields_numeral (pos : Position) {k : List Char} {x : Float} (hk : Decimal.Numeral k)
    (hx : Decimal.ofLiteral k == x) (h : c.Passes k f)
    (hf : StopsAt (fun x => x.isDigit || x = '.') f) :
    Yields (fuel + 3) (.rule .unaryExpr) (.number pos x) c (skipTrivia f) := by
  have hmatch : Matches (matchRule grammar (fuel + 2)) true (lex .number) ⟨.none, .free⟩ c
      [.node (.lexeme .number) c f.offset []] f :=
    matches_number (fun _ => rfl) hk h hf
  have leaf : Yields (fuel + 2) (lex .number) (.number pos x) c (skipTrivia f) := by
    refine yields_of_leaf hmatch rfl fun place => ⟨.number place (Decimal.ofLiteral k), ?_, hx⟩
    show some (Expr.number place (Decimal.ofLiteral (ParseTree.text _))) = _
    rw [text_node h]
  obtain ⟨y, ys, hy, hdigit⟩ : ∃ y ys, k = y :: ys ∧ y.isDigit := by
    cases hk with
    | whole hds =>
      obtain ⟨y, ys, rfl⟩ := List.exists_cons_of_ne_nil hds.1
      exact ⟨y, ys, rfl, hds.2 y List.mem_cons_self⟩
    | fraction hds _ =>
      obtain ⟨y, ys, rfl⟩ := List.exists_cons_of_ne_nil hds.1
      exact ⟨y, _, rfl, hds.2 y List.mem_cons_self⟩
  refine leaf.primary 1 rfl ?_
  refine misses_all_of_head (asciiWhere Char.isDigit) 3 ?_ (mem_asciiWhere (c := y) ?_ hdigit) (by decide)
  · rw [h.1, hy]
    rfl
  · have := (isDigit_iff y).1 hdigit
    omega

theorem yields_number (pos : Position) {x : Float} (hx : isReadableNumber x)
    (h : c.Passes (Decimal.plain x).toList f) (hf : Ends f.rest) :
    Yields (fuel + 3) (.rule .unaryExpr) (.number pos x) c (skipTrivia f) := by
  simp only [isReadableNumber, Bool.and_eq_true] at hx
  exact yields_numeral pos (Decimal.numeral_plain hx.1) hx.2 h (hf.stopsAt (by decide))

theorem yields_bool (pos : Position) (b : Bool) (h : c.Passes (boolText b).toList f)
    (hf : Ends f.rest) : Yields (fuel + 3) (.rule .unaryExpr) (.bool pos b) c (skipTrivia f) := by
  have hmatch : Matches (matchRule grammar (fuel + 2)) true (lex .boolLit) ⟨.none, .free⟩ c
      [.node (.lexeme .boolLit) c f.offset []] f :=
    matches_boolLit (fun _ => rfl) h (hf.stopsAt (by decide))
  have leaf : Yields (fuel + 2) (lex .boolLit) (.bool pos b) c (skipTrivia f) := by
    refine yields_of_leaf hmatch rfl fun place => ⟨.bool place b, ?_, by simp [Expr.same]⟩
    show some (Expr.bool place (decide (ParseTree.text _ = _))) = _
    rw [text_node h]
    cases b <;> rfl
  refine leaf.primary 0 rfl ?_
  cases b with
  | true => exact misses_all_of_head ['t'] 3 (by rw [h.1]; rfl) List.mem_cons_self (by decide)
  | false => exact misses_all_of_head ['f'] 3 (by rw [h.1]; rfl) List.mem_cons_self (by decide)

/-- Where a name stands no operator does. -/
theorem misses_unaryOp_of_name {k : List Char} (hk : IsName k) (h : c.Passes k f)
    (hf : StopsAt isWordChar f) :
    Misses (matchRule grammar fuel) true (.rule .unaryOp) ⟨.none, .free⟩ c := by
  have sealed : Spacing.sealed ≠ .free := by decide
  obtain ⟨x, xs, hx⟩ := List.exists_cons_of_ne_nil hk.ne_nil
  have word : isWordChar x := hk.chars x (by rw [hx]; exact List.mem_cons_self)
  have mark (text : String) (y : Char) (ht : text.toList = [y]) (hy : isWordChar y = false)
      (d : Cursor) : ¬c.Passes text.toList d := by
    intro hd
    rw [ht] at hd
    have heads := h.1.symm.trans hd.1
    rw [hx] at heads
    exact ne_of_isWordChar x y word hy (List.cons.inj heads).1
  refine misses_of_not_derives fun nodes e hderives => ?_
  obtain ⟨inner, hderives, -⟩ := hderives.of_rule
  cases hderives with
  | first hderives =>
    obtain ⟨_, _, _, -, hbang, -⟩ := hderives.of_andThen
    cases hbang with
    | literal hbang => exact mark "!" '!' rfl rfl _ (Cursor.passes_of_strip? hbang)
  | second hderives =>
  cases hderives with
  | first hminus =>
    cases hminus with
    | literal hminus => exact mark "-" '-' rfl rfl _ (Cursor.passes_of_strip? hminus)
  | second hword =>
    have reserved : ∀ text ∈ ["not"], text ∈ reservedWords := by decide
    refine not_derives_word ["not"] sealed (fun e ns h1 => ?_) (by decide) h hk.chars hf
      (fun hmem => hk.unreserved (reserved _ hmem)) _ _ hword
    cases h1 with
    | literal h1 => exact ⟨"not", List.mem_cons_self, Cursor.passes_of_strip? h1⟩

/-- Where a name stands, neither an operator nor a form before calls does. -/
theorem misses_of_name {k : List Char} (hk : IsName k) (h : c.Passes k f)
    (hf : StopsAt isWordChar f) : ∀ q ∈ .rule .unaryOp :: primaries.take 4,
      Misses (matchRule grammar fuel) true q ⟨.none, .free⟩ c := by
  obtain ⟨x, hx⟩ : ∃ x, k.head? = some x := by
    cases k with
    | nil => cases hk.start
    | cons x xs => exact ⟨x, rfl⟩
  have start : isWordStart x := by
    have := hk.start
    rwa [hx] at this
  have ascii := toNat_lt_of_isWordChar x (isWordChar_of_isWordStart x start)
  have head : c.rest.head? = some x := by rw [h.1, List.head?_append, hx]; rfl
  have forms : ∀ q ∈ [lex .number, lex .string, .rule .arrayLit],
      Misses (matchRule grammar fuel) true q ⟨.none, .free⟩ c :=
    misses_all_of_head (asciiWhere isWordStart) 3 head (mem_asciiWhere ascii start) (by decide)
  intro q hq
  rcases List.mem_cons.1 hq with rfl | hq
  · exact misses_unaryOp_of_name hk h hf
  rcases List.mem_cons.1 hq with rfl | hq
  · exact misses_boolLit_of_name (fun _ => rfl) hk h hf
  · exact forms q hq

theorem matches_name_node {k : List Char} (hk : IsName k) (h : c.Passes k f)
    (hf : StopsAt isWordChar f) :
    Matches (matchRule grammar (fuel + 1)) true (lex .ident) ⟨.none, .free⟩ c
      [.node (.lexeme .ident) c f.offset []] f :=
  matches_ident (fun _ => rfl) hk h hf

/-- A name that no parenthesis follows. -/
theorem yields_name (pos : Position) {name : String} (hname : isName name)
    (h : c.Passes name.toList f) (hstop : StopsAt isWordChar f)
    (hparen : (skipTrivia f).rest.head? ≠ some '(') :
    Yields (fuel + 3) (.rule .unaryExpr) (.ident pos name) c (skipTrivia f) := by
  have hk := (isName_iff name).1 hname
  have leaf : Yields (fuel + 2) (lex .ident) (.ident pos name) c (skipTrivia f) := by
    refine yields_of_leaf (matches_name_node hk h hstop) rfl fun place =>
      ⟨.ident place name, ?_, by simp [Expr.same]⟩
    show some (Expr.ident place (ParseTree.string _)) = _
    rw [ParseTree.string, text_node h, String.ofList_toList]
  refine leaf.primary 5 rfl fun q hq => ?_
  have call : Misses (matchRule grammar (fuel + 2)) true (.rule .call) ⟨.none, .free⟩ c := by
    refine .rule (.right (matches_name_node hk h hstop) (.left (.literal fun d hd => ?_)))
    have hd : (skipTrivia f).Passes ['('] d := hd
    exact hparen (by rw [hd.1]; rfl)
  rcases List.mem_append.1 (show q ∈ (.rule .unaryOp :: primaries.take 4) ++ [.rule .call] from hq)
    with hq | hq
  · exact misses_of_name hk h hstop q hq
  · rw [List.mem_singleton.1 hq]
    exact call

theorem yields_ident (pos : Position) {name : String} (hname : isName name)
    (h : c.Passes name.toList f) (hf : Ends f.rest) :
    Yields (fuel + 3) (.rule .unaryExpr) (.ident pos name) c (skipTrivia f) :=
  yields_name pos hname h (hf.stopsAt (by decide)) hf.ne_parenthesis

end Leaves

/-! ### Lists -/

/-- Wherever the text of the expression stands, the grammar yields it as an operand. -/
def Reads (fuel : Nat) (e : Expr) : Prop :=
  ∀ c f, c.Passes e.display.toList f → Ends f.rest →
    Yields fuel (.rule .unaryExpr) e c (skipTrivia f)

/-- The pattern of a further expression in a list. -/
def furtherExpr : Pattern Rule := .andThen (.literal ",") (.rule .expr)

/-- Behind the expressions of a list a bracket closes it. -/
def ClosesList (rest : List Char) : Prop := ∃ x xs, rest = x :: xs ∧ x ∈ [')', ']']

theorem ClosesList.closes {rest : List Char} (h : ClosesList rest) : Closes rest := by
  obtain ⟨x, xs, rfl, hx⟩ := h
  intro y hy
  obtain rfl := Option.some.inj hy
  rcases List.mem_cons.1 hx with rfl | hx
  · decide
  · rw [List.mem_singleton.1 hx]
    decide

/-- The texts behind an expression of a list close it. -/
theorem closes_commaTexts (es : List Expr) {rest : List Char} (h : ClosesList rest) :
    Closes (Expr.commaTexts es ++ rest) := by
  cases es with
  | nil => exact h.closes
  | cons e es =>
    intro y hy
    obtain rfl := Option.some.inj hy
    decide

theorem skipTrivia_of_display {e : Expr} (he : e.isPrintable) {c f : Cursor}
    (h : c.Passes e.display.toList f) : skipTrivia c = c := by
  obtain ⟨x, xs, hx, hb, hs⟩ := e.exists_head_display he
  exact skipTrivia_solid (by rw [h.1, hx]; rfl) hb hs

/-- The further expressions of a list are the rounds behind the first. -/
theorem rounds_furtherExpr {fuel : Nat} {es : List Expr} (hp : ∀ e ∈ es, e.isPrintable)
    (hr : ∀ e ∈ es, Reads fuel e) {c f : Cursor} (h : (skipTrivia c).Passes (Expr.commaTexts es) f)
    (hf : ClosesList f.rest) :
    ∃ trees g, Rounds (matchRule grammar (fuel + 6)) true furtherExpr ⟨.none, .free⟩ c trees g ∧
      skipTrivia g = f ∧
      ∀ place, ∃ es', lowerExprParts place trees = .ok (es'.map .operand) ∧ Expr.sameAll es' es := by
  induction es generalizing c with
  | nil =>
    obtain rfl := h.eq_of_nil
    refine ⟨[], c, .done (.left (.literal fun d hd => ?_)), rfl, fun _ => ⟨[], rfl, rfl⟩⟩
    obtain ⟨x, xs, hr, hx⟩ := hf
    have hd : (skipTrivia c).Passes [','] d := hd
    have heads := hr.symm.trans hd.1
    rw [(List.cons.inj heads).1] at hx
    revert hx
    decide
  | cons e es ih =>
    obtain ⟨c₁, hcomma, h⟩ := h.exists_cons
    obtain ⟨c₂, hblank, h⟩ := h.exists_cons
    obtain ⟨c₃, htext, h⟩ := h.exists_append
    have hclose : Closes c₃.rest := by
      rw [h.1]
      exact closes_commaTexts es hf
    have he := hp e List.mem_cons_self
    have hstart : skipTrivia c₁ = c₂ := by
      rw [skipTrivia_of_blank hblank, skipTrivia_of_display he htext]
    obtain ⟨tree, g, hmatch, hg, hop, hlower⟩ :=
      (hr e List.mem_cons_self c₂ c₃ htext (.inl hclose)).closed
        (by rw [skipTrivia_of_closes hclose]; exact hclose)
    rw [skipTrivia_of_closes hclose] at hg
    rw [← hg] at h
    obtain ⟨trees, g', hrounds, hg', hlowers⟩ := ih
      (fun e he => hp e (List.mem_cons_of_mem _ he)) (fun e he => hr e (List.mem_cons_of_mem _ he)) h
    have round : Matches (matchRule grammar (fuel + 6)) true furtherExpr ⟨.none, .free⟩
        (skipTrivia c) [tree] g := by
      rw [← hstart] at hmatch
      exact (Matches.literal hcomma).andThen (a := []) hmatch
    have shorter : g.rest.length < c.rest.length := by
      have := (reaches_skipTrivia c).length_le
      have := hcomma.length_lt (List.cons_ne_nil _ _)
      have := hblank.length_lt (List.cons_ne_nil _ _)
      have := hmatch.derives.reaches.length_le
      omega
    refine ⟨[tree] ++ trees, g', .round round shorter hrounds, hg', fun place => ?_⟩
    obtain ⟨e', hlower, hsame⟩ := hlower place
    obtain ⟨es', hlowers, hsames⟩ := hlowers place
    exact ⟨e' :: es', lowerExprParts_operand hop hlower hlowers, by simp [Expr.sameAll, hsame, hsames]⟩

/-- Expressions with commas between them. -/
theorem matches_expressions {fuel : Nat} {es : List Expr} (hp : ∀ e ∈ es, e.isPrintable)
    (hr : ∀ e ∈ es, Reads fuel e) {c f : Cursor}
    (h : c.Passes (commaList (Expr.displayAll es)).toList f) (hf : ClosesList f.rest) :
    ∃ trees g, Matches (matchRule grammar (fuel + 6)) true expressions ⟨.none, .free⟩
        (skipTrivia c) trees g ∧ skipTrivia g = f ∧
      ∀ place, ∃ es', lowerExprParts place trees = .ok (es'.map .operand) ∧ Expr.sameAll es' es := by
  cases es with
  | nil =>
    obtain rfl := h.eq_of_nil
    rw [skipTrivia_of_closes hf.closes]
    obtain ⟨y, ys, hr, hy⟩ := id hf
    have hhead : c.rest.head? = some y := by rw [hr]; rfl
    exact ⟨[], c, .without (misses_of_head [')', ']'] 12 hhead hy (by decide)),
      skipTrivia_of_closes hf.closes, fun _ => ⟨[], rfl, rfl⟩⟩
  | cons e es =>
    rw [Expr.toList_commaList_cons] at h
    obtain ⟨d, htext, h⟩ := h.exists_append
    have hclose : Closes d.rest := by
      rw [h.1]
      exact closes_commaTexts es hf
    have he := hp e List.mem_cons_self
    obtain ⟨tree, g, hmatch, hg, hop, hlower⟩ :=
      (hr e List.mem_cons_self c d htext (.inl hclose)).closed
        (by rw [skipTrivia_of_closes hclose]; exact hclose)
    rw [skipTrivia_of_closes hclose] at hg
    have hd : skipTrivia d = d := skipTrivia_of_closes hclose
    rw [← hd] at h
    obtain ⟨trees, g', hrounds, hg', hlowers⟩ := rounds_furtherExpr
      (fun e he => hp e (List.mem_cons_of_mem _ he)) (fun e he => hr e (List.mem_cons_of_mem _ he))
      h hf
    have further : Matches (matchRule grammar (fuel + 6)) true (.many furtherExpr) ⟨.none, .free⟩
        (skipTrivia g) trees g' := by
      rw [hg]
      exact hrounds.matches_many hd
    have comma : Matches (matchRule grammar (fuel + 6)) true (.optional (.literal ","))
        ⟨.none, .free⟩ (skipTrivia g') [] f := by
      rw [hg']
      refine .without (.literal fun e he => ?_)
      obtain ⟨x, xs, hr, hx⟩ := hf
      have he : f.Passes [','] e := he
      rw [(List.cons.inj (hr.symm.trans he.1)).1] at hx
      revert hx
      decide
    rw [skipTrivia_of_display he htext]
    refine ⟨[tree] ++ (trees ++ []), f, .with (hmatch.andThen (further.andThen comma)),
      skipTrivia_of_closes hf.closes, fun place => ?_⟩
    obtain ⟨e', hlower, hsame⟩ := hlower place
    obtain ⟨es', hlowers, hsames⟩ := hlowers place
    rw [List.append_nil]
    exact ⟨e' :: es', lowerExprParts_operand hop hlower hlowers, by simp [Expr.sameAll, hsame, hsames]⟩

theorem operands_map (es : List Expr) : ExprPart.operands (es.map .operand) = es := by
  induction es with
  | nil => rfl
  | cons e es ih => exact congrArg (e :: ·) ih

theorem all_isOperand_map (es : List Expr) : (es.map ExprPart.operand).all ExprPart.isOperand := by
  induction es with
  | nil => rfl
  | cons e es ih => exact ih

theorem yields_array {fuel : Nat} (pos : Position) {es : List Expr} (hp : ∀ e ∈ es, e.isPrintable)
    (hr : ∀ e ∈ es, Reads fuel e) {c f : Cursor}
    (h : c.Passes (Expr.array pos es).display.toList f) :
    Yields (fuel + 8) (.rule .unaryExpr) (.array pos es) c (skipTrivia f) := by
  rw [Expr.toList_display_array] at h
  obtain ⟨c₁, hopen, h⟩ := h.exists_cons
  obtain ⟨c₂, hlist, hclose⟩ := h.exists_append
  obtain ⟨trees, g, hmatch, hg, hlowers⟩ := matches_expressions hp hr hlist
    ⟨']', f.rest, hclose.1, by decide⟩
  rw [← hg] at hclose
  have pattern : Matches (matchRule grammar (fuel + 6)) true
      (.andThen (.literal "[") (.andThen expressions (.literal "]"))) ⟨.none, .free⟩ c trees f := by
    have whole : Matches (matchRule grammar (fuel + 6)) true
        (.andThen (.literal "[") (.andThen expressions (.literal "]"))) ⟨.none, .free⟩ c
        ([] ++ (trees ++ [])) f :=
      .andThen (.literal hopen) (.andThen hmatch (.literal hclose))
    rwa [List.nil_append, List.append_nil] at whole
  have form : Yields (fuel + 7) (.rule .arrayLit) (.array pos es) c (skipTrivia f) := by
    refine ⟨_, f, matches_spaced rfl pattern, rfl, rfl, fun place => ?_⟩
    obtain ⟨es', hlowers, hsame⟩ := hlowers place
    refine ⟨.array (place c.offset) es', lowerExpr_of_parts rfl hlowers ?_, by simpa [Expr.same] using hsame⟩
    show (if (es'.map ExprPart.operand).all ExprPart.isOperand
      then some (Expr.array _ (ExprPart.operands (es'.map .operand))) else none) = _
    rw [all_isOperand_map, operands_map]
    rfl
  refine form.primary 3 rfl ?_
  exact misses_all_of_head ['['] 3 (by rw [hopen.1]; rfl) List.mem_cons_self (by decide)

theorem yields_callRule {fuel : Nat} (pos : Position) {name : String} (hname : isName name)
    {args : List Expr} (hp : ∀ e ∈ args, e.isPrintable) (hr : ∀ e ∈ args, Reads fuel e)
    {c f : Cursor} (h : c.Passes (Expr.call pos name args).display.toList f) :
    Yields (fuel + 7) (.rule .call) (.call pos name args) c (skipTrivia f) := by
  rw [Expr.toList_display_call] at h
  obtain ⟨c₁, hword, h⟩ := h.exists_append
  obtain ⟨c₂, hopen, h⟩ := h.exists_cons
  obtain ⟨c₃, hlist, hclose⟩ := h.exists_append
  have hk := (isName_iff name).1 hname
  have hstop : StopsAt isWordChar c₁ := by
    intro x hx
    rw [hopen.1] at hx
    obtain rfl := Option.some.inj hx
    rfl
  have hgap : skipTrivia c₁ = c₁ :=
    skipTrivia_solid (x := '(') (by rw [hopen.1]; rfl) rfl (by decide)
  obtain ⟨trees, g, hmatch, hg, hlowers⟩ := matches_expressions hp hr hlist
    ⟨')', f.rest, hclose.1, by decide⟩
  rw [← hg] at hclose
  rw [← hgap] at hopen
  have pattern : Matches (matchRule grammar (fuel + 6)) true
      (.andThen (lex .ident) (.andThen (.literal "(") (.andThen expressions (.literal ")"))))
      ⟨.none, .free⟩ c (.node (.lexeme .ident) c c₁.offset [] :: trees) f := by
    have whole : Matches (matchRule grammar (fuel + 6)) true
        (.andThen (lex .ident) (.andThen (.literal "(") (.andThen expressions (.literal ")"))))
        ⟨.none, .free⟩ c ([.node (.lexeme .ident) c c₁.offset []] ++ ([] ++ (trees ++ []))) f :=
      .andThen (matches_name_node hk hword hstop)
        (.andThen (.literal hopen) (.andThen hmatch (.literal hclose)))
    rwa [List.nil_append, List.append_nil] at whole
  refine ⟨_, f, matches_spaced rfl pattern, rfl, rfl, fun place => ?_⟩
  obtain ⟨es', hlowers, hsame⟩ := hlowers place
  have hident : lowerExpr place (.node (.lexeme .ident) c c₁.offset []) =
      .ok (.ident (place c.offset) name) := by
    refine lowerExpr_of_leaf ?_
    show some (Expr.ident _ (ParseTree.string _)) = _
    rw [ParseTree.string, text_node hword, String.ofList_toList]
  refine ⟨.call (place c.offset) name es', lowerExpr_of_parts rfl
    (lowerExprParts_operand rfl hident hlowers) ?_, by simpa [Expr.same] using hsame⟩
  show some (Expr.call _ name (ExprPart.operands (es'.map .operand))) = _
  rw [operands_map]

theorem yields_call {fuel : Nat} (pos : Position) {name : String} (hname : isName name)
    {args : List Expr} (hp : ∀ e ∈ args, e.isPrintable) (hr : ∀ e ∈ args, Reads fuel e)
    {c f : Cursor} (h : c.Passes (Expr.call pos name args).display.toList f) :
    Yields (fuel + 8) (.rule .unaryExpr) (.call pos name args) c (skipTrivia f) := by
  have form := yields_callRule pos hname hp hr h
  rw [Expr.toList_display_call] at h
  obtain ⟨c₁, hword, h⟩ := h.exists_append
  have hstop : StopsAt isWordChar c₁ := .of_rest h.1 rfl
  exact form.primary 4 rfl (misses_of_name ((isName_iff name).1 hname) hword hstop)

/-! ### All expressions -/

/-- The operator in front of an operand matches as it is printed. -/
theorem matches_unaryOp (fuel : Nat) (op : UnaryOp) {c d : Cursor} (h : c.Passes op.prefixText d) :
    ∃ opNode f, Matches (matchRule grammar (fuel + 1)) true (.rule .unaryOp) ⟨.none, .free⟩ c
      [opNode] f ∧ opNode.rule = .unaryOp ∧ UnaryOp.ofSymbol? opNode.string = some op ∧
      skipTrivia f = skipTrivia d := by
  obtain ⟨offset, rest⟩ := c
  obtain ⟨offset', rest'⟩ := d
  obtain ⟨hr, ho⟩ := h
  dsimp only at hr ho
  subst hr ho
  cases op with
  | not =>
    have hword : Cursor.Passes ⟨offset, 'n' :: 'o' :: 't' :: ' ' :: rest'⟩ ['n', 'o', 't']
        ⟨offset + 3, ' ' :: rest'⟩ := ⟨rfl, rfl⟩
    refine ⟨.node .unaryOp _ (offset + 3) [], _, fun log => ⟨_, rfl⟩, rfl, ?_,
      skipTrivia_of_blank ⟨rfl, rfl⟩⟩
    exact congrArg (fun k => UnaryOp.ofSymbol? (String.ofList k)) (text_node hword)
  | neg =>
    have hminus : Cursor.Passes ⟨offset, '-' :: rest'⟩ ['-'] ⟨offset + 1, rest'⟩ := ⟨rfl, rfl⟩
    refine ⟨.node .unaryOp _ (offset + 1) [], _, fun log => ⟨_, rfl⟩, rfl, ?_, rfl⟩
    exact congrArg (fun k => UnaryOp.ofSymbol? (String.ofList k)) (text_node hminus)

theorem yields_unary {fuel : Nat} (pos : Position) (op : UnaryOp) {e : Expr} (hp : e.isPrintable)
    (hr : Reads (fuel + 1) e) {c f : Cursor}
    (h : c.Passes (Expr.unary pos op e).display.toList f) :
    Yields (fuel + 9) (.rule .unaryExpr) (.unary pos op e) c (skipTrivia f) := by
  rw [Expr.toList_display_unary] at h
  obtain ⟨c₁, hopen, h⟩ := h.exists_cons
  obtain ⟨c₂, hop, h⟩ := h.exists_append
  obtain ⟨c₃, hoperand, hclose⟩ := h.exists_append
  have closes : Closes c₃.rest := by
    intro x hx
    rw [hclose.1] at hx
    obtain rfl := Option.some.inj hx
    decide
  have hstart : skipTrivia c₁ = c₁ := by
    cases op with
    | not => exact skipTrivia_solid (x := 'n') (by rw [hop.1]; rfl) rfl (by decide)
    | neg => exact skipTrivia_solid (x := '-') (by rw [hop.1]; rfl) rfl (by decide)
  obtain ⟨opNode, g, hmatch, hnode, htext, hg⟩ := matches_unaryOp fuel op hop
  have operand := hr c₂ c₃ hoperand (.inl closes)
  rw [skipTrivia_of_closes closes] at operand
  rw [← skipTrivia_of_display hp hoperand, ← hg] at operand
  have whole := (Yields.unary pos hmatch hnode htext operand).closed closes
  rw [← hstart] at whole
  exact whole.parenthesised hopen hclose

theorem yields_binary {fuel : Nat} (pos : Position) {left right : Expr} (op : BinaryOp)
    (hpl : left.isPrintable) (hpr : right.isPrintable) (hl : Reads (fuel + 1) left)
    (hr : Reads (fuel + 1) right) {c f : Cursor}
    (h : c.Passes (Expr.binary pos left op right).display.toList f) :
    Yields (fuel + 8) (.rule .unaryExpr) (.binary pos left op right) c (skipTrivia f) := by
  rw [Expr.toList_display_binary] at h
  obtain ⟨c₁, hopen, h⟩ := h.exists_cons
  obtain ⟨c₂, hleft, h⟩ := h.exists_append
  obtain ⟨c₃, hblank, h⟩ := h.exists_cons
  obtain ⟨c₄, hop, h⟩ := h.exists_append
  obtain ⟨c₅, hblank', h⟩ := h.exists_cons
  obtain ⟨c₆, hright, hclose⟩ := h.exists_append
  have closes : Closes c₆.rest := by
    intro x hx
    rw [hclose.1] at hx
    obtain rfl := Option.some.inj hx
    decide
  have hoperator : c₃.rest = op.symbol.toList ++ ' ' :: c₅.rest := by rw [hop.1, hblank'.1]; rfl
  have ends : Ends c₂.rest := .inr ⟨.printed op, c₅.rest, by rw [hblank.1, hoperator]; rfl⟩
  have left := hl c₁ c₂ hleft ends
  rw [skipTrivia_of_blank hblank, skipTrivia_of_operator (.printed op) hoperator] at left
  have right := hr c₅ c₆ hright (.inl closes)
  rw [skipTrivia_of_closes closes, ← skipTrivia_of_display hpr hright,
    ← skipTrivia_of_blank hblank'] at right
  have hop : c₃.Passes (Spelling.printed op).text.toList c₄ := hop
  have whole := left.binary pos hop hblank'.1 right (noOperator_of_closes closes)
  rw [← skipTrivia_of_display hpl hleft] at whole
  exact whole.parenthesised hopen hclose

end MainGrammar

open MainGrammar

theorem Expr.length_display_le {e : Expr} {es : List Expr} (he : e ∈ es) :
    e.display.toList.length ≤ (commaList (displayAll es)).toList.length := by
  obtain ⟨a, as, rfl⟩ := List.exists_cons_of_ne_nil (List.ne_nil_of_mem he)
  rw [toList_commaList_cons, List.length_append]
  rcases List.mem_cons.1 he with rfl | he
  · omega
  · obtain ⟨before, after, rfl⟩ := List.append_of_mem he
    simp only [commaTexts, List.flatMap_append, List.flatMap_cons, List.length_append,
      List.length_cons]
    omega

/-- With fuel for its text, a printed expression is read as an operand.  Each level of
nesting takes eight rules at most, and a character at least. -/
theorem Expr.reads (e : Expr) (hp : e.isPrintable) (fuel : Nat)
    (hf : 8 * e.display.toList.length ≤ fuel) : Reads fuel e := by
  induction hlen : e.display.toList.length using Nat.strongRecOn generalizing e fuel with
  | ind len ih =>
  have smaller (e' : Expr) (hp' : e'.isPrintable) (hlt : e'.display.toList.length < len) (n : Nat)
      (hn : 8 * e'.display.toList.length ≤ n) : Reads n e' := ih _ hlt e' hp' n hn rfl
  intro c f h hend
  have long : 8 ≤ fuel := by
    obtain ⟨x, xs, hx, -, -⟩ := e.exists_head_display hp
    rw [hx, List.length_cons] at hf
    omega
  obtain ⟨n, rfl⟩ := Nat.exists_eq_add_of_le' long
  rw [hlen] at hf
  cases e with
  | string pos value =>
    rw [Expr.display] at h
    exact yields_string pos (List.all_eq_true.1 hp) h
  | number pos value =>
    rw [Expr.display] at h
    exact yields_number pos hp h hend
  | bool pos value =>
    rw [Expr.display] at h
    exact yields_bool pos value h hend
  | ident pos name =>
    rw [Expr.display] at h
    exact yields_ident pos hp h hend
  | array pos es =>
    have hes := (Expr.arePrintable_iff es).1 hp
    rw [Expr.toList_display_array, List.length_cons, List.length_append] at hlen
    refine yields_array pos hes (fun e he => ?_) h
    have := Expr.length_display_le he
    exact smaller e (hes e he) (by omega) n (by omega)
  | call pos name args =>
    obtain ⟨hname, hargs⟩ := Bool.and_eq_true_iff.1 hp
    have hargs := (Expr.arePrintable_iff args).1 hargs
    rw [Expr.toList_display_call, List.length_append, List.length_cons, List.length_append] at hlen
    refine yields_call pos hname hargs (fun e he => ?_) h
    have := Expr.length_display_le he
    exact smaller e (hargs e he) (by omega) n (by omega)
  | binary pos left op right =>
    obtain ⟨hpl, hpr⟩ := Bool.and_eq_true_iff.1 hp
    rw [Expr.toList_display_binary] at hlen
    simp only [List.length_cons, List.length_append] at hlen
    exact yields_binary pos op hpl hpr (smaller left hpl (by omega) (n + 1) (by omega))
      (smaller right hpr (by omega) (n + 1) (by omega)) h
  | unary pos op operand =>
    rw [Expr.toList_display_unary] at hlen
    simp only [List.length_cons, List.length_append] at hlen
    obtain ⟨m, rfl⟩ : ∃ m, n = m + 1 := ⟨n - 1, by omega⟩
    have hp : operand.isPrintable := hp
    exact yields_unary pos op hp (smaller operand hp (by omega) (m + 1) (by omega)) h

end ServiceLang
