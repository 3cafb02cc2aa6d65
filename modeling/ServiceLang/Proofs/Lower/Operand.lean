import ServiceLang.Proofs.Grammar.Printed
import ServiceLang.Proofs.Lower.Stands

/-!
Where lowered expressions stand.

The node of a level that is its only operand is lowered to that operand, and an
expression in parentheses to what is between them.  So an expression stands where its
node starts, or behind an opening parenthesis there (`Operand`).  That is what the
levels of precedence keep: an operation is positioned where its node starts, and there
its left operand or a parenthesis is ahead (`operand_of_groupLeft`).
-/

namespace ServiceLang.MainGrammar

open Peg

variable {place : Nat → Position}

/-- What is lowered from the node stands where the node starts, or behind a parenthesis
that is there. -/
def Operand (place : Nat → Position) (t : ParseTree Rule) (e : Expr) : Prop :=
  ∃ d, t.start.Reaches d ∧ Stands place d (.expr e) ∧ (d = t.start ∨ ['('] <+: t.start.rest)

theorem Operand.of_stands {t : ParseTree Rule} {e : Expr} (h : Stands place t.start (.expr e)) :
    Operand place t e := ⟨t.start, .refl _, h, .inl rfl⟩

/-- What a node leaves to a node inside it. -/
theorem Operand.outer {t u : ParseTree Rule} {e : Expr} (h : Operand place u e)
    (hreach : t.start.Reaches u.start) (hstart : u.start = t.start ∨ ['('] <+: t.start.rest) :
    Operand place t e := by
  obtain ⟨d, hd, hstands, hor⟩ := h
  refine ⟨d, hreach.trans hd, hstands, ?_⟩
  rcases hstart with hstart | hparen
  · rwa [hstart] at hor
  · exact .inr hparen

theorem Operand.behind {t : ParseTree Rule} {e : Expr} (h : Operand place t e) :
    Behind place t.start (.expr e) := by
  obtain ⟨d, hd, hstands, -⟩ := h
  exact ⟨d, hd, hstands⟩

/-! ## Leaves -/

/-- A literal or identifier stands where its node starts. -/
theorem stands_of_leafExpr? {t : ParseTree Rule} {e : Expr} (h : IsLeft grammar t)
    (hl : leafExpr? (place t.start.offset) t = some e) : Stands place t.start (.expr e) := by
  unfold leafExpr? at hl
  split at hl
  · next hr =>
    cases hl
    rcases text_of_boolLit (fun _ => rfl) h hr with ht | ht
    · exact Stands.leaf rfl (by decide) (by simp [Expr.BeginsWith, ht, boolText])
        (ht ▸ h.text_prefix) rfl
    · exact Stands.leaf rfl (by decide) (by simp [Expr.BeginsWith, ht, boolText])
        (ht ▸ h.text_prefix) rfl
  · next hr =>
    cases hl
    obtain ⟨f, -, hd⟩ := h.exists_passes
    rw [hr] at hd
    obtain ⟨x, hx, hprefix⟩ := head_of_unsignedNumber hd
    refine Stands.leaf rfl (isToken_of_word (List.cons_ne_nil x []) ?_) ⟨x, rfl, .inl hx⟩ hprefix rfl
    intro y hy
    rw [List.mem_singleton.1 hy]
    exact isWordChar_of_contains .digit (by decide) hx
  · next hr =>
    cases hl
    exact Stands.leaf rfl (by decide) rfl (h.begins ['"'] 1 (by rw [hr]; decide)) rfl
  · next hr =>
    cases hl
    obtain ⟨hne, hword⟩ := text_of_ident (fun _ => rfl) h hr
    refine Stands.leaf rfl (isToken_of_word hne hword) ?_ h.text_prefix rfl
    rw [Expr.BeginsWith, ParseTree.string, String.toList_ofList]
  · cases hl

/-! ## Parts -/

/-- What a part of an expression comes from. -/
inductive Part (place : Nat → Position) (t : ParseTree Rule) : ExprPart → Prop
  | operand {e : Expr} : isOperator t.rule = false → Operand place t e → Part place t (.operand e)
  | operator : isOperator t.rule → Part place t (.operator t.string)

/-- The operands among the parts stand behind the start of the node. -/
theorem behind_of_parts {c : Cursor} {ts : List (ParseTree Rule)} {parts : List ExprPart}
    (h : List.Forall₂ (Part place) ts parts) (hc : ∀ t ∈ ts, c.Reaches t.start) {e : Expr}
    (he : .operand e ∈ parts) : Behind place c (.expr e) := by
  obtain ⟨t, ht, hpart⟩ := exists_partner h he
  cases hpart with
  | operand _ hoperand => exact hoperand.behind.of_reaches (hc t ht)

theorem mem_operands_iff (parts : List ExprPart) (e : Expr) :
    e ∈ ExprPart.operands parts ↔ .operand e ∈ parts := by
  unfold ExprPart.operands
  rw [List.mem_filterMap]
  constructor
  · rintro ⟨part, hpart, he⟩
    cases part with
    | operand e' => cases he; exact hpart
    | operator s => cases he
  · exact fun h => ⟨_, h, rfl⟩

/-- An operation is positioned where its node starts, and so is everything grouped to
its left, unless it stands behind a parenthesis. -/
theorem operand_of_groupLeft {t : ParseTree Rule} {left e : Expr} {parts : List ExprPart}
    (hleft : Operand place t left)
    (hparts : ∀ e', .operand e' ∈ parts → Behind place t.start (.expr e'))
    (h : groupLeft (place t.start.offset) left parts = some e) : Operand place t e := by
  induction left, parts using groupLeft.induct (place t.start.offset) with
  | case1 left => cases h; exact hleft
  | case2 left symbol right rest op hop ih =>
    rw [groupLeft, hop] at h
    refine ih ?_ (fun e' he => hparts e' (List.mem_cons_of_mem _ (List.mem_cons_of_mem _ he))) h
    obtain ⟨d, hd, hstands, hor⟩ := hleft
    refine .of_stands (.of_children ⟨rfl, ?_, by simp [Node.bodies]⟩ ?_)
    · rcases hor with rfl | hparen
      · obtain ⟨w, hw, hbegins, hprefix⟩ := hstands.beginsAt.token
        exact ⟨w, hw, .inr ⟨hstands.beginsAt.pos_eq, hbegins⟩, hprefix⟩
      · exact ⟨['('], by decide, .inl rfl, hparen⟩
    · intro m hm
      rcases List.mem_cons.1 hm with rfl | hm
      · exact ⟨d, hd, hstands⟩
      · rw [List.mem_singleton.1 hm]
        exact hparts right (List.mem_cons_of_mem _ List.mem_cons_self)
  | case3 left symbol right rest hop => rw [groupLeft, hop] at h; cases h
  | case4 left parts h1 h2 => rw [groupLeft] at h <;> first | cases h | assumption

/-! ## Assembled expressions -/

/-- The node of a level begins with that of its first operand, and stands with it. -/
theorem operand_of_first {t : ParseTree Rule} {r : Rule} {e : Expr} {parts : List ExprPart}
    (h : IsLeft grammar t) (hk : (grammar.definition t.rule).kind = .spaced)
    (hp : (grammar.definition t.rule).pattern.firstRule? = some r)
    (hr : (grammar.definition r).kind ≠ .silent)
    (hparts : List.Forall₂ (Part place) t.children (.operand e :: parts)) : Operand place t e := by
  obtain ⟨u, more, hchildren, -, hstart⟩ := h.exists_first hk hp hr
  rw [hchildren] at hparts
  cases hparts with
  | cons hpart _ =>
    cases hpart with
    | operand _ hoperand => exact hoperand.outer (hstart ▸ .refl _) (.inl hstart)

/-- An operand without an operator is one node, at the start or behind a parenthesis. -/
theorem exists_of_primaries {c d : Cursor} {nodes : List (ParseTree Rule)}
    (h : Derives grammar true (.choice primaries) ⟨.none, .free⟩ c nodes d) :
    ∃ u, nodes = [u] ∧ (u.start = c ∨ ['('] <+: c.rest) := by
  have single {r : Rule} {e f : Cursor} {ns : List (ParseTree Rule)}
      (hr : (grammar.definition r).kind ≠ .silent)
      (h : Derives grammar true (.rule r) ⟨.none, .free⟩ e ns f) : ∃ u, ns = [u] ∧ u.start = e := by
    obtain ⟨inner, -, rfl⟩ := h.of_rule
    rw [keepNodes_free _ _ _ _ _ hr]
    exact ⟨_, rfl, rfl⟩
  have leaf {r : Rule} (hr : (grammar.definition r).kind ≠ .silent)
      (h : Derives grammar true (.rule r) ⟨.none, .free⟩ c nodes d) :
      ∃ u, nodes = [u] ∧ (u.start = c ∨ ['('] <+: c.rest) := by
    obtain ⟨u, hu, hstart⟩ := single hr h
    exact ⟨u, hu, .inl hstart⟩
  obtain ⟨p, hp, h⟩ := h.of_choice (by simp [primaries])
  simp only [primaries, List.mem_cons, List.not_mem_nil, or_false] at hp
  rcases hp with rfl | rfl | rfl | rfl | rfl | rfl | rfl
  · exact leaf (by decide) h
  · exact leaf (by decide) h
  · exact leaf (by decide) h
  · exact leaf (by decide) h
  · exact leaf (by decide) h
  · exact leaf (by decide) h
  · have hparen : ['('] <+: c.rest := h.begins ['('] 1 (by decide)
    obtain ⟨_, _, _, rfl, hopen, h⟩ := h.of_andThen
    obtain ⟨_, _, _, rfl, hexpr, hclose⟩ := h.of_andThen
    obtain ⟨u, rfl, -⟩ := single (by decide) hexpr
    cases hopen
    cases hclose
    exact ⟨u, rfl, .inr hparen⟩

/-- An operator in front of an operand begins with its symbol. -/
theorem isToken_of_ofSymbol? {w : List Char} {op : UnaryOp}
    (h : UnaryOp.ofSymbol? (String.ofList w) = some op) : IsToken w := by
  have symbols : String.ofList w = "!" ∨ String.ofList w = "not" ∨ String.ofList w = "-" := by
    unfold UnaryOp.ofSymbol? at h
    split at h <;> simp_all
  have word {s : String} (hs : String.ofList w = s) (hok : IsToken s.toList) : IsToken w := by
    rwa [← hs, String.toList_ofList] at hok
  rcases symbols with hs | hs | hs
  · exact word hs (by decide)
  · exact word hs (by decide)
  · exact word hs (by decide)

/-- An operand with operators in front of it begins with the first of them. -/
theorem operand_of_unaryExpr {t : ParseTree Rule} {e : Expr} {parts : List ExprPart}
    (h : IsLeft grammar t) (hr : t.rule = .unaryExpr)
    (hparts : List.Forall₂ (Part place) t.children parts)
    (ha : assembleExpr (place t.start.offset) .unaryExpr parts = some e) : Operand place t e := by
  have hk : (grammar.definition t.rule).kind = .spaced := by rw [hr]; rfl
  obtain ⟨f, hd⟩ := h.spaced hk
  rw [hr] at hd
  cases hd with
  | first hd =>
    obtain ⟨_, a, _, hchildren, hop, hoperand⟩ := hd.of_andThen
    obtain ⟨inner, -, rfl⟩ := hop.of_rule
    rw [keepNodes_free _ _ _ _ _ (by decide)] at hchildren
    obtain ⟨_, rfl, -⟩ := hoperand.of_spaced rfl
    have hop : IsLeft grammar (.node .unaryOp t.start a.offset inner) :=
      (h.child hk (by rw [hchildren]; exact List.mem_cons_self)).1
    have behind : ∀ e', .operand e' ∈ parts → Behind place t.start (.expr e') :=
      fun e' => behind_of_parts hparts fun u hu => (h.child hk hu).2
    rw [hchildren] at hparts
    cases hparts with
    | cons hpart hrest =>
    cases hpart with
    | operand hnot => cases hnot
    | operator =>
    cases hrest with
    | cons hpart hnil =>
    cases hnil
    cases hpart with
    | operator hnot => cases hnot
    | @operand operand _ _ =>
    obtain ⟨op, hsymbol, rfl⟩ := Option.map_eq_some_iff.1 ha
    refine .of_stands (.of_children ⟨rfl, ⟨_, isToken_of_ofSymbol? hsymbol, hsymbol,
      hop.text_prefix⟩, by simp [Node.bodies]⟩ ?_)
    intro m hm
    rw [List.mem_singleton.1 hm]
    exact behind operand (List.mem_cons_of_mem _ List.mem_cons_self)
  | second hd =>
    obtain ⟨u, hchildren, hstart⟩ := exists_of_primaries hd
    have hreach := (h.child hk (by rw [hchildren]; exact List.mem_singleton_self u)).2
    rw [hchildren] at hparts
    cases hparts with
    | cons hpart hnil =>
    cases hnil
    cases hpart with
    | operand _ hoperand =>
      cases ha
      exact hoperand.outer hreach hstart
    | operator => cases ha

/-- Where a rule begins with a name, no parenthesis is ahead. -/
theorem not_parenthesis_of_name {t : ParseTree Rule} (h : IsLeft grammar t)
    (hk : (grammar.definition t.rule).kind = .spaced)
    (hp : (grammar.definition t.rule).pattern.firstRule? = some (.lexeme .ident)) :
    ¬['('] <+: t.start.rest := by
  obtain ⟨u, more, hchildren, hur, hustart⟩ := h.exists_first hk hp (by decide)
  have hu := (h.child hk (by rw [hchildren]; exact List.mem_cons_self)).1
  obtain ⟨hne, hword⟩ := text_of_ident (fun _ => rfl) hu hur
  obtain ⟨x, xs, hx⟩ := List.exists_cons_of_ne_nil hne
  have hprefix := hu.text_prefix
  rw [hx, hustart] at hprefix
  rintro ⟨_, h1⟩
  obtain ⟨_, h2⟩ := hprefix
  have hparen : x = '(' := (List.cons.inj (h2.trans h1.symm)).1
  have := hword x (by rw [hx]; exact List.mem_cons_self)
  rw [hparen] at this
  cases this

/-- A call begins with the name that is called. -/
theorem operand_of_call {t : ParseTree Rule} {pos : Position} {name : String}
    {args : List ExprPart} (h : IsLeft grammar t) (hr : t.rule = .call)
    (hparts : List.Forall₂ (Part place) t.children (.operand (.ident pos name) :: args))
    (behind : ∀ e', .operand e' ∈ .operand (.ident pos name) :: args →
      Behind place t.start (.expr e')) :
    Operand place t (.call (place t.start.offset) name (ExprPart.operands args)) := by
  have hk : (grammar.definition t.rule).kind = .spaced := by rw [hr]; rfl
  have hp : (grammar.definition t.rule).pattern.firstRule? = some (.lexeme .ident) := by rw [hr]; rfl
  obtain ⟨d, -, hstands, hstart⟩ := operand_of_first h hk hp (by decide) hparts
  obtain rfl : d = t.start := hstart.resolve_right (not_parenthesis_of_name h hk hp)
  obtain ⟨w, hw, hbegins, hprefix⟩ := hstands.beginsAt.token
  refine .of_stands (.of_children ⟨rfl, ⟨w, hw, hbegins, hprefix⟩, by simp [Node.bodies]⟩ ?_)
  intro m hm
  obtain ⟨e, he, rfl⟩ := List.mem_map.1 hm
  exact behind e (List.mem_cons_of_mem _ ((mem_operands_iff args e).1 he))

/-- The expression of a node stands where the node starts, if its parts do. -/
theorem operand_of_assembleExpr {t : ParseTree Rule} {e : Expr} {parts : List ExprPart}
    (h : IsLeft grammar t) (hk : (grammar.definition t.rule).kind = .spaced)
    (hparts : List.Forall₂ (Part place) t.children parts)
    (ha : assembleExpr (place t.start.offset) t.rule parts = some e) : Operand place t e := by
  have behind : ∀ e', .operand e' ∈ parts → Behind place t.start (.expr e') :=
    fun e' => behind_of_parts hparts fun u hu => (h.child hk hu).2
  have chain {r : Rule} {left : Expr} {rest : List ExprPart} (hparts' : parts = .operand left :: rest)
      (hp : (grammar.definition t.rule).pattern.firstRule? = some r)
      (hr : (grammar.definition r).kind ≠ .silent)
      (hgroup : groupLeft (place t.start.offset) left rest = some e) : Operand place t e := by
    subst hparts'
    exact operand_of_groupLeft (operand_of_first h hk hp hr hparts)
      (fun e' he => behind e' (List.mem_cons_of_mem _ he)) hgroup
  generalize hrule : t.rule = rule at ha
  unfold assembleExpr at ha
  split at ha
  · cases ha
    exact operand_of_first h hk (by rw [hrule]; rfl) (by decide) hparts
  · exact operand_of_unaryExpr h hrule hparts ha
  · exact operand_of_unaryExpr h hrule hparts ha
  · split at ha
    · cases ha
      refine .of_stands (.of_children ⟨rfl, ⟨['['], by decide, rfl, ?_⟩, by simp [Node.bodies]⟩ ?_)
      · exact h.begins ['['] 2 (by rw [hrule]; decide)
      · intro m hm
        obtain ⟨e', he, rfl⟩ := List.mem_map.1 hm
        exact behind e' ((mem_operands_iff parts e').1 he)
    · cases ha
  · next pos name args =>
    cases ha
    exact operand_of_call h hrule hparts behind
  · exact chain rfl (by rw [hrule]; rfl) (by decide) ha
  · exact chain rfl (by rw [hrule]; rfl) (by decide) ha
  · exact chain rfl (by rw [hrule]; rfl) (by decide) ha
  · exact chain rfl (by rw [hrule]; rfl) (by decide) ha
  · exact chain rfl (by rw [hrule]; rfl) (by decide) ha
  · cases ha

/-! ## Lowered expressions -/

theorem spaced_of_assembleExpr {pos : Position} {rule : Rule} {parts : List ExprPart} {e : Expr}
    (h : assembleExpr pos rule parts = some e) : (grammar.definition rule).kind = .spaced := by
  unfold assembleExpr at h
  split at h <;> first | rfl | cases h

mutual

/-- An expression stands where its node starts, or behind a parenthesis there. -/
theorem operand_of_lowerExpr : (t : ParseTree Rule) → IsLeft grammar t → {e : Expr} →
    lowerExpr place t = .ok e → Operand place t e
  | .node rule start stop children, hleft, e, h => by
    rw [lowerExpr] at h
    split at h
    · next hleaf =>
      cases h
      exact .of_stands (stands_of_leafExpr? hleft hleaf)
    split at h
    · cases h
    next parts hparts =>
    split at h
    · next hassemble =>
      cases h
      have hk := spaced_of_assembleExpr hassemble
      exact operand_of_assembleExpr hleft hk (parts_of_lowerExprParts children
        (fun u hu => (hleft.child hk hu).1) hparts) hassemble
    · cases h

/-- The parts of an expression come from the nodes, one each. -/
theorem parts_of_lowerExprParts : (ts : List (ParseTree Rule)) → (∀ t ∈ ts, IsLeft grammar t) →
    {parts : List ExprPart} → lowerExprParts place ts = .ok parts → List.Forall₂ (Part place) ts parts
  | [], _, parts, h => by
    cases h
    exact .nil
  | t :: ts, hleft, parts, h => by
    rw [lowerExprParts] at h
    split at h
    · cases h
    next part hpart =>
    obtain ⟨rest, hrest, rfl⟩ := map_eq_ok h
    refine .cons ?_ (parts_of_lowerExprParts ts (fun u hu => hleft u (List.mem_cons_of_mem t hu)) hrest)
    split at hpart
    · next hop =>
      cases hpart
      exact .operator hop
    · next hop =>
      obtain ⟨e, he, rfl⟩ := map_eq_ok hpart
      exact .operand (by simpa using hop) (operand_of_lowerExpr t (hleft t List.mem_cons_self) he)

end

end ServiceLang.MainGrammar
