import ServiceLang.Lower.Expr
import ServiceLang.Proofs.Ast.Same
import ServiceLang.Proofs.Decimal.Literal
import ServiceLang.Proofs.Lower.Alike
import ServiceLang.Proofs.Lower.Carried

/-!
Alike trees make the same expressions, elsewhere.

An expression is assembled of parts, and assembling commutes with replacing positions
(`assembleExpr_relocate`).  So two trees that are alike up to a function `f` of positions
either both make no expression, or the second makes the expression of the first with its
positions replaced by `f` (`lowerExpr_carries`).  The number of a literal is equal to itself,
and so is each expression that is lowered.
-/

namespace ServiceLang.MainGrammar

open Peg

variable {f : Position → Position} {place place' : Nat → Position}

/-! ## Parts -/

def ExprPart.relocate (f : Position → Position) : ExprPart → ExprPart
  | operand e => operand (e.relocate f)
  | operator symbol => operator symbol

/-- The expression that the part is, if it is one, is equal to itself. -/
def ExprPart.SameSelf : ExprPart → Prop
  | operand e => e.same e = true
  | operator _ => True

theorem ExprPart.operands_relocate (parts : List ExprPart) :
    operands (parts.map (ExprPart.relocate f)) = (operands parts).map (Expr.relocate f) := by
  induction parts with
  | nil => rfl
  | cons part parts ih =>
    cases part with
    | operand e => exact congrArg (e.relocate f :: ·) ih
    | operator symbol => exact ih

theorem ExprPart.all_isOperand_relocate (parts : List ExprPart) :
    (parts.map (ExprPart.relocate f)).all isOperand = parts.all isOperand := by
  rw [List.all_map]
  refine congrArg (parts.all ·) (funext fun part => ?_)
  cases part <;> rfl

theorem ExprPart.sameAll_operands {parts : List ExprPart} (h : ∀ p ∈ parts, p.SameSelf) :
    Expr.sameAll (operands parts) (operands parts) = true := by
  refine (Expr.sameAll_self_iff _).2 fun e he => ?_
  obtain ⟨part, hpart, heq⟩ := List.mem_filterMap.1 he
  cases part with
  | operand e' => exact Option.some.inj heq ▸ h _ hpart
  | operator symbol => cases heq

/-! ## Assembling -/

theorem groupLeft_relocate (pos : Position) (left : Expr) (parts : List ExprPart) :
    groupLeft (f pos) (left.relocate f) (parts.map (ExprPart.relocate f)) =
      (groupLeft pos left parts).map (Expr.relocate f) := by
  induction left, parts using groupLeft.induct pos with
  | case1 left => rfl
  | case2 left symbol right rest op hop ih =>
    simpa [groupLeft, ExprPart.relocate, hop, Expr.relocate] using ih
  | case3 left symbol right rest hop => simp [groupLeft, ExprPart.relocate, hop]
  | case4 parts left hnil hpair =>
    match parts with
    | [] => exact absurd rfl hnil
    | .operand _ :: _ | [.operator _] | .operator _ :: .operator _ :: _ => rfl
    | .operator _ :: .operand _ :: _ => exact absurd rfl (hpair _ _ _)

theorem same_groupLeft {pos : Position} {left : Expr} {parts : List ExprPart}
    (hleft : left.same left = true) (hparts : ∀ p ∈ parts, p.SameSelf) {e : Expr}
    (h : groupLeft pos left parts = some e) : e.same e = true := by
  induction left, parts using groupLeft.induct pos with
  | case1 left => exact Option.some.inj h ▸ hleft
  | case2 left symbol right rest op hop ih =>
    have hright : right.same right = true := hparts (.operand right) (by simp)
    refine ih (by simp [Expr.same, hleft, hright]) (fun p hp => hparts p (by simp [hp])) ?_
    simpa [groupLeft, hop] using h
  | case3 left symbol right rest hop => simp [groupLeft, hop] at h
  | case4 parts left hnil hpair => rw [groupLeft] at h <;> first | cases h | assumption

/-- Assembling commutes with replacing positions. -/
theorem assembleExpr_relocate (pos : Position) (rule : Rule) (parts : List ExprPart) :
    assembleExpr (f pos) rule (parts.map (ExprPart.relocate f)) =
      (assembleExpr pos rule parts).map (Expr.relocate f) := by
  cases rule with
  | expr =>
    match parts with
    | [] | [.operand _] | [.operator _] | .operand _ :: _ :: _ | .operator _ :: _ :: _ => rfl
  | unaryExpr =>
    match parts with
    | [] | [.operand _] | [.operator _] | .operand _ :: _ :: _ | .operator _ :: .operator _ :: _
    | .operator _ :: .operand _ :: _ :: _ => rfl
    | [.operator symbol, .operand e] =>
      show (UnaryOp.ofSymbol? symbol).map _ = ((UnaryOp.ofSymbol? symbol).map _).map _
      rw [Option.map_map]
      rfl
  | arrayLit =>
    show (if _ then _ else _) = Option.map _ (if _ then _ else _)
    rw [ExprPart.all_isOperand_relocate, ExprPart.operands_relocate]
    split
    · rw [← Expr.relocateAll_eq_map]
      rfl
    · rfl
  | call =>
    match parts with
    | [] | .operator _ :: _ => rfl
    | .operand e :: args =>
      cases e with
      | ident p name =>
        show some (Expr.call _ _ (ExprPart.operands (args.map _))) = _
        rw [ExprPart.operands_relocate, ← Expr.relocateAll_eq_map]
        rfl
      | _ => rfl
  | orExpr | andExpr | cmpExpr | addExpr | mulExpr =>
    match parts with
    | [] | .operator _ :: _ => rfl
    | .operand left :: rest => exact groupLeft_relocate pos left rest
  | _ => rfl

theorem same_assembleExpr {pos : Position} {rule : Rule} {parts : List ExprPart}
    (hparts : ∀ p ∈ parts, p.SameSelf) {e : Expr} (h : assembleExpr pos rule parts = some e) :
    e.same e = true := by
  unfold assembleExpr at h
  split at h
  case h_1 | h_2 => exact Option.some.inj h ▸ hparts _ List.mem_cons_self
  case h_3 =>
    obtain ⟨op, -, rfl⟩ := Option.map_eq_some_iff.1 h
    have he := hparts _ (List.mem_cons_of_mem _ List.mem_cons_self)
    exact Bool.and_eq_true_iff.2 ⟨beq_self_eq_true op, he⟩
  case h_4 =>
    split at h
    · exact Option.some.inj h ▸ ExprPart.sameAll_operands hparts
    · cases h
  case h_5 =>
    have hargs := ExprPart.sameAll_operands fun p hp => hparts p (List.mem_cons_of_mem _ hp)
    exact Option.some.inj h ▸ Bool.and_eq_true_iff.2 ⟨beq_self_eq_true _, hargs⟩
  case h_11 => cases h
  all_goals
    exact same_groupLeft (hparts _ List.mem_cons_self)
      (fun p hp => hparts p (List.mem_cons_of_mem _ hp)) h

/-! ## Expressions -/

theorem leafExpr?_relocate {t t' : ParseTree Rule} (h : AlikeTrees f place place' t t') :
    leafExpr? (place' t'.offset) t' = (leafExpr? (place t.offset) t).map (Expr.relocate f) := by
  have htext := h.text_eq
  have hstring := h.string_eq
  unfold leafExpr?
  rw [h.place_eq, ← h.rule_eq]
  split
  · next hr => rw [htext (hr ▸ by decide)]; rfl
  · next hr => rw [htext (hr ▸ by decide)]; rfl
  · next hr => rw [htext (hr ▸ by decide)]; rfl
  · next hr => rw [hstring (hr ▸ by decide)]; rfl
  · rfl

theorem same_leafExpr {pos : Position} {t : ParseTree Rule} {e : Expr}
    (h : leafExpr? pos t = some e) : e.same e = true := by
  unfold leafExpr? at h
  split at h
  case h_2 => exact Option.some.inj h ▸ Decimal.ofLiteral_beq_self t.text
  case h_5 => cases h
  all_goals exact Option.some.inj h ▸ by simp [Expr.same]

theorem isRead_of_isOperator {r : Rule} (h : isOperator r) : isRead r := by
  cases r <;> first | decide | cases h

mutual

/-- Alike trees make the same expression, elsewhere. -/
theorem lowerExpr_carries {t t' : ParseTree Rule} (h : AlikeTrees f place place' t t') :
    Carries (Expr.relocate f) (fun e => e.same e = true) (lowerExpr place t)
      (lowerExpr place' t') := by
  obtain ⟨rule, start, stop, children⟩ := t
  obtain ⟨rule', start', stop', children'⟩ := t'
  obtain rfl : rule = rule' := h.rule_eq
  have hplace : place' start'.offset = f (place start.offset) := h.place_eq
  have hleaf : leafExpr? (place' start'.offset) (.node rule start' stop' children') =
      (leafExpr? (place start.offset) (.node rule start stop children)).map (Expr.relocate f) :=
    leafExpr?_relocate h
  unfold lowerExpr
  rw [hleaf]
  cases hl : leafExpr? (place start.offset) (.node rule start stop children) with
  | some e => exact .ok (same_leafExpr hl)
  | none =>
    have hchildren : Carries _ _ (lowerExprParts place children) (lowerExprParts place' children') :=
      lowerExprParts_carries h.children
    dsimp only [Option.map_none]
    generalize lowerExprParts place children = x at hchildren
    generalize lowerExprParts place' children' = x' at hchildren
    cases hchildren with
    | error e e' => exact .error e e'
    | @ok parts hparts =>
    dsimp only
    rw [hplace, assembleExpr_relocate]
    cases he : assembleExpr (place start.offset) rule parts with
    | some e => exact .ok (same_assembleExpr hparts he)
    | none => exact .error _ _

/-- Alike trees make the same parts, elsewhere. -/
theorem lowerExprParts_carries {ts ts' : List (ParseTree Rule)}
    (h : List.Forall₂ (AlikeTrees f place place') ts ts') :
    Carries (List.map (ExprPart.relocate f)) (fun parts => ∀ p ∈ parts, p.SameSelf)
      (lowerExprParts place ts) (lowerExprParts place' ts') := by
  cases h with
  | nil => exact .ok nofun
  | @cons t t' ts ts' ht hts =>
    have hpart : Carries (ExprPart.relocate f) ExprPart.SameSelf
        (if isOperator t.rule then .ok (.operator t.string)
          else (lowerExpr place t).map .operand : Lowered ExprPart)
        (if isOperator t'.rule then .ok (.operator t'.string)
          else (lowerExpr place' t').map .operand : Lowered ExprPart) := by
      rw [← AlikeTrees.rule_eq ht]
      split
      · next hop =>
        rw [← AlikeTrees.string_eq ht (isRead_of_isOperator hop)]
        exact Carries.ok (show ExprPart.SameSelf (.operator t.string) from trivial)
      · exact (lowerExpr_carries ht).map fun e he => ⟨rfl, he⟩
    unfold lowerExprParts
    generalize (if isOperator t.rule then _ else _ : Lowered ExprPart) = x at hpart ⊢
    generalize (if isOperator t'.rule then _ else _ : Lowered ExprPart) = x' at hpart ⊢
    cases hpart with
    | error e e' => exact .error e e'
    | ok hp =>
      exact (lowerExprParts_carries hts).map fun parts hps =>
        ⟨rfl, List.forall_mem_cons.2 ⟨hp, hps⟩⟩

end

end ServiceLang.MainGrammar
