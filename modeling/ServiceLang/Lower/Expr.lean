import ServiceLang.Decimal.Read
import ServiceLang.Grammar.Main
import ServiceLang.Lower.Defect
import ServiceLang.Peg.ParseTree
import ServiceLang.Text.Escape

/-!
From parse trees of expressions to expressions.

The levels of precedence leave a node each; a level without operators is its only
operand.  Operators of one level group to the left, and an expression that they
make starts where the level starts.
-/

namespace ServiceLang.MainGrammar

open Peg

/-- A node inside an expression: an operand, or the text of an operator. -/
inductive ExprPart where
  | operand (e : Expr)
  | operator (symbol : String)

namespace ExprPart

def operands (parts : List ExprPart) : List Expr :=
  parts.filterMap fun
    | operand e => some e
    | operator _ => none

def isOperand : ExprPart → Bool
  | operand _ => true
  | operator _ => false

end ExprPart

/-- Rules whose nodes are operators. -/
def isOperator : Rule → Bool
  | .orOp | .andOp | .cmpOp | .addOp | .mulOp | .unaryOp => true
  | _ => false

/-- Groups operators and right operands to the left. -/
def groupLeft (pos : Position) (left : Expr) : List ExprPart → Option Expr
  | [] => some left
  | .operator symbol :: .operand right :: rest =>
    match BinaryOp.ofSymbol? symbol with
    | some op => groupLeft pos (.binary pos left op right) rest
    | none => none
  | _ => none

/-- The literal or identifier that a node is. -/
def leafExpr? (pos : Position) (t : ParseTree Rule) : Option Expr :=
  match t.rule with
  | .lexeme .boolLit => some (.bool pos (t.text = "true".toList))
  | .lexeme .number => some (.number pos (Decimal.ofLiteral t.text))
  | .lexeme .string => some (.string pos (Text.literalValue t.text))
  | .lexeme .ident => some (.ident pos t.string)
  | _ => none

/-- The expression that a node makes of its parts. -/
def assembleExpr (pos : Position) (rule : Rule) (parts : List ExprPart) : Option Expr :=
  match rule, parts with
  | .expr, [.operand e] => some e
  | .unaryExpr, [.operand e] => some e
  | .unaryExpr, [.operator symbol, .operand e] =>
    (UnaryOp.ofSymbol? symbol).map fun op => .unary pos op e
  | .arrayLit, parts =>
    if parts.all ExprPart.isOperand then some (.array pos (ExprPart.operands parts)) else none
  | .call, .operand (.ident _ name) :: args => some (.call pos name (ExprPart.operands args))
  | .orExpr, .operand left :: rest
  | .andExpr, .operand left :: rest
  | .cmpExpr, .operand left :: rest
  | .addExpr, .operand left :: rest
  | .mulExpr, .operand left :: rest => groupLeft pos left rest
  | _, _ => none

mutual

/-- The expression of a node; `place` gives the position of an offset. -/
def lowerExpr (place : Nat → Position) : ParseTree Rule → Lowered Expr
  | .node rule start stop children =>
    match leafExpr? (place start.offset) (.node rule start stop children) with
    | some e => .ok e
    | none =>
      match lowerExprParts place children with
      | .error e => .error e
      | .ok parts =>
        match assembleExpr (place start.offset) rule parts with
        | some e => .ok e
        | none => .error ⟨start.offset, .malformed rule.name⟩

/-- The parts that the nodes inside an expression make. -/
def lowerExprParts (place : Nat → Position) : List (ParseTree Rule) → Lowered (List ExprPart)
  | [] => .ok []
  | t :: ts =>
    match (if isOperator t.rule then .ok (.operator t.string)
      else (lowerExpr place t).map .operand : Lowered ExprPart) with
    | .error e => .error e
    | .ok part => (lowerExprParts place ts).map (part :: ·)

end

end ServiceLang.MainGrammar
