import ServiceLang.Ast.Endpoint
import ServiceLang.Decimal.Layout
import ServiceLang.Text.Quoted

/-!
Expressions and step words on one line, as messages and dumps cite them.

Every operation is put in parentheses, so the text shows how an expression groups.
-/

namespace ServiceLang

def boolText (b : Bool) : String := if b then "true" else "false"

/-- Items with a comma and a space between them. -/
def commaList (items : List String) : String := ", ".intercalate items

mutual

def Expr.display : Expr → String
  | .string _ value => Text.quoted value
  | .number _ value => Decimal.plain value
  | .bool _ value => boolText value
  | .ident _ name => name
  | .array _ elements => "[" ++ commaList (Expr.displayAll elements) ++ "]"
  | .call _ name args => name ++ "(" ++ commaList (Expr.displayAll args) ++ ")"
  | .binary _ left op right =>
    "(" ++ left.display ++ " " ++ op.symbol ++ " " ++ right.display ++ ")"
  | .unary _ .not operand => "(not " ++ operand.display ++ ")"
  | .unary _ .neg operand => "(-" ++ operand.display ++ ")"

def Expr.displayAll : List Expr → List String
  | [] => []
  | e :: es => e.display :: Expr.displayAll es

end

theorem Expr.displayAll_eq_map (es : List Expr) : Expr.displayAll es = es.map Expr.display := by
  induction es with
  | nil => simp [Expr.displayAll]
  | cons e es ih => simp [Expr.displayAll, ih]

/-- A step word as it is written; a quoted one between quotes. -/
def StepArg.display (a : StepArg) : String := if a.quoted then Text.quoted a.value else a.value

end ServiceLang
