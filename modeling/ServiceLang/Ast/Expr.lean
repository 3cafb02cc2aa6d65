import ServiceLang.Source.Position

/-!
Expressions.

Numbers are binary64 values.  The logical operators have two spellings each and
one meaning; `!` and `not` are the same operator too.
-/

namespace ServiceLang

/-- The operators between two operands. -/
inductive BinaryOp where
  | add
  | sub
  | mul
  | div
  | mod
  | eq
  | ne
  | lt
  | le
  | gt
  | ge
  | and
  | or
deriving DecidableEq, Repr

namespace BinaryOp

def all : List BinaryOp := [add, sub, mul, div, mod, eq, ne, lt, le, gt, ge, and, or]

def symbol : BinaryOp → String
  | add => "+"
  | sub => "-"
  | mul => "*"
  | div => "/"
  | mod => "%"
  | eq => "=="
  | ne => "!="
  | lt => "<"
  | le => "<="
  | gt => ">"
  | ge => ">="
  | and => "and"
  | or => "or"

def ofSymbol? : String → Option BinaryOp
  | "&&" => some and
  | "||" => some or
  | s => all.find? (·.symbol = s)

/-- The name of the operator in the record view of programs. -/
def name : BinaryOp → String
  | add => "Add"
  | sub => "Sub"
  | mul => "Mul"
  | div => "Div"
  | mod => "Mod"
  | eq => "Eq"
  | ne => "Ne"
  | lt => "Lt"
  | le => "Le"
  | gt => "Gt"
  | ge => "Ge"
  | and => "And"
  | or => "Or"

/-- Operators that compare their operands. -/
def isComparison : BinaryOp → Bool
  | eq | ne | lt | le | gt | ge => true
  | _ => false

/-- Operators on truth values. -/
def isLogical : BinaryOp → Bool
  | and | or => true
  | _ => false

/-- What is printed reads back. -/
theorem ofSymbol?_symbol (op : BinaryOp) : ofSymbol? op.symbol = some op := by
  cases op <;> decide

end BinaryOp

/-- The operators in front of an operand. -/
inductive UnaryOp where
  | not
  | neg
deriving DecidableEq, Repr

namespace UnaryOp

def symbol : UnaryOp → String
  | not => "not"
  | neg => "-"

def ofSymbol? : String → Option UnaryOp
  | "!" | "not" => some not
  | "-" => some neg
  | _ => none

/-- The name of the operator in the record view of programs. -/
def name : UnaryOp → String
  | not => "Not"
  | neg => "Neg"

/-- What is printed reads back. -/
theorem ofSymbol?_symbol (op : UnaryOp) : ofSymbol? op.symbol = some op := by
  cases op <;> decide

end UnaryOp

/-- An expression with the positions of its parts. -/
inductive Expr where
  | string (pos : Position) (value : String)
  | number (pos : Position) (value : Float)
  | bool (pos : Position) (value : Bool)
  | ident (pos : Position) (name : String)
  | array (pos : Position) (elements : List Expr)
  | call (pos : Position) (name : String) (args : List Expr)
  | binary (pos : Position) (left : Expr) (op : BinaryOp) (right : Expr)
  | unary (pos : Position) (op : UnaryOp) (operand : Expr)
deriving Inhabited

namespace Expr

def pos : Expr → Position
  | string p _ | number p _ | bool p _ | ident p _ | array p _ | call p _ _ | binary p _ _ _
  | unary p _ _ => p

def string? : Expr → Option String
  | string _ value => some value
  | _ => none

def number? : Expr → Option Float
  | number _ value => some value
  | _ => none

end Expr

/-! ## Equality up to positions -/

/-- The lists have the same length and their elements are pairwise alike. -/
def sameList {α : Type} (same : α → α → Bool) : List α → List α → Bool
  | [], [] => true
  | a :: as, b :: bs => same a b && sameList same as bs
  | _, _ => false

/-- Both are missing, or both present and alike. -/
def sameOption {α : Type} (same : α → α → Bool) : Option α → Option α → Bool
  | none, none => true
  | some a, some b => same a b
  | _, _ => false

mutual

/-- Equality up to positions.  Numbers are compared as numbers, so zero equals its
negative and not-a-number nothing. -/
def Expr.same : Expr → Expr → Bool
  | .string _ a, .string _ b => a == b
  | .number _ a, .number _ b => a == b
  | .bool _ a, .bool _ b => a == b
  | .ident _ a, .ident _ b => a == b
  | .array _ as, .array _ bs => Expr.sameAll as bs
  | .call _ f as, .call _ g bs => f == g && Expr.sameAll as bs
  | .binary _ l o r, .binary _ l' o' r' => o == o' && l.same l' && r.same r'
  | .unary _ o e, .unary _ o' e' => o == o' && e.same e'
  | _, _ => false

def Expr.sameAll : List Expr → List Expr → Bool
  | [], [] => true
  | a :: as, b :: bs => a.same b && Expr.sameAll as bs
  | _, _ => false

end

theorem Expr.sameAll_eq_sameList (as bs : List Expr) :
    Expr.sameAll as bs = sameList Expr.same as bs := by
  induction as generalizing bs with
  | nil => cases bs <;> simp [Expr.sameAll, sameList]
  | cons a as ih => cases bs <;> simp [Expr.sameAll, sameList, ih]

end ServiceLang
