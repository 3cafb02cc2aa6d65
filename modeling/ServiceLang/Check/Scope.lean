import ServiceLang.Ast.Node
import ServiceLang.Check.SymbolTable

/-!
Scopes and types.

Every block opens a scope.  A variable is known after its declaration, a function
already in its own body, and loop variables and parameters belong to the scope of
the body.  Types are inferred from the leaves up and never make a program fail,
except that a loop needs an array or a value of unknown type.
-/

namespace ServiceLang

/-- What can be wrong with the names and types of a program. -/
inductive ScopeProblem where
  | redeclared (name : String) (first : Position)
  | redeclaredBuiltin (name : String)
  | undefinedVariable (name : String)
  | assignedFunction (name : String)
  | notIterable (type : ValueType)
  | undefinedFunction (name : String)
  | argumentCount (name : String) (expected found : Nat)
  | notFunction (name : String)
  | returnOutside
  | notTopLevel (kind : NodeKind)
deriving DecidableEq, Repr

namespace ScopeProblem

def category : ScopeProblem → Category
  | redeclared _ _ | redeclaredBuiltin _ | undefinedVariable _ => .scope
  | assignedFunction _ | notIterable _ => .typeCheck
  | undefinedFunction _ | argumentCount _ _ _ | notFunction _ => .function
  | returnOutside | notTopLevel _ => .semantic

def message : ScopeProblem → String
  | redeclared name first =>
    "duplicate declaration of " ++ cite name ++ " (previously declared at " ++ first.display ++ ")"
  | redeclaredBuiltin name =>
    "duplicate declaration of " ++ cite name ++ " shadows a built-in in the same scope"
  | undefinedVariable name => "undefined variable " ++ cite name
  | assignedFunction name => "cannot assign to function " ++ cite name
  | notIterable type => "cannot iterate over non-array value of type " ++ type.text
  | undefinedFunction name => "undefined function " ++ cite name
  | argumentCount name expected found =>
    "wrong argument count for " ++ cite name ++ ": expected " ++ toString expected ++ ", got " ++
      toString found
  | notFunction name => cite name ++ " is not a function"
  | returnOutside => "return outside of a function"
  | notTopLevel kind => kind.name ++ " is only allowed at the top level"

end ScopeProblem

/-- Problems of names and types where they are found. -/
abbrev ScopeFindings := List (Finding ScopeProblem)

/-! ## Types of expressions -/

/-- The type of an operation on values of these types. -/
def BinaryOp.resultType (op : BinaryOp) (left right : ValueType) : ValueType :=
  if op.isComparison || op.isLogical then .bool
  else if op = .add ∧ (left = .string ∨ right = .string) then .string
  else .number

/-- The type of an operation on one value. -/
def UnaryOp.resultType : UnaryOp → ValueType
  | not => .bool
  | neg => .number

/-- The type of a call with so many arguments of what the name stands for. -/
def callType (pos : Position) (name : String) (count : Nat) :
    Option SymbolKind → ValueType × ScopeFindings
  | none => (.unknown, [⟨pos, .undefinedFunction name⟩])
  | some (.func arity returns) =>
    (returns, demand (arity = count) pos (.argumentCount name arity count))
  | some _ => (.unknown, [⟨pos, .notFunction name⟩])

mutual

/-- The type of an expression, and the names in it that are not used rightly. -/
def Expr.infer (t : SymbolTable) : Expr → ValueType × ScopeFindings
  | .string _ _ => (.string, [])
  | .number _ _ => (.number, [])
  | .bool _ _ => (.bool, [])
  | .ident pos name =>
    match t.lookup name with
    | some symbol => (symbol.valueType, [])
    | none => (.unknown, [⟨pos, .undefinedVariable name⟩])
  | .array _ elements => (.array, Expr.inferAll t elements)
  | .call pos name args =>
    let (type, found) := callType pos name args.length ((t.lookup name).map (·.kind))
    (type, Expr.inferAll t args ++ found)
  | .binary _ left op right =>
    let (leftType, leftFound) := left.infer t
    let (rightType, rightFound) := right.infer t
    (op.resultType leftType rightType, leftFound ++ rightFound)
  | .unary _ op operand => (op.resultType, (operand.infer t).2)

/-- The names in expressions that are not used rightly. -/
def Expr.inferAll (t : SymbolTable) : List Expr → ScopeFindings
  | [] => []
  | e :: es => (e.infer t).2 ++ Expr.inferAll t es

end

/-- The type of an expression that stands alone. -/
def Expr.standaloneType (e : Expr) : ValueType := (e.infer .initial).1

/-! ## Statements -/

/-- How far the pass has come: the scopes opened so far, and how many functions and
how many bodies of any sort are around the place reached. -/
structure Resolver where
  table : SymbolTable
  functionDepth : Nat
  nesting : Nat

/-- Before the first statement. -/
def Resolver.start : Resolver := ⟨.initial, 0, 0⟩

/-- A part of the pass: it moves on and has findings. -/
def Resolve : Type := Resolver → Resolver × ScopeFindings

namespace Resolve

def done : Resolve := fun r => (r, [])

/-- One part after the other. -/
def andThen (first second : Resolve) : Resolve := fun r =>
  let (r, xs) := first r
  let (r, ys) := second r
  (r, xs ++ ys)

def inScope (body : Resolve) : Resolve := fun r =>
  let (r, xs) := body { r with table := r.table.push, nesting := r.nesting + 1 }
  ({ r with table := r.table.pop, nesting := r.nesting - 1 }, xs)

def inFunction (body : Resolve) : Resolve := fun r =>
  let (r, xs) := body { r with functionDepth := r.functionDepth + 1 }
  ({ r with functionDepth := r.functionDepth - 1 }, xs)

/-- Findings that depend on the place reached, which stays as it is. -/
def find (findings : Resolver → ScopeFindings) : Resolve := fun r => (r, findings r)

/-- Declares a symbol.  If its name is taken in the current scope, the first symbol
stays. -/
def declare (symbol : Symbol) : Resolve := fun r =>
  match r.table.declare symbol with
  | .ok table => ({ r with table }, [])
  | .error existing =>
    if existing.pos.isValid then (r, [⟨symbol.pos, .redeclared symbol.name existing.pos⟩])
    else (r, [⟨symbol.pos, .redeclaredBuiltin symbol.name⟩])

/-- The parts for each item of a list. -/
def each {α : Type} (part : α → Resolve) : List α → Resolve
  | [] => done
  | a :: as => (part a).andThen (each part as)

end Resolve

/-- Findings in an expression, if there is one. -/
def Expr.inferOption (t : SymbolTable) : Option Expr → ValueType × ScopeFindings
  | none => (.unknown, [])
  | some e => e.infer t

/-- Assignments need a variable, and functions are none. -/
def assignmentFindings (pos : Position) (name : String) : Option Symbol → ScopeFindings
  | none => [⟨pos, .undefinedVariable name⟩]
  | some symbol =>
    match symbol.kind with
    | .func _ _ => [⟨pos, .assignedFunction name⟩]
    | _ => []

/-- Loops run over arrays, or over what may be one. -/
def iterableFindings (pos : Position) (type : ValueType) : ScopeFindings :=
  demand (type = .array || type = .unknown) pos (.notIterable type)

mutual

def Stmt.resolve (s : Stmt) : Resolve :=
  match s with
  | .varDecl pos name value => fun r =>
    let (type, found) := Expr.inferOption r.table value
    let (r, more) := Resolve.declare ⟨name, .var, type, pos⟩ r
    (r, found ++ more)
  | .assignment pos name value =>
    .find fun r => assignmentFindings pos name (r.table.lookup name) ++ (value.infer r.table).2
  | .exprStmt _ expr => .find fun r => (expr.infer r.table).2
  | .ifStmt _ condition thenBlock none =>
    Resolve.andThen (.find fun r => (condition.infer r.table).2)
      (Resolve.inScope thenBlock.resolve)
  | .ifStmt _ condition thenBlock (some elseBlock) =>
    Resolve.andThen (.find fun r => (condition.infer r.table).2)
      (Resolve.andThen (Resolve.inScope thenBlock.resolve) (Resolve.inScope elseBlock.resolve))
  | .forLoop pos loopVar iterable body =>
    Resolve.andThen
      (.find fun r =>
        let (type, found) := iterable.infer r.table
        found ++ iterableFindings iterable.pos type)
      (Resolve.inScope
        (Resolve.andThen (.declare ⟨loopVar, .var, .unknown, pos⟩) body.resolve))
  | .function pos name params body =>
    Resolve.andThen (.declare ⟨name, .func params.length .unknown, .function, pos⟩)
      (Resolve.inFunction
        (Resolve.inScope
          (Resolve.andThen
            (Resolve.each (fun param => .declare ⟨param, .param, .unknown, pos⟩) params)
            body.resolve)))
  | .exec _ _ => .done
  | .block b => Resolve.inScope b.resolve
  | .returnStmt pos value =>
    .find fun r =>
      demand (r.functionDepth ≠ 0) pos .returnOutside ++ (Expr.inferOption r.table value).2
  | .config _ | .database _ _ _ | .model _ | .collection _ | .auth _ | .role _ | .middleware _
  | .event _ | .eventHandler _ | .integration _ | .webhook _ | .endpoint _ | .workflow _ | .job _ =>
    .find fun r => demand (r.nesting = 0) s.pos (.notTopLevel s.kind)

def Stmt.resolveAll : List Stmt → Resolve
  | [] => .done
  | s :: ss => Resolve.andThen s.resolve (Stmt.resolveAll ss)

/-- Resolves the names of a block's statements, in the current scope. -/
def Block.resolve : Block → Resolve
  | .mk _ statements => Stmt.resolveAll statements

end

/-- The problems of names and types in a program. -/
def Program.scopeFindings (p : Program) : ScopeFindings :=
  (Stmt.resolveAll p.statements .start).2

end ServiceLang
