import ServiceLang.Ast.Node

/-!
Walking a node.

A visit looks at a node, changes the visitor's state and says whether to go on.
The walk is in preorder, and no node is visited after a visit that stops it.
-/

namespace ServiceLang

/-- What a visit, and then the whole walk, says. -/
inductive Verdict where
  | goOn
  | stop
deriving DecidableEq, Repr

def Verdict.name : Verdict → String
  | goOn => "Continue"
  | stop => "Stop"

/-- A part of a walk: from the visitor's state before it to the state after it. -/
def Walk (σ : Type) : Type := σ → σ × Verdict

namespace Walk

variable {σ : Type}

def done : Walk σ := fun s => (s, .goOn)

/-- The first part, and the second unless the first stopped. -/
def andThen (first second : Walk σ) : Walk σ := fun s =>
  match first s with
  | (s, .stop) => (s, .stop)
  | (s, .goOn) => second s

/-- The parts of a walk for each item of a list. -/
def each {α : Type} (part : α → Walk σ) : List α → Walk σ
  | [] => done
  | a :: as => (part a).andThen (each part as)

end Walk

section

variable {σ : Type} (visit : Node → Walk σ)

mutual

def Expr.walk (e : Expr) : Walk σ :=
  (visit (.expr e)).andThen <| match e with
    | .string _ _ | .number _ _ | .bool _ _ | .ident _ _ => .done
    | .array _ elements => Expr.walkAll elements
    | .call _ _ args => Expr.walkAll args
    | .binary _ left _ right => (Expr.walk left).andThen (Expr.walk right)
    | .unary _ _ operand => Expr.walk operand

def Expr.walkAll : List Expr → Walk σ
  | [] => .done
  | e :: es => (Expr.walk e).andThen (Expr.walkAll es)

end

def Property.walkAll : List Property → Walk σ := Walk.each fun p => Expr.walk visit p.value

def Expr.walk? : Option Expr → Walk σ
  | none => .done
  | some e => Expr.walk visit e

mutual

def Step.walk : Step → Walk σ
  | ⟨_, _, _, _, _, input, _, _, _, branches⟩ =>
    (Property.walkAll visit input).andThen (Step.walkAll branches)

def Step.walkAll : List Step → Walk σ
  | [] => .done
  | s :: ss => (Step.walk s).andThen (Step.walkAll ss)

end

def Integration.walk (i : Integration) : Walk σ :=
  Walk.andThen
    (match i.auth with
      | some auth => Property.walkAll visit auth.properties
      | none => .done)
    (Property.walkAll visit i.properties)

mutual

def Stmt.walk (s : Stmt) : Walk σ :=
  (visit (.stmt s)).andThen <| match s with
    | .varDecl _ _ value | .returnStmt _ value => Expr.walk? visit value
    | .assignment _ _ value => Expr.walk visit value
    | .exprStmt _ expr => Expr.walk visit expr
    | .ifStmt _ condition thenBlock none =>
      (Expr.walk visit condition).andThen (Block.walk thenBlock)
    | .ifStmt _ condition thenBlock (some elseBlock) =>
      (Expr.walk visit condition).andThen
        ((Block.walk thenBlock).andThen (Block.walk elseBlock))
    | .forLoop _ _ iterable body => (Expr.walk visit iterable).andThen (Block.walk body)
    | .function _ _ _ body => Block.walk body
    | .block (.mk _ statements) => Stmt.walkAll statements
    | .database _ _ declarations => Stmt.walkAll declarations
    | .config c => Property.walkAll visit c.properties
    | .auth a => Property.walkAll visit a.properties
    | .role r | .middleware r => Property.walkAll visit r.properties
    | .integration i => i.walk visit
    | .webhook w => Property.walkAll visit w.properties
    | .workflow f => Step.walkAll visit f.steps
    | .job j => Step.walkAll visit j.flow.steps
    | .exec _ _ | .model _ | .collection _ | .event _ | .eventHandler _ | .endpoint _ => .done

def Stmt.walkAll : List Stmt → Walk σ
  | [] => .done
  | s :: ss => (Stmt.walk s).andThen (Stmt.walkAll ss)

def Block.walk : Block → Walk σ
  | .mk pos statements => (visit (.block (.mk pos statements))).andThen (Stmt.walkAll statements)

end

def Node.walk : Node → Walk σ
  | .program p => (visit (.program p)).andThen (Stmt.walkAll visit p.statements)
  | .stmt s => s.walk visit
  | .block b => b.walk visit
  | .expr e => e.walk visit

end

end ServiceLang
