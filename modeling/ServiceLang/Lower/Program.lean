import ServiceLang.Lower.Declaration

/-!
From parse trees of main text to statements.

The nodes inside a general statement are turned into parts first, and the
statement is then assembled from them.  An `else if` becomes an else block that
holds the nested `if` alone and starts where it starts.
-/

namespace ServiceLang.MainGrammar

open Peg

/-- What a node inside a general statement is. -/
inductive StmtPart where
  | expr (e : Expr)
  | stmt (s : Stmt)
  | names (names : List String)
  | token (rule : Rule) (text : List Char)

namespace StmtPart

def statements (parts : List StmtPart) : List Stmt :=
  parts.filterMap fun
    | stmt s => some s
    | _ => none

def isStmt : StmtPart → Bool
  | stmt _ => true
  | _ => false

def expr? (parts : List StmtPart) : Option Expr :=
  parts.findSome? fun
    | expr e => some e
    | _ => none

def block? (parts : List StmtPart) : Option Block :=
  parts.findSome? fun
    | stmt (.block b) => some b
    | _ => none

def params (parts : List StmtPart) : List String :=
  (parts.findSome? fun
    | names ns => some ns
    | _ => none).getD []

def name (parts : List StmtPart) : String :=
  (parts.findSome? fun
    | token (.lexeme .ident) text => some (String.ofList text)
    | _ => none).getD ""

/-- The shell text among the parts, without white space around it. -/
def command (parts : List StmtPart) : String :=
  (parts.findSome? fun
    | token .shellBody text => some (String.ofList (Text.trim text))
    | _ => none).getD ""

end StmtPart

/-- The else block that the statement after the first block makes. -/
def elseBlock? : List Stmt → Option Block
  | _ :: .block b :: _ => some b
  | _ :: .ifStmt pos c t e :: _ => some (.mk pos [.ifStmt pos c t e])
  | _ => none

/-- The statement that a node makes of its parts. -/
def assembleStmt (pos : Position) (rule : Rule) (parts : List StmtPart) : Option Stmt :=
  let name := StmtPart.name parts
  let expr? := StmtPart.expr? parts
  let block? := StmtPart.block? parts
  match rule with
  | .varDecl => some (.varDecl pos name expr?)
  | .assignment => expr?.map fun e => .assignment pos name e
  | .exprStmt => expr?.map fun e => .exprStmt pos e
  | .ifStmt =>
    match expr?, block? with
    | some condition, some b =>
      some (.ifStmt pos condition b (elseBlock? (StmtPart.statements parts)))
    | _, _ => none
  | .forLoop =>
    match expr?, block? with
    | some iterable, some b => some (.forLoop pos name iterable b)
    | _, _ => none
  | .functionDecl => block?.map fun b => .function pos name (StmtPart.params parts) b
  | .returnStmt => some (.returnStmt pos expr?)
  | .execBlock => some (.exec pos (StmtPart.command parts))
  | .block =>
    if parts.all StmtPart.isStmt then some (.block (.mk pos (StmtPart.statements parts))) else none
  | _ => none

/-- Rules whose nodes are statements. -/
def isStatement : Rule → Bool
  | .varDecl | .assignment | .exprStmt | .ifStmt | .forLoop | .functionDecl | .returnStmt | .block
  | .execBlock | .configDecl | .databaseDecl | .authDecl | .roleDecl | .middlewareDecl
  | .eventDecl | .eventHandler | .integrationDecl | .webhookDecl => true
  | _ => false

mutual

def lowerStmt (place : Nat → Position) : ParseTree Rule → Lowered Stmt
  | .node rule start stop children =>
    match lowerDeclaration? place (.node rule start stop children) with
    | some declaration => declaration
    | none =>
      match lowerStmtParts place children with
      | .error e => .error e
      | .ok parts =>
        match assembleStmt (place start.offset) rule parts with
        | some s => .ok s
        | none => .error ⟨start.offset, .malformed rule.name⟩

/-- The parts that the nodes inside a general statement make. -/
def lowerStmtParts (place : Nat → Position) : List (ParseTree Rule) → Lowered (List StmtPart)
  | [] => .ok []
  | t :: ts =>
    let part : Lowered StmtPart :=
      if isStatement t.rule then (lowerStmt place t).map .stmt
      else if t.rule = .expr || t.rule = .call then (lowerExpr place t).map .expr
      else if t.rule = .paramList then .ok (.names (t.children.map ParseTree.string))
      else .ok (.token t.rule t.text)
    match part with
    | .error e => .error e
    | .ok part => (lowerStmtParts place ts).map (part :: ·)

end

def lowerProgram (place : Nat → Position) (trees : List (ParseTree Rule)) : Lowered (List Stmt) :=
  (trees.flatMap fun t => t.children.filter (·.rule ≠ .lexeme .endOfInput)).mapM (lowerStmt place)

end ServiceLang.MainGrammar
