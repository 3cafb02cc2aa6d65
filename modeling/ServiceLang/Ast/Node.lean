import ServiceLang.Ast.Program

/-!
Nodes: programs, statements, the blocks of statements, and expressions.

The preorder of a node is the node itself, followed by the preorders of its
children in the order of the text.  Walking a node visits its preorder up to the
first visit that says to stop.  Two nodes are alike if they are equal up to
positions; the block of an `if`, `for` or function is alike to a block statement.
-/

namespace ServiceLang

inductive NodeKind where
  | program
  | varDecl
  | assignment
  | exprStmt
  | ifStmt
  | forLoop
  | functionDecl
  | execBlock
  | block
  | returnStmt
  | configDecl
  | databaseBlock
  | modelDecl
  | collectionDecl
  | authDecl
  | roleDecl
  | middlewareDecl
  | eventDecl
  | eventHandlerDecl
  | integrationDecl
  | webhookDecl
  | endpointDecl
  | workflowDecl
  | jobDecl
  | stringLiteral
  | numberLiteral
  | boolLiteral
  | identifier
  | arrayLiteral
  | functionCall
  | binaryExpr
  | unaryExpr
deriving DecidableEq, Repr

def NodeKind.name : NodeKind → String
  | program => "Program"
  | varDecl => "VarDecl"
  | assignment => "Assignment"
  | exprStmt => "ExprStmt"
  | ifStmt => "IfStmt"
  | forLoop => "ForLoop"
  | functionDecl => "FunctionDecl"
  | execBlock => "ExecBlock"
  | block => "Block"
  | returnStmt => "ReturnStmt"
  | configDecl => "ConfigDecl"
  | databaseBlock => "DatabaseBlock"
  | modelDecl => "ModelDecl"
  | collectionDecl => "CollectionDecl"
  | authDecl => "AuthDecl"
  | roleDecl => "RoleDecl"
  | middlewareDecl => "MiddlewareDecl"
  | eventDecl => "EventDecl"
  | eventHandlerDecl => "EventHandlerDecl"
  | integrationDecl => "IntegrationDecl"
  | webhookDecl => "WebhookDecl"
  | endpointDecl => "EndpointDecl"
  | workflowDecl => "WorkflowDecl"
  | jobDecl => "JobDecl"
  | stringLiteral => "StringLiteral"
  | numberLiteral => "NumberLiteral"
  | boolLiteral => "BoolLiteral"
  | identifier => "Identifier"
  | arrayLiteral => "ArrayLiteral"
  | functionCall => "FunctionCall"
  | binaryExpr => "BinaryExpr"
  | unaryExpr => "UnaryExpr"

def Expr.kind : Expr → NodeKind
  | .string _ _ => .stringLiteral
  | .number _ _ => .numberLiteral
  | .bool _ _ => .boolLiteral
  | .ident _ _ => .identifier
  | .array _ _ => .arrayLiteral
  | .call _ _ _ => .functionCall
  | .binary _ _ _ _ => .binaryExpr
  | .unary _ _ _ => .unaryExpr

def Stmt.kind : Stmt → NodeKind
  | .varDecl _ _ _ => .varDecl
  | .assignment _ _ _ => .assignment
  | .exprStmt _ _ => .exprStmt
  | .ifStmt _ _ _ _ => .ifStmt
  | .forLoop _ _ _ _ => .forLoop
  | .function _ _ _ _ => .functionDecl
  | .exec _ _ => .execBlock
  | .block _ => .block
  | .returnStmt _ _ => .returnStmt
  | .config _ => .configDecl
  | .database _ _ _ => .databaseBlock
  | .model _ => .modelDecl
  | .collection _ => .collectionDecl
  | .auth _ => .authDecl
  | .role _ => .roleDecl
  | .middleware _ => .middlewareDecl
  | .event _ => .eventDecl
  | .eventHandler _ => .eventHandlerDecl
  | .integration _ => .integrationDecl
  | .webhook _ => .webhookDecl
  | .endpoint _ => .endpointDecl
  | .workflow _ => .workflowDecl
  | .job _ => .jobDecl

inductive Node where
  | program (p : Program)
  | stmt (s : Stmt)
  | block (b : Block)
  | expr (e : Expr)

namespace Node

def kind : Node → NodeKind
  | program _ => .program
  | stmt s => s.kind
  | block _ => .block
  | expr e => e.kind

def pos : Node → Position
  | program p => p.pos
  | stmt s => s.pos
  | block b => b.pos
  | expr e => e.pos

/-- The block that a node is, as a statement or as a part of one. -/
def block? : Node → Option Block
  | block b => some b
  | stmt (.block b) => some b
  | _ => none

/-- Equality up to positions. -/
def same (a b : Node) : Bool :=
  match a.block?, b.block? with
  | some x, some y => x.same y
  | _, _ =>
    match a, b with
    | program x, program y => x.same y
    | stmt x, stmt y => x.same y
    | expr x, expr y => x.same y
    | _, _ => false

end Node

/-! ## Preorder -/

mutual

def Expr.preorder (e : Expr) : List Node :=
  .expr e :: match e with
    | .string _ _ | .number _ _ | .bool _ _ | .ident _ _ => []
    | .array _ elements => Expr.preorderAll elements
    | .call _ _ args => Expr.preorderAll args
    | .binary _ left _ right => left.preorder ++ right.preorder
    | .unary _ _ operand => operand.preorder

def Expr.preorderAll : List Expr → List Node
  | [] => []
  | e :: es => e.preorder ++ Expr.preorderAll es

end

def Expr.preorder? : Option Expr → List Node
  | none => []
  | some e => e.preorder

def Property.preorderAll (properties : List Property) : List Node :=
  properties.flatMap (·.value.preorder)

mutual

def Step.preorder : Step → List Node
  | ⟨_, _, _, _, _, input, _, _, _, branches⟩ =>
    Property.preorderAll input ++ Step.preorderAll branches

def Step.preorderAll : List Step → List Node
  | [] => []
  | s :: ss => s.preorder ++ Step.preorderAll ss

end

/-- The preorders of the properties of an integration, those of its authentication
first. -/
def Integration.preorder (i : Integration) : List Node :=
  (match i.auth with
    | some auth => Property.preorderAll auth.properties
    | none => []) ++ Property.preorderAll i.properties

mutual

def Stmt.preorder (s : Stmt) : List Node :=
  .stmt s :: match s with
    | .varDecl _ _ value | .returnStmt _ value => Expr.preorder? value
    | .assignment _ _ value => value.preorder
    | .exprStmt _ expr => expr.preorder
    | .ifStmt _ condition thenBlock none => condition.preorder ++ thenBlock.preorder
    | .ifStmt _ condition thenBlock (some elseBlock) =>
      condition.preorder ++ thenBlock.preorder ++ elseBlock.preorder
    | .forLoop _ _ iterable body => iterable.preorder ++ body.preorder
    | .function _ _ _ body => body.preorder
    | .block (.mk _ statements) => Stmt.preorderAll statements
    | .database _ _ declarations => Stmt.preorderAll declarations
    | .config c => Property.preorderAll c.properties
    | .auth a => Property.preorderAll a.properties
    | .role r | .middleware r => Property.preorderAll r.properties
    | .integration i => i.preorder
    | .webhook w => Property.preorderAll w.properties
    | .workflow f => Step.preorderAll f.steps
    | .job j => Step.preorderAll j.flow.steps
    | .exec _ _ | .model _ | .collection _ | .event _ | .eventHandler _ | .endpoint _ => []

def Stmt.preorderAll : List Stmt → List Node
  | [] => []
  | s :: ss => s.preorder ++ Stmt.preorderAll ss

/-- A block that is part of a statement, and all nodes below it. -/
def Block.preorder : Block → List Node
  | .mk pos statements => .block (.mk pos statements) :: Stmt.preorderAll statements

end

def Node.preorder : Node → List Node
  | .program p => .program p :: Stmt.preorderAll p.statements
  | .stmt s => s.preorder
  | .block b => b.preorder
  | .expr e => e.preorder

end ServiceLang
