import ServiceLang.Ast.Display
import ServiceLang.Ast.Node

/-!
The indented dump of a node.

A dump is a list of lines with their depths.  What belongs to a node stands below
its line, one level deeper.  Properties, fields and steps have lines of their own,
though they are no nodes.
-/

namespace ServiceLang

/-- A line of a dump, with its depth. -/
structure DumpLine where
  depth : Nat
  text : String
deriving DecidableEq, Repr

namespace Dump

/-- The line indented by two spaces for each level, and ended. -/
def renderLine (l : DumpLine) : String :=
  String.ofList (List.replicate (2 * l.depth) ' ') ++ l.text ++ "\n"

def render (lines : List DumpLine) : String := String.join (lines.map renderLine)

def line (depth : Nat) (text : String) : List DumpLine := [⟨depth, text⟩]

def setting (depth : Nat) (label : String) : Option String → List DumpLine
  | none => []
  | some value => line depth (label ++ ": " ++ value)

/-- A line for a list of names, unless it is empty. -/
def names (depth : Nat) (label : String) (items : List String) : List DumpLine :=
  if items.isEmpty then [] else line depth (label ++ ": [" ++ commaList items ++ "]")

/-- The lines of something that may be missing. -/
def optional {α : Type} (dump : α → List DumpLine) : Option α → List DumpLine
  | none => []
  | some a => dump a

end Dump

open Dump

mutual

def Expr.dump (depth : Nat) : Expr → List DumpLine
  | .string _ value => line depth ("StringLiteral " ++ Text.quoted value)
  | .number _ value => line depth ("NumberLiteral " ++ Decimal.plain value)
  | .bool _ value => line depth ("BoolLiteral " ++ boolText value)
  | .ident _ name => line depth ("Identifier " ++ name)
  | .array _ elements => line depth "ArrayLiteral" ++ Expr.dumpAll (depth + 1) elements
  | .call _ name args => line depth ("FunctionCall " ++ name) ++ Expr.dumpAll (depth + 1) args
  | .binary _ left op right =>
    line depth ("BinaryExpr " ++ op.symbol) ++ left.dump (depth + 1) ++ right.dump (depth + 1)
  | .unary _ op operand => line depth ("UnaryExpr " ++ op.symbol) ++ operand.dump (depth + 1)

def Expr.dumpAll (depth : Nat) : List Expr → List DumpLine
  | [] => []
  | e :: es => e.dump depth ++ Expr.dumpAll depth es

end

def Property.dumpAll (depth : Nat) (properties : List Property) : List DumpLine :=
  properties.map fun p => ⟨depth, p.key ++ ": " ++ p.value.display⟩

def Modifier.display (m : Modifier) : String :=
  match m.argument with
  | some argument => " @" ++ m.name ++ "(" ++ argument ++ ")"
  | none => " @" ++ m.name

mutual

/-- The dump of a field, with the fields embedded in it below. -/
def Field.dump (depth : Nat) : Field → List DumpLine
  | .mk _ name fieldType modifiers fields =>
    line depth ("Field " ++ name ++ ": " ++ fieldType ++
      String.join (modifiers.map Modifier.display)) ++ Field.dumpAll (depth + 1) fields

def Field.dumpAll (depth : Nat) : List Field → List DumpLine
  | [] => []
  | f :: fs => f.dump depth ++ Field.dumpAll depth fs

end

def Index.dump (depth : Nat) (i : Index) : List DumpLine :=
  line depth ("Index" ++ (if i.unique then " unique" else "") ++ " [" ++ commaList i.fields ++ "]")

def Model.dumpBody (depth : Nat) (m : Model) : List DumpLine :=
  setting depth "description" m.description ++ Field.dumpAll depth m.fields ++
    m.indexes.flatMap (Index.dump depth)

def Event.dumpBody (depth : Nat) (e : Event) : List DumpLine :=
  (e.schema.getD []).map fun f =>
    ⟨depth, f.name ++ ": " ++ f.fieldType ++ (if f.required then "" else "?")⟩

def EventHandler.dump (depth : Nat) (h : EventHandler) : List DumpLine :=
  line depth ("EventHandlerDecl " ++ h.event ++ " -> " ++ h.action ++ " " ++ h.target ++
    (if h.isAsync then " async" else ""))

/-- The dump of an integration's authentication. -/
def IntegrationAuth.dump (depth : Nat) (a : IntegrationAuth) : List DumpLine :=
  line depth ("Auth " ++ a.kind) ++ Property.dumpAll (depth + 1) a.properties

def CircuitBreaker.dump (depth : Nat) (c : CircuitBreaker) : List DumpLine :=
  line depth ("CircuitBreaker threshold=" ++ toString c.threshold ++ " timeout=" ++
    Text.quoted c.timeout ++ " max_concurrent=" ++ toString c.maxConcurrent)

def Integration.dumpBody (depth : Nat) (i : Integration) : List DumpLine :=
  setting depth "base_url" i.baseUrl ++ optional (IntegrationAuth.dump depth) i.auth ++
    optional (CircuitBreaker.dump depth) i.circuitBreaker ++ Property.dumpAll depth i.properties

def Webhook.dumpBody (depth : Nat) (w : Webhook) : List DumpLine :=
  setting depth "url" w.url ++ names depth "events" w.events ++ setting depth "secret" w.secret ++
    Property.dumpAll depth w.properties

def AnnotationSpec.dump (depth : Nat) (a : AnnotationSpec) : List DumpLine :=
  match a.value with
  | some value => line depth ("@" ++ a.name ++ "(" ++ Text.quoted value ++ ")")
  | none => line depth ("@" ++ a.name)

def RequestSpec.dump (depth : Nat) (r : RequestSpec) : List DumpLine :=
  match r.source with
  | some source => line depth ("request: " ++ r.typeName ++ " from " ++ source.text)
  | none => line depth ("request: " ++ r.typeName)

def ResponseSpec.dump (depth : Nat) (r : ResponseSpec) : List DumpLine :=
  line depth ("response: " ++ r.typeName ++ " status " ++ toString r.status)

def LogicStep.dump (depth : Nat) (s : LogicStep) : List DumpLine :=
  let target := match s.target with
    | some t => " " ++ t.display
    | none => ""
  let args := if s.args.isEmpty then "" else "(" ++ commaList (s.args.map StepArg.display) ++ ")"
  let options := s.options.map fun o => " " ++ o.key ++ "=" ++ o.value.display
  line depth (s.action ++ target ++ args ++ String.join options)

def Endpoint.dumpBody (depth : Nat) (e : Endpoint) : List DumpLine :=
  e.annotations.flatMap (AnnotationSpec.dump depth) ++ setting depth "description" e.description ++
    setting depth "handler" e.handler ++ names depth "middleware" e.middleware ++
    setting depth "role" e.role ++ optional (RequestSpec.dump depth) e.request ++
    optional (ResponseSpec.dump depth) e.response ++
    (if e.logic.isEmpty then []
      else line depth "Logic" ++ e.logic.flatMap (LogicStep.dump (depth + 1)))

/-- A line for a retry policy; what is not set is left out. -/
def RetryPolicy.dump (depth : Nat) (r : RetryPolicy) : List DumpLine :=
  let part {α : Type} (label : String) (text : α → String) (value : Option α) : List String :=
    match value with
    | some v => [label ++ "=" ++ text v]
    | none => []
  line depth ("Retry " ++ " ".intercalate
    (part "max_attempts" toString r.maxAttempts ++
      part "backoff_coefficient" Decimal.plain r.backoffCoefficient ++
      part "initial_interval" id r.initialInterval ++ part "max_interval" id r.maxInterval))

def Trigger.dump (depth : Nat) (t : Trigger) : List DumpLine :=
  match t.value with
  | some value => line depth ("Trigger " ++ t.kind.text ++ " " ++ Text.quoted value)
  | none => line depth ("Trigger " ++ t.kind.text)

def StepKind.title : StepKind → String
  | activity => "Step"
  | parallel => "Parallel"

mutual

/-- The dump of a step, with its branches below. -/
def Step.dump (depth : Nat) : Step → List DumpLine
  | ⟨_, name, kind, description, activity, input, timeout, retry, dependsOn, branches⟩ =>
    let inner := depth + 1
    line depth (kind.title ++ " " ++ name) ++ setting inner "description" description ++
      setting inner "activity" activity ++ setting inner "timeout" timeout ++
      names inner "depends_on" dependsOn ++
      (if input.isEmpty then []
        else line inner "Input" ++ Property.dumpAll (inner + 1) input) ++
      optional (RetryPolicy.dump inner) retry ++ Step.dumpAll inner branches

def Step.dumpAll (depth : Nat) : List Step → List DumpLine
  | [] => []
  | s :: ss => s.dump depth ++ Step.dumpAll depth ss

end

def Flow.dumpBody (depth : Nat) (f : Flow) : List DumpLine :=
  setting depth "description" f.description ++ optional (Trigger.dump depth) f.trigger ++
    setting depth "timeout" f.timeout ++ optional (RetryPolicy.dump depth) f.retry ++
    Step.dumpAll depth f.steps

def Job.dumpBody (depth : Nat) (j : Job) : List DumpLine :=
  setting depth "concurrency" (j.concurrency.map toString) ++ j.flow.dumpBody depth

mutual

def Stmt.dump (depth : Nat) : Stmt → List DumpLine
  | .varDecl _ name value =>
    line depth ("VarDecl " ++ name) ++ optional (Expr.dump (depth + 1)) value
  | .assignment _ name value => line depth ("Assignment " ++ name) ++ value.dump (depth + 1)
  | .exprStmt _ expr => line depth "ExprStmt" ++ expr.dump (depth + 1)
  | .ifStmt _ condition thenBlock none =>
    line depth "IfStmt" ++ condition.dump (depth + 1) ++ Block.dump (depth + 1) "Then" thenBlock
  | .ifStmt _ condition thenBlock (some elseBlock) =>
    line depth "IfStmt" ++ condition.dump (depth + 1) ++
      Block.dump (depth + 1) "Then" thenBlock ++ Block.dump (depth + 1) "Else" elseBlock
  | .forLoop _ name iterable body =>
    line depth ("ForLoop " ++ name) ++ iterable.dump (depth + 1) ++
      Block.dump (depth + 1) "Body" body
  | .function _ name params body =>
    line depth ("FunctionDecl " ++ name ++ "(" ++ commaList params ++ ")") ++
      Block.dump (depth + 1) "Body" body
  | .exec _ command => line depth ("ExecBlock " ++ Text.quoted command)
  | .block b => Block.dump depth "Block" b
  | .returnStmt _ value => line depth "ReturnStmt" ++ optional (Expr.dump (depth + 1)) value
  | .config c =>
    line depth ("ConfigDecl " ++ c.engine.text) ++ Property.dumpAll (depth + 1) c.properties
  | .database _ engine declarations =>
    line depth ("DatabaseBlock " ++ engine.text) ++ Stmt.dumpAll (depth + 1) declarations
  | .model m => line depth ("ModelDecl " ++ m.name) ++ m.dumpBody (depth + 1)
  | .collection m => line depth ("CollectionDecl " ++ m.name) ++ m.dumpBody (depth + 1)
  | .auth a =>
    line depth (match a.provider with
      | some provider => "AuthDecl " ++ provider
      | none => "AuthDecl") ++ Property.dumpAll (depth + 1) a.properties
  | .role r => line depth ("RoleDecl " ++ r.name) ++ Property.dumpAll (depth + 1) r.properties
  | .middleware m =>
    line depth ("MiddlewareDecl " ++ m.name) ++ Property.dumpAll (depth + 1) m.properties
  | .event e => line depth ("EventDecl " ++ e.name) ++ e.dumpBody (depth + 1)
  | .eventHandler h => h.dump depth
  | .integration i => line depth ("IntegrationDecl " ++ i.name) ++ i.dumpBody (depth + 1)
  | .webhook w => line depth ("WebhookDecl " ++ w.name) ++ w.dumpBody (depth + 1)
  | .endpoint e =>
    line depth ("EndpointDecl " ++ e.method.text ++ " " ++ e.path) ++ e.dumpBody (depth + 1)
  | .workflow f => line depth ("WorkflowDecl " ++ f.name) ++ f.dumpBody (depth + 1)
  | .job j => line depth ("JobDecl " ++ j.flow.name) ++ j.dumpBody (depth + 1)

def Stmt.dumpAll (depth : Nat) : List Stmt → List DumpLine
  | [] => []
  | s :: ss => s.dump depth ++ Stmt.dumpAll depth ss

def Block.dump (depth : Nat) (label : String) : Block → List DumpLine
  | .mk _ statements => line depth label ++ Stmt.dumpAll (depth + 1) statements

end

def Node.dump : Node → List DumpLine
  | .program p => line 0 "Program" ++ Stmt.dumpAll 1 p.statements
  | .stmt s => s.dump 0
  | .block b => b.dump 0 "Block"
  | .expr e => e.dump 0

def Node.print (n : Node) : String := render n.dump

end ServiceLang
