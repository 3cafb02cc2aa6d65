import ServiceLang.Ast.Program

/-!
The record view of programs.

A record is a tree of named fields and lists with plain values at its leaves.  Every
node of a program has one; code generators read it as a document.  Fields keep the
order in which they are listed here, and what is missing is null.
-/

namespace ServiceLang

inductive Record where
  | null
  | bool (b : Bool)
  | text (s : String)
  | integer (i : Int)
  | number (x : Float)
  | position (p : Position)
  | list (items : List Record)
  | fields (entries : List (String × Record))
deriving Inhabited

namespace Record

/-- A value that may be missing. -/
def optional {α : Type} (view : α → Record) : Option α → Record
  | none => null
  | some a => view a

def listOf {α : Type} (view : α → Record) (items : List α) : Record := list (items.map view)

def text? : Option String → Record := optional text

def texts : List String → Record := listOf text

def tagged (kind : String) (pos : Position) (entries : List (String × Record)) : Record :=
  fields (("kind", text kind) :: ("pos", position pos) :: entries)

def part (pos : Position) (entries : List (String × Record)) : Record :=
  fields (("pos", position pos) :: entries)

end Record

open Record

mutual

def Expr.record : Expr → Record
  | .string pos value => tagged "String" pos [("value", text value)]
  | .number pos value => tagged "Number" pos [("value", Record.number value)]
  | .bool pos value => tagged "Bool" pos [("value", Record.bool value)]
  | .ident pos name => tagged "Ident" pos [("name", text name)]
  | .array pos elements => tagged "Array" pos [("elements", list (Expr.recordAll elements))]
  | .call pos name args =>
    tagged "Call" pos [("name", text name), ("args", list (Expr.recordAll args))]
  | .binary pos left op right =>
    tagged "Binary" pos [("left", left.record), ("op", text op.name), ("right", right.record)]
  | .unary pos op operand =>
    tagged "Unary" pos [("op", text op.name), ("operand", operand.record)]

def Expr.recordAll : List Expr → List Record
  | [] => []
  | e :: es => e.record :: Expr.recordAll es

end

def Property.record (p : Property) : Record :=
  part p.pos [("key", text p.key), ("value", p.value.record)]

def Property.records : List Property → Record := listOf Property.record

/-! ## Declarations -/

def Modifier.record (m : Modifier) : Record :=
  part m.pos [("name", text m.name), ("argument", text? m.argument)]

mutual

def Field.record : Field → Record
  | .mk pos name fieldType modifiers fields =>
    part pos [("name", text name), ("field_type", text fieldType),
      ("modifiers", listOf Modifier.record modifiers), ("fields", list (Field.recordAll fields))]

def Field.recordAll : List Field → List Record
  | [] => []
  | f :: fs => f.record :: Field.recordAll fs

end

def Index.record (i : Index) : Record :=
  part i.pos [("fields", texts i.fields), ("unique", bool i.unique)]

def Model.record (kind : String) (m : Model) : Record :=
  tagged kind m.pos [("name", text m.name), ("description", text? m.description),
    ("fields", list (Field.recordAll m.fields)), ("indexes", listOf Index.record m.indexes)]

def PropertyBlock.record (kind : String) (b : PropertyBlock) : Record :=
  tagged kind b.pos [("name", text b.name), ("properties", Property.records b.properties)]

def EventField.record (f : EventField) : Record :=
  part f.pos
    [("name", text f.name), ("field_type", text f.fieldType), ("required", bool f.required)]

def IntegrationAuth.record (a : IntegrationAuth) : Record :=
  part a.pos [("kind", text a.kind), ("properties", Property.records a.properties)]

def CircuitBreaker.record (c : CircuitBreaker) : Record :=
  part c.pos [("threshold", integer c.threshold), ("timeout", text c.timeout),
    ("max_concurrent", integer c.maxConcurrent)]

def Integration.record (i : Integration) : Record :=
  tagged "Integration" i.pos [("name", text i.name), ("base_url", text? i.baseUrl),
    ("auth", optional IntegrationAuth.record i.auth),
    ("circuit_breaker", optional CircuitBreaker.record i.circuitBreaker),
    ("properties", Property.records i.properties)]

def Webhook.record (w : Webhook) : Record :=
  tagged "Webhook" w.pos [("name", text w.name), ("url", text? w.url), ("events", texts w.events),
    ("secret", text? w.secret), ("properties", Property.records w.properties)]

/-! ## Endpoints -/

def AnnotationSpec.record (a : AnnotationSpec) : Record :=
  part a.pos [("name", text a.name), ("value", text? a.value)]

def RequestSpec.record (r : RequestSpec) : Record :=
  part r.pos [("type_name", text r.typeName),
    ("source", optional (fun s => text (RequestSource.name s)) r.source)]

def ResponseSpec.record (r : ResponseSpec) : Record :=
  part r.pos [("type_name", text r.typeName), ("status", integer r.status)]

def StepArg.record (a : StepArg) : Record :=
  fields [("value", text a.value), ("quoted", bool a.quoted)]

def StepOption.record (o : StepOption) : Record :=
  fields [("key", text o.key), ("value", o.value.record)]

def LogicStep.record (s : LogicStep) : Record :=
  part s.pos [("action", text s.action), ("target", optional StepArg.record s.target),
    ("args", listOf StepArg.record s.args), ("options", listOf StepOption.record s.options)]

def Endpoint.record (e : Endpoint) : Record :=
  tagged "Endpoint" e.pos [("method", text e.method.name), ("path", text e.path),
    ("description", text? e.description), ("handler", text? e.handler),
    ("middleware", texts e.middleware), ("role", text? e.role),
    ("annotations", listOf AnnotationSpec.record e.annotations),
    ("request", optional RequestSpec.record e.request),
    ("response", optional ResponseSpec.record e.response),
    ("logic", listOf LogicStep.record e.logic)]

/-! ## Flows -/

def Trigger.record (t : Trigger) : Record :=
  part t.pos [("kind", text t.kind.name), ("value", text? t.value)]

def RetryPolicy.record (r : RetryPolicy) : Record :=
  part r.pos [("max_attempts", optional integer r.maxAttempts),
    ("backoff_coefficient", optional number r.backoffCoefficient),
    ("initial_interval", text? r.initialInterval), ("max_interval", text? r.maxInterval)]

mutual

def Step.record : Step → Record
  | ⟨pos, name, kind, description, activity, input, timeout, retry, dependsOn, branches⟩ =>
    part pos [("name", text name), ("kind", text kind.name), ("description", text? description),
      ("activity", text? activity), ("input", Property.records input), ("timeout", text? timeout),
      ("retry", optional RetryPolicy.record retry), ("depends_on", texts dependsOn),
      ("branches", list (Step.recordAll branches))]

def Step.recordAll : List Step → List Record
  | [] => []
  | s :: ss => s.record :: Step.recordAll ss

end

/-- What the records of workflows and jobs have in common. -/
def Flow.entries (f : Flow) : List (String × Record) :=
  [("name", text f.name), ("description", text? f.description),
    ("trigger", optional Trigger.record f.trigger), ("steps", list (Step.recordAll f.steps)),
    ("timeout", text? f.timeout), ("retry", optional RetryPolicy.record f.retry)]

/-! ## Statements -/

mutual

def Stmt.record : Stmt → Record
  | .varDecl pos name value =>
    tagged "VarDecl" pos [("name", text name), ("value", optional Expr.record value)]
  | .assignment pos name value =>
    tagged "Assignment" pos [("name", text name), ("value", value.record)]
  | .exprStmt pos expr => tagged "ExprStmt" pos [("expr", expr.record)]
  | .ifStmt pos condition thenBlock none =>
    tagged "If" pos [("condition", condition.record), ("then_block", thenBlock.record),
      ("else_block", null)]
  | .ifStmt pos condition thenBlock (some elseBlock) =>
    tagged "If" pos [("condition", condition.record), ("then_block", thenBlock.record),
      ("else_block", elseBlock.record)]
  | .forLoop pos name iterable body =>
    tagged "For" pos [("variable", text name), ("iterable", iterable.record), ("body", body.record)]
  | .function pos name params body =>
    tagged "Function" pos [("name", text name), ("params", texts params), ("body", body.record)]
  | .exec pos command => tagged "Exec" pos [("command", text command)]
  | .block (.mk pos statements) =>
    tagged "Block" pos [("statements", list (Stmt.recordAll statements))]
  | .returnStmt pos value => tagged "Return" pos [("value", optional Expr.record value)]
  | .config c =>
    tagged "Config" c.pos [("engine", text c.engine.name),
      ("properties", Property.records c.properties)]
  | .database pos engine declarations =>
    tagged "Database" pos [("engine", text engine.name),
      ("declarations", list (Stmt.recordAll declarations))]
  | .model m => m.record "Model"
  | .collection m => m.record "Collection"
  | .auth a =>
    tagged "Auth" a.pos [("provider", text? a.provider),
      ("properties", Property.records a.properties)]
  | .role r => r.record "Role"
  | .middleware m => m.record "Middleware"
  | .event e =>
    tagged "Event" e.pos [("name", text e.name),
      ("schema", optional (listOf EventField.record) e.schema)]
  | .eventHandler h =>
    tagged "EventHandler" h.pos [("event", text h.event), ("action", text h.action),
      ("target", text h.target), ("is_async", bool h.isAsync)]
  | .integration i => i.record
  | .webhook w => w.record
  | .endpoint e => e.record
  | .workflow f => tagged "Workflow" f.pos f.entries
  | .job j =>
    tagged "Job" j.flow.pos (j.flow.entries ++ [("concurrency", optional integer j.concurrency)])

def Stmt.recordAll : List Stmt → List Record
  | [] => []
  | s :: ss => s.record :: Stmt.recordAll ss

def Block.record : Block → Record
  | .mk pos statements => part pos [("statements", list (Stmt.recordAll statements))]

end

def Program.record (p : Program) : Record :=
  part p.pos [("statements", list (Stmt.recordAll p.statements))]

end ServiceLang
