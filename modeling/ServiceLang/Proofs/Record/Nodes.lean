import ServiceLang.Ast.Node
import ServiceLang.Record.Basic

/-!
The nodes in a record.

A record of a program shows everything that the program holds, so the records of its nodes
can be read off without knowing which declarations hold nodes and where: an entry of a record is
a node if it says first what kind it is, or has the fields of a program or body (`isNode`).
Read in the order of the fields, these are the records of the preorder, one for each node in it
(`Node.nodes_record`): the preorder leaves out nothing and lists nothing twice.
-/

namespace ServiceLang

def Node.record : Node → Record
  | .program p => p.record
  | .stmt s => s.record
  | .block b => b.record
  | .expr e => e.record

namespace Record

/-- The names of fields are those of a node: of a statement or expression, which says first
what kind it is, or else of a program or body. -/
def isNode (names : List String) : Bool := names.head? == some "kind" || names == ["pos", "statements"]

mutual

/-- The nodes in a record, itself included, in the order of the fields. -/
def nodes : Record → List Record
  | .null | .bool _ | .text _ | .integer _ | .number _ | .position _ => []
  | .list items => nodesAll items
  | .fields entries =>
    (if isNode (entries.map Prod.fst) then [.fields entries] else []) ++ nodesIn entries

/-- The nodes in records one after another. -/
def nodesAll : List Record → List Record
  | [] => []
  | r :: rs => r.nodes ++ nodesAll rs

def nodesIn : List (String × Record) → List Record
  | [] => []
  | (_, r) :: entries => r.nodes ++ nodesIn entries

end

/-! ## Values, lists and parts -/

attribute [simp] nodes nodesAll nodesIn

@[simp] theorem nodesIn_append (as bs : List (String × Record)) :
    nodesIn (as ++ bs) = nodesIn as ++ nodesIn bs := by
  induction as with
  | nil => rfl
  | cons a as ih => simp [ih]

@[simp] theorem nodes_tagged (kind : String) (pos : Position) (entries : List (String × Record)) :
    (tagged kind pos entries).nodes = tagged kind pos entries :: nodesIn entries := by
  simp [tagged, isNode]

theorem nodes_part {entries : List (String × Record)} (pos : Position)
    (h : entries.map Prod.fst ≠ ["statements"]) : (part pos entries).nodes = nodesIn entries := by
  have names : isNode ("pos" :: entries.map Prod.fst) = false := by simp [isNode, h]
  simp [part, names]

theorem nodes_part_statements (pos : Position) (statements : Record) :
    (part pos [("statements", statements)]).nodes =
      part pos [("statements", statements)] :: statements.nodes := by
  simp [part, isNode]

@[simp] theorem nodes_listOf {α : Type} (view : α → Record) (items : List α) :
    (listOf view items).nodes = items.flatMap fun a => (view a).nodes := by
  induction items with
  | nil => rfl
  | cons a items ih => simpa [listOf] using ih

@[simp] theorem nodes_texts (items : List String) : (texts items).nodes = [] := by
  simp [texts]

@[simp] theorem optional_none {α : Type} (view : α → Record) : optional view none = null := rfl

@[simp] theorem optional_some {α : Type} (view : α → Record) (a : α) :
    optional view (some a) = view a := rfl

theorem nodes_optional {α : Type} {view : α → Record} (h : ∀ a, (view a).nodes = []) (a : Option α) :
    (optional view a).nodes = [] := by
  cases a with
  | none => rfl
  | some a => exact h a

@[simp] theorem nodes_text? (a : Option String) : (text? a).nodes = [] := nodes_optional (fun _ => rfl) a

@[simp] theorem nodes_integer? (a : Option Int) : (optional integer a).nodes = [] :=
  nodes_optional (fun _ => rfl) a

@[simp] theorem nodes_number? (a : Option Float) : (optional number a).nodes = [] :=
  nodes_optional (fun _ => rfl) a

end Record

open Record

/-! ## Expressions -/

mutual

theorem Expr.nodes_record : ∀ e : Expr, e.record.nodes = e.preorder.map Node.record
  | .string _ _ | .number _ _ | .bool _ _ | .ident _ _ => by
    simp [Expr.record, Expr.preorder, Node.record]
  | .array _ es => by simp [Expr.record, Expr.preorder, Node.record, Expr.nodesAll_recordAll es]
  | .call _ _ es => by simp [Expr.record, Expr.preorder, Node.record, Expr.nodesAll_recordAll es]
  | .binary _ l _ r => by
    simp [Expr.record, Expr.preorder, Node.record, l.nodes_record, r.nodes_record]
  | .unary _ _ e => by simp [Expr.record, Expr.preorder, Node.record, e.nodes_record]

theorem Expr.nodesAll_recordAll : ∀ es : List Expr,
    nodesAll (Expr.recordAll es) = (Expr.preorderAll es).map Node.record
  | [] => rfl
  | e :: es => by
    simp [Expr.recordAll, Expr.preorderAll, e.nodes_record, Expr.nodesAll_recordAll es]

end

theorem Expr.nodes_record? (e : Option Expr) :
    (Record.optional Expr.record e).nodes = (Expr.preorder? e).map Node.record := by
  cases e with
  | none => rfl
  | some e => exact e.nodes_record

/-! ## Declarations

The values of properties are the only nodes in a declaration. -/

@[simp] theorem Property.nodes_records (properties : List Property) :
    (Property.records properties).nodes = (Property.preorderAll properties).map Node.record := by
  have one (p : Property) : p.record.nodes = p.value.preorder.map Node.record := by
    simp [Property.record, nodes_part, Expr.nodes_record]
  simp [Property.records, Property.preorderAll, one, List.map_flatMap]

theorem Modifier.nodes_record (m : Modifier) : m.record.nodes = [] := by
  simp [Modifier.record, nodes_part]

mutual

theorem Field.nodes_record : ∀ f : Field, f.record.nodes = []
  | .mk _ _ _ _ fields => by
    simp [Field.record, nodes_part, Modifier.nodes_record, Field.nodesAll_recordAll fields]

theorem Field.nodesAll_recordAll : ∀ fs : List Field, nodesAll (Field.recordAll fs) = []
  | [] => rfl
  | f :: fs => by simp [Field.recordAll, f.nodes_record, Field.nodesAll_recordAll fs]

end

theorem Index.nodes_record (i : Index) : i.record.nodes = [] := by
  simp [Index.record, nodes_part]

theorem Model.nodes_record (kind : String) (m : Model) : (m.record kind).nodes = [m.record kind] := by
  simp [Model.record, Field.nodesAll_recordAll, Index.nodes_record]

theorem PropertyBlock.nodes_record (kind : String) (b : PropertyBlock) :
    (b.record kind).nodes = b.record kind :: (Property.preorderAll b.properties).map Node.record := by
  simp [PropertyBlock.record]

theorem EventField.nodes_record (f : EventField) : f.record.nodes = [] := by
  simp [EventField.record, nodes_part]

theorem Integration.nodes_record (i : Integration) :
    i.record.nodes = i.record :: i.preorder.map Node.record := by
  have breaker : (optional CircuitBreaker.record i.circuitBreaker).nodes = [] :=
    nodes_optional (fun c => by simp [CircuitBreaker.record, nodes_part]) _
  have auth (a : IntegrationAuth) : a.record.nodes = (Property.preorderAll a.properties).map Node.record := by
    simp [IntegrationAuth.record, nodes_part]
  cases h : i.auth <;> simp [Integration.record, Integration.preorder, h, breaker, auth]

theorem Webhook.nodes_record (w : Webhook) :
    w.record.nodes = w.record :: (Property.preorderAll w.properties).map Node.record := by
  simp [Webhook.record]

theorem StepArg.nodes_record (a : StepArg) : a.record.nodes = [] := by
  simp [StepArg.record, isNode]

theorem LogicStep.nodes_record (s : LogicStep) : s.record.nodes = [] := by
  have option (o : StepOption) : o.record.nodes = [] := by
    simp [StepOption.record, isNode, StepArg.nodes_record]
  simp [LogicStep.record, nodes_part, nodes_optional StepArg.nodes_record, StepArg.nodes_record, option]

theorem Endpoint.nodes_record (e : Endpoint) : e.record.nodes = [e.record] := by
  have annotation (a : AnnotationSpec) : a.record.nodes = [] := by
    simp [AnnotationSpec.record, nodes_part]
  have source (s : Option RequestSource) : (optional (fun s => text (RequestSource.name s)) s).nodes = [] :=
    nodes_optional (fun _ => rfl) s
  have request : (optional RequestSpec.record e.request).nodes = [] :=
    nodes_optional (fun r => by simp [RequestSpec.record, nodes_part, source]) _
  have response : (optional ResponseSpec.record e.response).nodes = [] :=
    nodes_optional (fun r => by simp [ResponseSpec.record, nodes_part]) _
  simp [Endpoint.record, annotation, request, response, LogicStep.nodes_record]

/-! ## Flows -/

theorem RetryPolicy.nodes_record (r : RetryPolicy) : r.record.nodes = [] := by
  simp [RetryPolicy.record, nodes_part]

mutual

theorem Step.nodes_record : ∀ s : Step, s.record.nodes = s.preorder.map Node.record
  | ⟨_, _, _, _, _, _, _, _, _, branches⟩ => by
    simp [Step.record, Step.preorder, nodes_part, nodes_optional RetryPolicy.nodes_record,
      Step.nodesAll_recordAll branches]

theorem Step.nodesAll_recordAll : ∀ ss : List Step,
    nodesAll (Step.recordAll ss) = (Step.preorderAll ss).map Node.record
  | [] => rfl
  | s :: ss => by simp [Step.recordAll, Step.preorderAll, s.nodes_record, Step.nodesAll_recordAll ss]

end

theorem Flow.nodesIn_entries (f : Flow) :
    nodesIn f.entries = (Step.preorderAll f.steps).map Node.record := by
  have trigger : (optional Trigger.record f.trigger).nodes = [] :=
    nodes_optional (fun t => by simp [Trigger.record, nodes_part]) _
  simp [Flow.entries, trigger, nodes_optional RetryPolicy.nodes_record, Step.nodesAll_recordAll]

/-! ## Statements -/

mutual

theorem Stmt.nodes_record : ∀ s : Stmt, s.record.nodes = s.preorder.map Node.record
  | .varDecl _ _ _ | .returnStmt _ _ => by
    simp [Stmt.record, Stmt.preorder, Node.record, Expr.nodes_record?]
  | .assignment _ _ _ | .exprStmt _ _ => by
    simp [Stmt.record, Stmt.preorder, Node.record, Expr.nodes_record]
  | .ifStmt _ c t none => by
    simp [Stmt.record, Stmt.preorder, Node.record, c.nodes_record, t.nodes_record]
  | .ifStmt _ c t (some e) => by
    simp [Stmt.record, Stmt.preorder, Node.record, c.nodes_record, t.nodes_record, e.nodes_record]
  | .forLoop _ _ i b => by
    simp [Stmt.record, Stmt.preorder, Node.record, i.nodes_record, b.nodes_record]
  | .function _ _ _ b => by simp [Stmt.record, Stmt.preorder, Node.record, b.nodes_record]
  | .block (.mk _ ss) => by
    simp [Stmt.record, Stmt.preorder, Node.record, Stmt.nodesAll_recordAll ss]
  | .database _ _ ds => by
    simp [Stmt.record, Stmt.preorder, Node.record, Stmt.nodesAll_recordAll ds]
  | .config _ | .auth _ => by simp [Stmt.record, Stmt.preorder, Node.record]
  | .role r | .middleware r => by
    simp [Stmt.record, Stmt.preorder, Node.record, PropertyBlock.nodes_record]
  | .integration i => by simp [Stmt.record, Stmt.preorder, Node.record, i.nodes_record]
  | .webhook w => by simp [Stmt.record, Stmt.preorder, Node.record, w.nodes_record]
  | .workflow f => by simp [Stmt.record, Stmt.preorder, Node.record, f.nodesIn_entries]
  | .job j => by simp [Stmt.record, Stmt.preorder, Node.record, j.flow.nodesIn_entries]
  | .model m | .collection m => by
    simp [Stmt.record, Stmt.preorder, Node.record, Model.nodes_record]
  | .endpoint e => by simp [Stmt.record, Stmt.preorder, Node.record, e.nodes_record]
  | .event e => by
    have schema : (optional (listOf EventField.record) e.schema).nodes = [] :=
      nodes_optional (fun fields => by simp [EventField.nodes_record]) _
    simp [Stmt.record, Stmt.preorder, Node.record, schema]
  | .exec _ _ | .eventHandler _ => by simp [Stmt.record, Stmt.preorder, Node.record]

theorem Stmt.nodesAll_recordAll : ∀ ss : List Stmt,
    nodesAll (Stmt.recordAll ss) = (Stmt.preorderAll ss).map Node.record
  | [] => rfl
  | s :: ss => by
    simp [Stmt.recordAll, Stmt.preorderAll, s.nodes_record, Stmt.nodesAll_recordAll ss]

theorem Block.nodes_record : ∀ b : Block, b.record.nodes = b.preorder.map Node.record
  | .mk _ ss => by
    simp [Block.record, Block.preorder, Node.record, nodes_part_statements,
      Stmt.nodesAll_recordAll ss]

end

/-- The nodes in the record of a node are the records of its preorder. -/
theorem Node.nodes_record (n : Node) : n.record.nodes = n.preorder.map Node.record := by
  cases n with
  | program p =>
    simp [Node.record, Program.record, Node.preorder, nodes_part_statements,
      Stmt.nodesAll_recordAll]
  | stmt s => exact s.nodes_record
  | block b => exact b.nodes_record
  | expr e => exact e.nodes_record

end ServiceLang
