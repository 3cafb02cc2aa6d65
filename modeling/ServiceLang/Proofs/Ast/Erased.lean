import ServiceLang.Ast.Dump
import ServiceLang.Proofs.Ast.Relocated

/-!
Nodes without their positions.

Erasing a node makes all its positions unknown (`Node.erased`).  A block that is part of an `if`, `for` or
function then is a block statement, since nothing but its place in the tree told them apart.
What a dump shows is no position, so a node and its erasure have the same dump (`Node.print_erased`);
and they hold nodes of the same kinds in the same order (`Node.kinds_erased`).
-/

namespace ServiceLang

open Dump

variable (f : Position → Position)

/-! ## Dumps -/

section

variable {α β : Type} {dump : β → List DumpLine} {dump' : α → List DumpLine} {g : α → β}

theorem Dump.optional_map (h : ∀ a, dump (g a) = dump' a) (a : Option α) :
    optional dump (a.map g) = optional dump' a := by
  cases a with
  | none => rfl
  | some a => exact h a

theorem Dump.flatMap_map (h : ∀ a, dump (g a) = dump' a) (as : List α) :
    (as.map g).flatMap dump = as.flatMap dump' := by
  rw [List.flatMap_map]
  exact congrArg (as.flatMap ·) (funext h)

end

mutual

theorem Expr.dump_relocate : ∀ (depth : Nat) (e : Expr), (e.relocate f).dump depth = e.dump depth
  | _, .string _ _ | _, .number _ _ | _, .bool _ _ | _, .ident _ _ => rfl
  | depth, .array _ es => by
    rw [Expr.relocate, Expr.dump, Expr.dump, Expr.dumpAll_relocateAll (depth + 1) es]
  | depth, .call _ _ es => by
    rw [Expr.relocate, Expr.dump, Expr.dump, Expr.dumpAll_relocateAll (depth + 1) es]
  | depth, .binary _ l _ r => by
    rw [Expr.relocate, Expr.dump, Expr.dump, Expr.dump_relocate (depth + 1) l,
      Expr.dump_relocate (depth + 1) r]
  | depth, .unary _ _ e => by
    rw [Expr.relocate, Expr.dump, Expr.dump, Expr.dump_relocate (depth + 1) e]

theorem Expr.dumpAll_relocateAll : ∀ (depth : Nat) (es : List Expr),
    Expr.dumpAll depth (Expr.relocateAll f es) = Expr.dumpAll depth es
  | _, [] => rfl
  | depth, e :: es => by
    rw [Expr.relocateAll, Expr.dumpAll, Expr.dumpAll, Expr.dump_relocate depth e,
      Expr.dumpAll_relocateAll depth es]

end

@[simp] theorem Expr.optional_dump_relocate (depth : Nat) (e : Option Expr) :
    optional (Expr.dump depth) (e.map (Expr.relocate f)) = optional (Expr.dump depth) e :=
  optional_map (Expr.dump_relocate f depth) e

@[simp] theorem Property.dumpAll_relocate (depth : Nat) (properties : List Property) :
    Property.dumpAll depth (relocateProperties f properties) = Property.dumpAll depth properties := by
  simp [Property.dumpAll, relocateProperties, Property.relocate, Expr.display_relocate]

mutual

theorem Field.dump_relocate : ∀ (depth : Nat) (x : Field), (x.relocate f).dump depth = x.dump depth
  | depth, .mk _ _ _ modifiers fields => by
    have hmodifiers : (modifiers.map (Modifier.relocate f)).map Modifier.display =
        modifiers.map Modifier.display := List.map_map
    rw [Field.relocate, Field.dump, Field.dump, hmodifiers, Field.dumpAll_relocateAll (depth + 1) fields]

theorem Field.dumpAll_relocateAll : ∀ (depth : Nat) (xs : List Field),
    Field.dumpAll depth (Field.relocateAll f xs) = Field.dumpAll depth xs
  | _, [] => rfl
  | depth, x :: xs => by
    rw [Field.relocateAll, Field.dumpAll, Field.dumpAll, Field.dump_relocate depth x,
      Field.dumpAll_relocateAll depth xs]

end

theorem Model.dumpBody_relocate (depth : Nat) (m : Model) : (m.relocate f).dumpBody depth = m.dumpBody depth := by
  have hindexes : (m.indexes.map (Index.relocate f)).flatMap (Index.dump depth) =
      m.indexes.flatMap (Index.dump depth) := flatMap_map (fun _ => rfl) _
  simp only [Model.dumpBody, Model.relocate, Field.dumpAll_relocateAll, hindexes]

theorem Event.dumpBody_relocate (depth : Nat) (e : Event) : (e.relocate f).dumpBody depth = e.dumpBody depth := by
  obtain ⟨_, _, schema⟩ := e
  cases schema with
  | none => rfl
  | some fields => exact List.map_map

theorem Integration.dumpBody_relocate (depth : Nat) (i : Integration) :
    (i.relocate f).dumpBody depth = i.dumpBody depth := by
  have hauth : optional (IntegrationAuth.dump depth) (i.auth.map (IntegrationAuth.relocate f)) =
      optional (IntegrationAuth.dump depth) i.auth :=
    optional_map (fun a => by simp [IntegrationAuth.dump, IntegrationAuth.relocate]) _
  have hbreaker : optional (CircuitBreaker.dump depth) (i.circuitBreaker.map (CircuitBreaker.relocate f)) =
      optional (CircuitBreaker.dump depth) i.circuitBreaker := optional_map (fun _ => rfl) _
  simp only [Integration.dumpBody, Integration.relocate, Property.dumpAll_relocate, hauth, hbreaker]

theorem Webhook.dumpBody_relocate (depth : Nat) (w : Webhook) :
    (w.relocate f).dumpBody depth = w.dumpBody depth := by
  simp only [Webhook.dumpBody, Webhook.relocate, Property.dumpAll_relocate]

theorem Endpoint.dumpBody_relocate (depth : Nat) (e : Endpoint) :
    (e.relocate f).dumpBody depth = e.dumpBody depth := by
  have hannotations : (e.annotations.map (AnnotationSpec.relocate f)).flatMap (AnnotationSpec.dump depth) =
      e.annotations.flatMap (AnnotationSpec.dump depth) := flatMap_map (fun _ => rfl) _
  have hrequest : optional (RequestSpec.dump depth) (e.request.map (RequestSpec.relocate f)) =
      optional (RequestSpec.dump depth) e.request := optional_map (fun _ => rfl) _
  have hresponse : optional (ResponseSpec.dump depth) (e.response.map (ResponseSpec.relocate f)) =
      optional (ResponseSpec.dump depth) e.response := optional_map (fun _ => rfl) _
  have hlogic : (e.logic.map (LogicStep.relocate f)).flatMap (LogicStep.dump (depth + 1)) =
      e.logic.flatMap (LogicStep.dump (depth + 1)) := flatMap_map (fun _ => rfl) _
  simp only [Endpoint.dumpBody, Endpoint.relocate, hannotations, hrequest, hresponse, hlogic,
    List.isEmpty_map]

mutual

theorem Step.dump_relocate : ∀ (depth : Nat) (s : Step), (s.relocate f).dump depth = s.dump depth
  | depth, ⟨_, _, _, _, _, input, _, retry, _, branches⟩ => by
    have hretry : optional (RetryPolicy.dump (depth + 1)) (retry.map (RetryPolicy.relocate f)) =
        optional (RetryPolicy.dump (depth + 1)) retry := optional_map (fun _ => rfl) _
    have hempty : (relocateProperties f input).isEmpty = input.isEmpty := List.isEmpty_map
    simp only [Step.relocate, Step.dump, Property.dumpAll_relocate, hretry, hempty,
      Step.dumpAll_relocateAll (depth + 1) branches]

theorem Step.dumpAll_relocateAll : ∀ (depth : Nat) (ss : List Step),
    Step.dumpAll depth (Step.relocateAll f ss) = Step.dumpAll depth ss
  | _, [] => rfl
  | depth, s :: ss => by
    rw [Step.relocateAll, Step.dumpAll, Step.dumpAll, Step.dump_relocate depth s,
      Step.dumpAll_relocateAll depth ss]

end

theorem Flow.dumpBody_relocate (depth : Nat) (x : Flow) : (x.relocate f).dumpBody depth = x.dumpBody depth := by
  have htrigger : optional (Trigger.dump depth) (x.trigger.map (Trigger.relocate f)) =
      optional (Trigger.dump depth) x.trigger := optional_map (fun _ => rfl) _
  have hretry : optional (RetryPolicy.dump depth) (x.retry.map (RetryPolicy.relocate f)) =
      optional (RetryPolicy.dump depth) x.retry := optional_map (fun _ => rfl) _
  simp only [Flow.dumpBody, Flow.relocate, htrigger, hretry, Step.dumpAll_relocateAll]

mutual

theorem Stmt.dump_relocate : ∀ (depth : Nat) (s : Stmt), (s.relocate f).dump depth = s.dump depth
  | _, .varDecl _ _ _ | _, .returnStmt _ _ => by
    simp only [Stmt.relocate, Stmt.dump, Expr.optional_dump_relocate]
  | _, .assignment _ _ _ | _, .exprStmt _ _ => by
    simp only [Stmt.relocate, Stmt.dump, Expr.dump_relocate]
  | depth, .ifStmt _ _ b none => by
    simp only [Stmt.relocate, Stmt.dump, Expr.dump_relocate, Block.dump_relocate (depth + 1) _ b]
  | depth, .ifStmt _ _ b (some c) => by
    simp only [Stmt.relocate, Stmt.dump, Expr.dump_relocate, Block.dump_relocate (depth + 1) _ b,
      Block.dump_relocate (depth + 1) _ c]
  | depth, .forLoop _ _ _ b => by
    simp only [Stmt.relocate, Stmt.dump, Expr.dump_relocate, Block.dump_relocate (depth + 1) _ b]
  | depth, .function _ _ _ b => by
    simp only [Stmt.relocate, Stmt.dump, Block.dump_relocate (depth + 1) _ b]
  | _, .exec _ _ => rfl
  | depth, .block b => Block.dump_relocate depth "Block" b
  | depth, .database _ _ ss => by
    simp only [Stmt.relocate, Stmt.dump, Stmt.dumpAll_relocateAll (depth + 1) ss]
  | _, .config _ | _, .auth _ | _, .role _ | _, .middleware _ => by
    simp only [Stmt.relocate, Stmt.dump, Config.relocate, Auth.relocate, PropertyBlock.relocate,
      Property.dumpAll_relocate]
  | _, .model m | _, .collection m => by
    simp only [Stmt.relocate, Stmt.dump, m.dumpBody_relocate]
    rfl
  | _, .event e => by simp only [Stmt.relocate, Stmt.dump, e.dumpBody_relocate]; rfl
  | _, .eventHandler _ => rfl
  | _, .integration i => by simp only [Stmt.relocate, Stmt.dump, i.dumpBody_relocate]; rfl
  | _, .webhook w => by simp only [Stmt.relocate, Stmt.dump, w.dumpBody_relocate]; rfl
  | _, .endpoint e => by simp only [Stmt.relocate, Stmt.dump, e.dumpBody_relocate]; rfl
  | _, .workflow x => by simp only [Stmt.relocate, Stmt.dump, x.dumpBody_relocate]; rfl
  | _, .job j => by
    simp only [Stmt.relocate, Stmt.dump, Job.relocate, Job.dumpBody, j.flow.dumpBody_relocate]
    rfl

theorem Stmt.dumpAll_relocateAll : ∀ (depth : Nat) (ss : List Stmt),
    Stmt.dumpAll depth (Stmt.relocateAll f ss) = Stmt.dumpAll depth ss
  | _, [] => rfl
  | depth, s :: ss => by
    rw [Stmt.relocateAll, Stmt.dumpAll, Stmt.dumpAll, Stmt.dump_relocate depth s,
      Stmt.dumpAll_relocateAll depth ss]

theorem Block.dump_relocate : ∀ (depth : Nat) (label : String) (b : Block),
    (b.relocate f).dump depth label = b.dump depth label
  | depth, _, .mk _ ss => by
    rw [Block.relocate, Block.dump, Block.dump, Stmt.dumpAll_relocateAll (depth + 1) ss]

end

/-! ## Kinds -/

def kindsOf (nodes : List Node) : List NodeKind := nodes.map Node.kind

@[simp] theorem kindsOf_nil : kindsOf [] = [] := rfl

@[simp] theorem kindsOf_cons (n : Node) (nodes : List Node) :
    kindsOf (n :: nodes) = n.kind :: kindsOf nodes := rfl

@[simp] theorem kindsOf_append (ms ns : List Node) : kindsOf (ms ++ ns) = kindsOf ms ++ kindsOf ns :=
  List.map_append

theorem kindsOf_flatMap_map {α β : Type} {nodes : β → List Node} {nodes' : α → List Node} {g : α → β}
    (h : ∀ a, kindsOf (nodes (g a)) = kindsOf (nodes' a)) (as : List α) :
    kindsOf ((as.map g).flatMap nodes) = kindsOf (as.flatMap nodes') := by
  induction as with
  | nil => rfl
  | cons a as ih => simp [h, ih]

mutual

theorem Expr.kinds_relocate : ∀ e : Expr, kindsOf (e.relocate f).preorder = kindsOf e.preorder
  | .string _ _ | .number _ _ | .bool _ _ | .ident _ _ => rfl
  | .array _ es => by simp [Expr.relocate, Expr.preorder, Node.kind, Expr.kind, Expr.kinds_relocateAll es]
  | .call _ _ es => by simp [Expr.relocate, Expr.preorder, Node.kind, Expr.kind, Expr.kinds_relocateAll es]
  | .binary _ l _ r => by
    simp [Expr.relocate, Expr.preorder, Node.kind, Expr.kind, l.kinds_relocate, r.kinds_relocate]
  | .unary _ _ e => by simp [Expr.relocate, Expr.preorder, Node.kind, Expr.kind, e.kinds_relocate]

theorem Expr.kinds_relocateAll : ∀ es : List Expr,
    kindsOf (Expr.preorderAll (Expr.relocateAll f es)) = kindsOf (Expr.preorderAll es)
  | [] => rfl
  | e :: es => by
    simp [Expr.relocateAll, Expr.preorderAll, e.kinds_relocate, Expr.kinds_relocateAll es]

end

theorem Expr.kinds_relocate? (e : Option Expr) :
    kindsOf (Expr.preorder? (e.map (Expr.relocate f))) = kindsOf (Expr.preorder? e) := by
  cases e with
  | none => rfl
  | some e => exact e.kinds_relocate f

@[simp] theorem Property.kinds_relocate (properties : List Property) :
    kindsOf (Property.preorderAll (relocateProperties f properties)) = kindsOf (Property.preorderAll properties) :=
  kindsOf_flatMap_map (fun p => p.value.kinds_relocate f) properties

mutual

theorem Step.kinds_relocate : ∀ s : Step, kindsOf (s.relocate f).preorder = kindsOf s.preorder
  | ⟨_, _, _, _, _, _, _, _, _, branches⟩ => by
    simp [Step.relocate, Step.preorder, Step.kinds_relocateAll branches]

theorem Step.kinds_relocateAll : ∀ ss : List Step,
    kindsOf (Step.preorderAll (Step.relocateAll f ss)) = kindsOf (Step.preorderAll ss)
  | [] => rfl
  | s :: ss => by
    simp [Step.relocateAll, Step.preorderAll, s.kinds_relocate, Step.kinds_relocateAll ss]

end

theorem Integration.kinds_relocate (i : Integration) : kindsOf (i.relocate f).preorder = kindsOf i.preorder := by
  cases h : i.auth <;> simp [Integration.preorder, Integration.relocate, IntegrationAuth.relocate, h]

mutual

theorem Stmt.kinds_relocate : ∀ s : Stmt, kindsOf (s.relocate f).preorder = kindsOf s.preorder
  | .varDecl _ _ _ | .returnStmt _ _ => by
    simp [Stmt.relocate, Stmt.preorder, Node.kind, Stmt.kind, Expr.kinds_relocate?]
  | .assignment _ _ _ | .exprStmt _ _ => by
    simp [Stmt.relocate, Stmt.preorder, Node.kind, Stmt.kind, Expr.kinds_relocate]
  | .ifStmt _ e b none => by
    simp [Stmt.relocate, Stmt.preorder, Node.kind, Stmt.kind, e.kinds_relocate, b.kinds_relocate]
  | .ifStmt _ e b (some c) => by
    simp [Stmt.relocate, Stmt.preorder, Node.kind, Stmt.kind, e.kinds_relocate, b.kinds_relocate,
      c.kinds_relocate]
  | .forLoop _ _ e b => by
    simp [Stmt.relocate, Stmt.preorder, Node.kind, Stmt.kind, e.kinds_relocate, b.kinds_relocate]
  | .function _ _ _ b => by
    simp [Stmt.relocate, Stmt.preorder, Node.kind, Stmt.kind, b.kinds_relocate]
  | .block (.mk _ ss) => by
    simp [Stmt.relocate, Block.relocate, Stmt.preorder, Node.kind, Stmt.kind, Stmt.kinds_relocateAll ss]
  | .database _ _ ss => by
    simp [Stmt.relocate, Stmt.preorder, Node.kind, Stmt.kind, Stmt.kinds_relocateAll ss]
  | .config _ | .auth _ | .role _ | .middleware _ | .webhook _ => by
    simp [Stmt.relocate, Stmt.preorder, Node.kind, Stmt.kind, Config.relocate, Auth.relocate,
      PropertyBlock.relocate, Webhook.relocate]
  | .integration i => by
    simp [Stmt.relocate, Stmt.preorder, Node.kind, Stmt.kind, i.kinds_relocate]
  | .workflow x => by
    simp [Stmt.relocate, Stmt.preorder, Node.kind, Stmt.kind, Flow.relocate, Step.kinds_relocateAll]
  | .job j => by
    simp [Stmt.relocate, Stmt.preorder, Node.kind, Stmt.kind, Job.relocate, Flow.relocate,
      Step.kinds_relocateAll]
  | .exec _ _ | .model _ | .collection _ | .event _ | .eventHandler _ | .endpoint _ => rfl

theorem Stmt.kinds_relocateAll : ∀ ss : List Stmt,
    kindsOf (Stmt.preorderAll (Stmt.relocateAll f ss)) = kindsOf (Stmt.preorderAll ss)
  | [] => rfl
  | s :: ss => by
    simp [Stmt.relocateAll, Stmt.preorderAll, s.kinds_relocate, Stmt.kinds_relocateAll ss]

theorem Block.kinds_relocate : ∀ b : Block, kindsOf (b.relocate f).preorder = kindsOf b.preorder
  | .mk _ ss => by
    simp [Block.relocate, Block.preorder, Node.kind, Stmt.kinds_relocateAll ss]

end

/-! ## Nodes -/

/-- Every position is erased to this one. -/
def nowhere (_ : Position) : Position := .unknown

/-- The node without its positions; a block is a block statement, wherever it stands. -/
def Node.erased : Node → Node
  | .program p => .program (p.relocate nowhere)
  | .stmt s => .stmt (s.relocate nowhere)
  | .block b => .stmt (.block (b.relocate nowhere))
  | .expr e => .expr (e.relocate nowhere)

theorem Node.kind_erased (n : Node) : n.erased.kind = n.kind := by
  cases n with
  | expr e => cases e <;> rfl
  | stmt s => exact s.kind_relocate nowhere
  | _ => rfl

/-- A dump shows no positions. -/
theorem Node.print_erased (n : Node) : n.erased.print = n.print := by
  have hdump : n.erased.dump = n.dump := by
    cases n with
    | program p =>
      simp only [erased, Node.dump, Program.relocate, ← Stmt.relocateAll_eq_map, Stmt.dumpAll_relocateAll]
    | stmt s => exact s.dump_relocate nowhere 0
    | block b => exact b.dump_relocate nowhere 0 "Block"
    | expr e => exact e.dump_relocate nowhere 0
  rw [print, print, hdump]

theorem Node.kinds_erased (n : Node) : kindsOf n.erased.preorder = kindsOf n.preorder := by
  cases n with
  | program p =>
    simp [erased, preorder, Program.relocate, ← Stmt.relocateAll_eq_map, Stmt.kinds_relocateAll, kind]
  | stmt s => exact s.kinds_relocate nowhere
  | block b =>
    obtain ⟨pos, ss⟩ := b
    exact Block.kinds_relocate nowhere (.mk pos ss)
  | expr e => exact e.kinds_relocate nowhere

end ServiceLang
