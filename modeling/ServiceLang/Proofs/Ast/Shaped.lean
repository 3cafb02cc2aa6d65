import ServiceLang.Proofs.Ast.Walk
import ServiceLang.Proofs.Grammar.Lexeme

/-!
Well-shaped programs.

A node conforms if it holds only nodes that may stand there, its names are identifiers, its
indexes list fields and its steps are flat (`Node.Conforms`).  It is shaped if it and all
nodes below it conform.  Schemas stand in database blocks and nowhere else, endpoints and
flows at the top level only, and an expression that is a statement is a call.
-/

namespace ServiceLang

/-! ## What may stand where -/

namespace NodeKind

def isSchema (k : NodeKind) : Bool := k = .modelDecl || k = .collectionDecl

/-- What is declared by a region of its own. -/
def isRegion (k : NodeKind) : Bool := k = .endpointDecl || k = .workflowDecl || k = .jobDecl

/-- A node of one kind may hold a node of another directly. -/
def mayHold : NodeKind → NodeKind → Bool
  | program, k => !k.isSchema
  | databaseBlock, k => k.isSchema
  | exprStmt, k => k = functionCall
  | _, k => !k.isSchema && !k.isRegion

end NodeKind

theorem Expr.kind_isInner (e : Expr) : !e.kind.isSchema && !e.kind.isRegion := by
  cases e <;> rfl

/-- A step that has a name, a description and branches, and nothing else. -/
structure Step.IsBare (s : Step) : Prop where
  activity : s.activity = none
  input : s.input = []
  timeout : s.timeout = none
  retry : s.retry = none
  dependsOn : s.dependsOn = []

/-- Steps that run an activity have no branches.  Those that run branches have nothing of an
activity, and their branches are steps that run one. -/
structure Step.IsFlat (s : Step) : Prop where
  single : s.kind = .activity → s.branches = []
  bare : s.kind = .parallel → s.IsBare
  branches : ∀ b ∈ s.branches, b.kind = .activity ∧ b.branches = []

/-- What a step calls, and the steps that it waits for. -/
def Step.ownReferences (s : Step) : List String := s.activity.toList ++ s.dependsOn

/-- The names in a step and in the steps below it. -/
def Step.references (s : Step) : List String := s.all.flatMap Step.ownReferences

theorem Step.references_eq (s : Step) :
    s.references = s.ownReferences ++ s.branches.flatMap Step.references := by
  unfold references
  rw [all_eq, List.flatMap_cons, List.flatMap_assoc]

/-! ## Nodes that conform -/

namespace Node

def indexes : Node → List Index
  | stmt (.model m) | stmt (.collection m) => m.indexes
  | _ => []

def steps : Node → List Step
  | stmt (.workflow f) => f.steps
  | stmt (.job j) => j.flow.steps
  | _ => []

/-- The names of variables, parameters and functions that a node declares or refers to, and
what the steps of a flow call and wait for. -/
def names : Node → List String
  | stmt (.varDecl _ name _) | stmt (.assignment _ name _) | stmt (.forLoop _ name _ _) => [name]
  | stmt (.function _ name params _) => name :: params
  | stmt (.workflow f) => f.steps.flatMap Step.references
  | stmt (.job j) => j.flow.steps.flatMap Step.references
  | expr (.ident _ name) | expr (.call _ name _) => [name]
  | _ => []

/-- What every node of a parsed program satisfies. -/
structure Conforms (n : Node) : Prop where
  holds : ∀ m ∈ n.children, n.kind.mayHold m.kind
  named : ∀ name ∈ n.names, isName name
  indexed : ∀ i ∈ n.indexes, i.fields ≠ []
  flat : ∀ s ∈ n.steps, s.IsFlat

end Node

/-- The node and all nodes below it conform. -/
inductive Shaped : Node → Prop
  | intro {n : Node} : n.Conforms → (∀ m ∈ n.children, Shaped m) → Shaped n

namespace Shaped

theorem conforms_of_mem {n m : Node} (h : Shaped n) (hm : m ∈ n.preorder) : m.Conforms := by
  induction h with
  | @intro n hn _ ih =>
    rcases (n.mem_preorder_iff m).1 hm with rfl | ⟨k, hk, hm⟩
    · exact hn
    · exact ih k hk hm

/-- An expression is shaped if its own name is one and the expressions below it are. -/
theorem expr {e : Expr} (hnamed : ∀ name ∈ (Node.expr e).names, isName name)
    (hchildren : ∀ m ∈ e.children, Shaped m) : Shaped (.expr e) := by
  refine .intro ⟨fun m hm => ?_, hnamed, List.forall_mem_nil _, List.forall_mem_nil _⟩ hchildren
  obtain ⟨e', rfl⟩ : ∃ e', m = .expr e' := by
    cases e with
    | array | call =>
      obtain ⟨e', -, rfl⟩ := List.mem_map.1 hm
      exact ⟨e', rfl⟩
    | binary left op right =>
      rcases List.mem_cons.1 hm with rfl | hm
      · exact ⟨_, rfl⟩
      · exact ⟨_, List.mem_singleton.1 hm⟩
    | unary => exact ⟨_, List.mem_singleton.1 hm⟩
    | _ => cases hm
  have hinner := e'.kind_isInner
  cases e <;> exact hinner

/-- A statement is shaped if it is so in itself and the nodes below it are. -/
theorem stmt {s : Stmt} (hholds : ∀ m ∈ s.children, s.kind.mayHold m.kind)
    (hnamed : ∀ name ∈ (Node.stmt s).names, isName name)
    (hindexed : ∀ i ∈ (Node.stmt s).indexes, i.fields ≠ [])
    (hflat : ∀ step ∈ (Node.stmt s).steps, step.IsFlat) (hchildren : ∀ m ∈ s.children, Shaped m) :
    Shaped (.stmt s) :=
  .intro ⟨hholds, hnamed, hindexed, hflat⟩ hchildren

/-- The same of a statement that may hold everything that stands inside blocks. -/
theorem of_inner {s : Stmt} (hs : ∀ k : NodeKind, !k.isSchema && !k.isRegion → s.kind.mayHold k)
    (hnamed : ∀ name ∈ (Node.stmt s).names, isName name)
    (hindexed : ∀ i ∈ (Node.stmt s).indexes, i.fields ≠ [])
    (hflat : ∀ step ∈ (Node.stmt s).steps, step.IsFlat)
    (hchildren : ∀ m ∈ s.children, (!m.kind.isSchema && !m.kind.isRegion) ∧ Shaped m) :
    Shaped (.stmt s) :=
  .stmt (fun m hm => hs m.kind (hchildren m hm).1) hnamed hindexed hflat fun m hm => (hchildren m hm).2

/-- What holds for the values of properties, holds for their nodes. -/
theorem of_mem_nodes {properties : List Property} (h : ∀ p ∈ properties, Shaped (.expr p.value))
    {m : Node} (hm : m ∈ Property.nodes properties) :
    (!m.kind.isSchema && !m.kind.isRegion) ∧ Shaped m := by
  obtain ⟨p, hp, rfl⟩ := List.mem_map.1 hm
  exact ⟨p.value.kind_isInner, h p hp⟩

/-- The block is shaped as a statement of its own if it is so as a part of one. -/
theorem stmt_block_iff (b : Block) : Shaped (.stmt (.block b)) ↔ Shaped (.block b) := by
  constructor
  · rintro ⟨⟨hholds, -, -, -⟩, hchildren⟩
    exact .intro ⟨hholds, List.forall_mem_nil _, List.forall_mem_nil _, List.forall_mem_nil _⟩ hchildren
  · rintro ⟨⟨hholds, -, -, -⟩, hchildren⟩
    exact .intro ⟨hholds, List.forall_mem_nil _, List.forall_mem_nil _, List.forall_mem_nil _⟩ hchildren

end Shaped

end ServiceLang
