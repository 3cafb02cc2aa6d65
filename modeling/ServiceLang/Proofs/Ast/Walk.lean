import ServiceLang.Ast.Walk

/-!
The nodes that a walk visits.

`Node.children` are the nodes directly below a node, and its preorder is the node and
then the preorders of its children (`Node.preorder_eq`).  A walk of a node visits the
nodes of its preorder one after another (`Node.walk_eq`), so a visitor that never stops
visits all of them (`Node.visited_eq`).

Steps are no nodes.  The nodes below a flow are the inputs of its steps, at whatever depth these
stand: `Step.all` lists a step and the steps below it in the order of the text.
-/

namespace ServiceLang

/-! ## Steps at all depths -/

mutual

/-- A step and all steps below it. -/
def Step.all : Step → List Step
  | s@⟨_, _, _, _, _, _, _, _, _, branches⟩ => s :: Step.allOf branches

def Step.allOf : List Step → List Step
  | [] => []
  | s :: ss => s.all ++ Step.allOf ss

end

namespace Step

theorem allOf_eq_flatMap (ss : List Step) : allOf ss = ss.flatMap all := by
  induction ss with
  | nil => rfl
  | cons s ss ih => rw [allOf, ih, List.flatMap_cons]

theorem all_eq (s : Step) : s.all = s :: s.branches.flatMap all := by
  cases s
  rw [all, allOf_eq_flatMap]

/-- The inputs of a step, and then those of the steps below it. -/
def inputs (s : Step) : List Property := s.all.flatMap Step.input

theorem inputs_eq (s : Step) : s.inputs = s.input ++ s.branches.flatMap inputs := by
  unfold inputs
  rw [all_eq, List.flatMap_cons, List.flatMap_assoc]

end Step

/-! ## Children -/

/-- The expressions directly below an expression. -/
def Expr.children : Expr → List Node
  | .string _ _ | .number _ _ | .bool _ _ | .ident _ _ => []
  | .array _ elements => elements.map .expr
  | .call _ _ args => args.map .expr
  | .binary _ left _ right => [.expr left, .expr right]
  | .unary _ _ operand => [.expr operand]

/-- The values of properties, as nodes. -/
def Property.nodes (properties : List Property) : List Node := properties.map (.expr ·.value)

/-- The properties of an integration, those of its authentication first. -/
def Integration.allProperties (i : Integration) : List Property :=
  (match i.auth with
    | some auth => auth.properties
    | none => []) ++ i.properties

/-- The nodes directly below a statement. -/
def Stmt.children : Stmt → List Node
  | .varDecl _ _ value | .returnStmt _ value => value.toList.map .expr
  | .assignment _ _ value => [.expr value]
  | .exprStmt _ expr => [.expr expr]
  | .ifStmt _ condition thenBlock elseBlock =>
    .expr condition :: .block thenBlock :: elseBlock.toList.map .block
  | .forLoop _ _ iterable body => [.expr iterable, .block body]
  | .function _ _ _ body => [.block body]
  | .block b => b.statements.map .stmt
  | .database _ _ declarations => declarations.map .stmt
  | .config c => Property.nodes c.properties
  | .auth a => Property.nodes a.properties
  | .role r | .middleware r => Property.nodes r.properties
  | .integration i => Property.nodes i.allProperties
  | .webhook w => Property.nodes w.properties
  | .workflow f => Property.nodes (f.steps.flatMap Step.inputs)
  | .job j => Property.nodes (j.flow.steps.flatMap Step.inputs)
  | .exec _ _ | .model _ | .collection _ | .event _ | .eventHandler _ | .endpoint _ => []

namespace Node

/-- The nodes directly below a node, in the order of the text. -/
def children : Node → List Node
  | program p => p.statements.map .stmt
  | stmt s => s.children
  | block b => b.statements.map .stmt
  | expr e => e.children

end Node

/-! ## Preorder -/

theorem Expr.preorderAll_eq (es : List Expr) :
    Expr.preorderAll es = (es.map Node.expr).flatMap Node.preorder := by
  induction es with
  | nil => simp [Expr.preorderAll]
  | cons e es ih => simp [Expr.preorderAll, ih, Node.preorder]

theorem Stmt.preorderAll_eq (ss : List Stmt) :
    Stmt.preorderAll ss = (ss.map Node.stmt).flatMap Node.preorder := by
  induction ss with
  | nil => simp [Stmt.preorderAll]
  | cons s ss ih => simp [Stmt.preorderAll, ih, Node.preorder]

theorem Property.preorderAll_eq (ps : List Property) :
    Property.preorderAll ps = (Property.nodes ps).flatMap Node.preorder := by
  simp [Property.preorderAll, Property.nodes, List.flatMap_map, Node.preorder]

theorem Property.preorderAll_append (ps qs : List Property) :
    Property.preorderAll (ps ++ qs) = Property.preorderAll ps ++ Property.preorderAll qs :=
  List.flatMap_append

mutual

theorem Step.preorder_eq : (s : Step) → s.preorder = Property.preorderAll s.inputs
  | ⟨_, _, _, _, _, input, _, _, _, branches⟩ => by
    rw [Step.preorder, Step.preorderAll_eq branches, ← Property.preorderAll_append, Step.inputs_eq]

theorem Step.preorderAll_eq : (ss : List Step) →
    Step.preorderAll ss = Property.preorderAll (ss.flatMap Step.inputs)
  | [] => rfl
  | s :: ss => by
    rw [Step.preorderAll, Step.preorder_eq s, Step.preorderAll_eq ss, ← Property.preorderAll_append,
      List.flatMap_cons]

end

theorem Expr.preorder_eq (e : Expr) : e.preorder = .expr e :: e.children.flatMap Node.preorder := by
  cases e <;> simp [Expr.preorder, Expr.children, Expr.preorderAll_eq, Node.preorder]

theorem Block.preorder_eq (b : Block) :
    b.preorder = .block b :: (b.statements.map Node.stmt).flatMap Node.preorder := by
  cases b
  simp [Block.preorder, Block.statements, Stmt.preorderAll_eq]

theorem Stmt.preorder_eq (s : Stmt) : s.preorder = .stmt s :: s.children.flatMap Node.preorder := by
  have option (value : Option Expr) :
      Expr.preorder? value = (value.toList.map Node.expr).flatMap Node.preorder := by
    cases value <;> simp [Expr.preorder?, Node.preorder]
  cases s with
  | ifStmt pos c t e => cases e <;> simp [Stmt.preorder, Stmt.children, Node.preorder]
  | block b => cases b; simp [Stmt.preorder, Stmt.children, Stmt.preorderAll_eq, Block.statements]
  | integration i =>
    cases hi : i.auth <;> simp [Stmt.preorder, Stmt.children, Integration.preorder,
      Integration.allProperties, hi, Property.preorderAll_eq, Property.nodes]
  | varDecl | returnStmt => simp only [Stmt.preorder, Stmt.children, option]
  | workflow | job =>
    simp only [Stmt.preorder, Stmt.children, Step.preorderAll_eq, Property.preorderAll_eq]
  | database => simp only [Stmt.preorder, Stmt.children, Stmt.preorderAll_eq]
  | config | auth | role | middleware | webhook =>
    simp only [Stmt.preorder, Stmt.children, Property.preorderAll_eq]
  | assignment | exprStmt | forLoop | function => simp [Stmt.preorder, Stmt.children, Node.preorder]
  | exec | model | collection | event | eventHandler | endpoint =>
    simp [Stmt.preorder, Stmt.children]

/-- The preorder of a node is the node, and then the preorders of its children. -/
theorem Node.preorder_eq (n : Node) : n.preorder = n :: n.children.flatMap Node.preorder := by
  cases n with
  | program p => rw [Node.preorder, Stmt.preorderAll_eq, Node.children]
  | stmt s => exact s.preorder_eq
  | block b => exact b.preorder_eq
  | expr e => exact e.preorder_eq

theorem Node.mem_preorder_iff (n m : Node) :
    m ∈ n.preorder ↔ m = n ∨ ∃ k ∈ n.children, m ∈ k.preorder := by
  rw [n.preorder_eq, List.mem_cons, List.mem_flatMap]

/-! ## Walks -/

namespace Walk

variable {σ α : Type}

theorem andThen_assoc (a b c : Walk σ) : (a.andThen b).andThen c = a.andThen (b.andThen c) := by
  funext s
  unfold andThen
  cases h : a s with
  | mk s v => cases v <;> rfl

@[simp] theorem done_andThen (a : Walk σ) : done.andThen a = a := rfl

@[simp] theorem andThen_done (a : Walk σ) : a.andThen done = a := by
  funext s
  unfold andThen done
  cases h : a s with
  | mk s v => cases v <;> rfl

theorem each_append (part : α → Walk σ) (as bs : List α) :
    each part (as ++ bs) = (each part as).andThen (each part bs) := by
  induction as with
  | nil => rfl
  | cons a as ih => rw [List.cons_append, each, each, ih, andThen_assoc]

theorem each_flatMap {β : Type} (part : β → Walk σ) (f : α → List β) (as : List α) :
    each part (as.flatMap f) = each (fun a => each part (f a)) as := by
  induction as with
  | nil => rfl
  | cons a as ih => rw [List.flatMap_cons, each_append, ih, each]

end Walk

section

open Walk

variable {σ : Type} (visit : Node → Walk σ)

mutual

theorem Expr.walk_eq : (e : Expr) → e.walk visit = each visit e.preorder
  | .string _ _ | .number _ _ | .bool _ _ | .ident _ _ => by simp [Expr.walk, Expr.preorder, each]
  | .array _ es => by rw [Expr.walk, Expr.preorder, each, Expr.walkAll_eq]
  | .call _ _ es => by rw [Expr.walk, Expr.preorder, each, Expr.walkAll_eq]
  | .binary _ l _ r => by
    rw [Expr.walk, Expr.preorder, each, Expr.walk_eq l, Expr.walk_eq r, each_append]
  | .unary _ _ e => by rw [Expr.walk, Expr.preorder, each, Expr.walk_eq e]

theorem Expr.walkAll_eq : (es : List Expr) → Expr.walkAll visit es = each visit (Expr.preorderAll es)
  | [] => by rw [Expr.walkAll, Expr.preorderAll, each]
  | e :: es => by
    rw [Expr.walkAll, Expr.preorderAll, Expr.walk_eq e, Expr.walkAll_eq es, each_append]

end

theorem Property.walkAll_eq (ps : List Property) :
    Property.walkAll visit ps = each visit (Property.preorderAll ps) := by
  simp [Property.walkAll, Property.preorderAll, each_flatMap, Expr.walk_eq]

mutual

theorem Step.walk_eq : (s : Step) → s.walk visit = each visit s.preorder
  | ⟨_, _, _, _, _, input, _, _, _, branches⟩ => by
    rw [Step.walk, Step.preorder, each_append, Property.walkAll_eq, Step.walkAll_eq branches]

theorem Step.walkAll_eq : (ss : List Step) → Step.walkAll visit ss = each visit (Step.preorderAll ss)
  | [] => by rw [Step.walkAll, Step.preorderAll, each]
  | s :: ss => by
    rw [Step.walkAll, Step.preorderAll, Step.walk_eq s, Step.walkAll_eq ss, each_append]

end

theorem Integration.walk_eq (i : Integration) : i.walk visit = each visit i.preorder := by
  cases hi : i.auth <;>
    simp [Integration.walk, Integration.preorder, hi, each_append, Property.walkAll_eq]

mutual

theorem Stmt.walk_eq : (s : Stmt) → s.walk visit = each visit s.preorder
  | .varDecl _ _ none | .returnStmt _ none => by
    simp [Stmt.walk, Stmt.preorder, Expr.walk?, Expr.preorder?, each]
  | .varDecl _ _ (some e) | .returnStmt _ (some e) => by
    simp [Stmt.walk, Stmt.preorder, Expr.walk?, Expr.preorder?, each, Expr.walk_eq]
  | .assignment _ _ e | .exprStmt _ e => by
    simp [Stmt.walk, Stmt.preorder, each, Expr.walk_eq]
  | .ifStmt _ c t none => by
    rw [Stmt.walk, Stmt.preorder, each, each_append, Expr.walk_eq, Block.walk_eq t]
  | .ifStmt _ c t (some e) => by
    rw [Stmt.walk, Stmt.preorder, each, each_append, each_append, Expr.walk_eq, Block.walk_eq t,
      Block.walk_eq e, andThen_assoc]
  | .forLoop _ _ i b => by
    rw [Stmt.walk, Stmt.preorder, each, each_append, Expr.walk_eq, Block.walk_eq b]
  | .function _ _ _ b => by rw [Stmt.walk, Stmt.preorder, each, Block.walk_eq b]
  | .block (.mk _ ss) => by rw [Stmt.walk, Stmt.preorder, each, Stmt.walkAll_eq ss]
  | .database _ _ ds => by rw [Stmt.walk, Stmt.preorder, each, Stmt.walkAll_eq ds]
  | .config _ | .auth _ | .role _ | .middleware _ | .webhook _ => by
    simp only [Stmt.walk, Stmt.preorder, each, Property.walkAll_eq]
  | .integration i => by simp only [Stmt.walk, Stmt.preorder, each, Integration.walk_eq]
  | .workflow _ | .job _ => by
    simp only [Stmt.walk, Stmt.preorder, each, Step.walkAll_eq]
  | .exec _ _ | .model _ | .collection _ | .event _ | .eventHandler _ | .endpoint _ => by
    simp [Stmt.walk, Stmt.preorder, each]

theorem Stmt.walkAll_eq : (ss : List Stmt) → Stmt.walkAll visit ss = each visit (Stmt.preorderAll ss)
  | [] => by rw [Stmt.walkAll, Stmt.preorderAll, each]
  | s :: ss => by
    rw [Stmt.walkAll, Stmt.preorderAll, Stmt.walk_eq s, Stmt.walkAll_eq ss, each_append]

theorem Block.walk_eq : (b : Block) → b.walk visit = each visit b.preorder
  | .mk _ ss => by rw [Block.walk, Block.preorder, each, Stmt.walkAll_eq ss]

end

/-- A walk of a node visits its preorder, as far as the visits go on. -/
theorem Node.walk_eq (n : Node) : n.walk visit = each visit n.preorder := by
  cases n with
  | program p => rw [Node.walk, Node.preorder, each, Stmt.walkAll_eq]
  | stmt s => exact s.walk_eq visit
  | block b => exact b.walk_eq visit
  | expr e => exact e.walk_eq visit

end

/-- A visit that notes the node and goes on. -/
def Walk.collect (m : Node) : Walk (List Node) := fun seen => (seen ++ [m], .goOn)

/-- The nodes that a walk without a stop visits, one after another. -/
def Node.visited (n : Node) : List Node := (n.walk Walk.collect []).1

theorem Node.visited_eq (n : Node) : n.visited = n.preorder := by
  have collect (ms seen : List Node) : Walk.each Walk.collect ms seen = (seen ++ ms, .goOn) := by
    induction ms generalizing seen with
    | nil => rw [List.append_nil]; rfl
    | cons m ms ih =>
      have step : Walk.each Walk.collect (m :: ms) seen = Walk.each Walk.collect ms (seen ++ [m]) := rfl
      rw [step, ih, List.append_assoc, List.singleton_append]
  rw [Node.visited, Node.walk_eq, collect, List.nil_append]

end ServiceLang
