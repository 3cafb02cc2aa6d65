import ServiceLang.Ast.Display
import ServiceLang.Ast.Node

/-!
Programs with other positions.

`relocate f` puts every node of a tree, and every declaration inside a declaration, at the
image of its position under `f` and leaves the rest as it is.  Two trees differ in positions
only if they are equal once all positions are made the unknown one (`unplaced`).  Relocating
twice is relocating once (`Program.relocate_relocate`), and what is computed from a tree
without its positions stays the same: the text of an expression (`Expr.display_relocate`),
its literal value, and what is looked up among properties.
-/

namespace ServiceLang

/-! ## Expressions -/

mutual

def Expr.relocate (f : Position → Position) : Expr → Expr
  | .string pos value => .string (f pos) value
  | .number pos value => .number (f pos) value
  | .bool pos value => .bool (f pos) value
  | .ident pos name => .ident (f pos) name
  | .array pos elements => .array (f pos) (Expr.relocateAll f elements)
  | .call pos name args => .call (f pos) name (Expr.relocateAll f args)
  | .binary pos left op right => .binary (f pos) (left.relocate f) op (right.relocate f)
  | .unary pos op operand => .unary (f pos) op (operand.relocate f)

def Expr.relocateAll (f : Position → Position) : List Expr → List Expr
  | [] => []
  | e :: es => e.relocate f :: Expr.relocateAll f es

end

variable (f g : Position → Position)

theorem Expr.relocateAll_eq_map (es : List Expr) : Expr.relocateAll f es = es.map (Expr.relocate f) := by
  induction es with
  | nil => rfl
  | cons e es ih => rw [Expr.relocateAll, ih, List.map_cons]

@[simp] theorem Expr.pos_relocate (e : Expr) : (e.relocate f).pos = f e.pos := by
  cases e <;> rfl

@[simp] theorem Expr.string?_relocate (e : Expr) : (e.relocate f).string? = e.string? := by
  cases e <;> rfl

@[simp] theorem Expr.number?_relocate (e : Expr) : (e.relocate f).number? = e.number? := by
  cases e <;> rfl

mutual

/-- The text of an expression says nothing of positions. -/
theorem Expr.display_relocate : ∀ e : Expr, (e.relocate f).display = e.display
  | .string _ _ | .number _ _ | .bool _ _ | .ident _ _ => rfl
  | .array _ es => by rw [Expr.relocate, Expr.display, Expr.display, Expr.displayAll_relocateAll es]
  | .call _ _ es => by rw [Expr.relocate, Expr.display, Expr.display, Expr.displayAll_relocateAll es]
  | .binary _ l _ r => by
    rw [Expr.relocate, Expr.display, Expr.display, l.display_relocate, r.display_relocate]
  | .unary _ .not e | .unary _ .neg e => by
    rw [Expr.relocate, Expr.display, Expr.display, e.display_relocate]

theorem Expr.displayAll_relocateAll : ∀ es : List Expr,
    Expr.displayAll (Expr.relocateAll f es) = Expr.displayAll es
  | [] => rfl
  | e :: es => by
    rw [Expr.relocateAll, Expr.displayAll, Expr.displayAll, e.display_relocate,
      Expr.displayAll_relocateAll es]

end

mutual

theorem Expr.relocate_relocate : ∀ e : Expr, (e.relocate f).relocate g = e.relocate (g ∘ f)
  | .string _ _ | .number _ _ | .bool _ _ | .ident _ _ => rfl
  | .array _ es => by
    rw [Expr.relocate, Expr.relocate, Expr.relocate, Expr.relocateAll_relocateAll es, Function.comp]
  | .call _ _ es => by
    rw [Expr.relocate, Expr.relocate, Expr.relocate, Expr.relocateAll_relocateAll es, Function.comp]
  | .binary _ l _ r => by
    rw [Expr.relocate, Expr.relocate, Expr.relocate, l.relocate_relocate, r.relocate_relocate,
      Function.comp]
  | .unary _ _ e => by
    rw [Expr.relocate, Expr.relocate, Expr.relocate, e.relocate_relocate, Function.comp]

theorem Expr.relocateAll_relocateAll : ∀ es : List Expr,
    Expr.relocateAll g (Expr.relocateAll f es) = Expr.relocateAll (g ∘ f) es
  | [] => rfl
  | e :: es => by
    rw [Expr.relocateAll, Expr.relocateAll, Expr.relocateAll, e.relocate_relocate,
      Expr.relocateAll_relocateAll es]

end

attribute [simp] Expr.relocate_relocate

/-! ## Declarations of main text -/

def Property.relocate (p : Property) : Property := ⟨f p.pos, p.key, p.value.relocate f⟩

def relocateProperties (properties : List Property) : List Property :=
  properties.map (Property.relocate f)

theorem Property.find?_relocate (properties : List Property) (key : String) :
    Property.find? (relocateProperties f properties) key =
      (Property.find? properties key).map (Property.relocate f) := by
  unfold Property.find? relocateProperties
  rw [List.find?_map]
  rfl

@[simp] theorem Property.isSome_find?_relocate (properties : List Property) (key : String) :
    (Property.find? (relocateProperties f properties) key).isSome =
      (Property.find? properties key).isSome := by
  rw [Property.find?_relocate, Option.isSome_map]

@[simp] theorem Property.string?_relocate (properties : List Property) (key : String) :
    Property.string? (relocateProperties f properties) key = Property.string? properties key := by
  unfold Property.string?
  rw [Property.find?_relocate]
  cases Property.find? properties key with
  | none => rfl
  | some p => exact p.value.string?_relocate f

def Config.relocate (c : Config) : Config := ⟨f c.pos, c.engine, relocateProperties f c.properties⟩

def Modifier.relocate (m : Modifier) : Modifier := { m with pos := f m.pos }

mutual

def Field.relocate : Field → Field
  | .mk pos name fieldType modifiers fields =>
    .mk (f pos) name fieldType (modifiers.map (Modifier.relocate f)) (Field.relocateAll fields)

def Field.relocateAll : List Field → List Field
  | [] => []
  | x :: xs => x.relocate :: Field.relocateAll xs

end

theorem Field.relocateAll_eq_map (xs : List Field) :
    Field.relocateAll f xs = xs.map (Field.relocate f) := by
  induction xs with
  | nil => rfl
  | cons x xs ih => rw [Field.relocateAll, ih, List.map_cons]

def Index.relocate (i : Index) : Index := { i with pos := f i.pos }

def Model.relocate (m : Model) : Model :=
  ⟨f m.pos, m.name, m.description, Field.relocateAll f m.fields, m.indexes.map (Index.relocate f)⟩

def Auth.relocate (a : Auth) : Auth := ⟨f a.pos, a.provider, relocateProperties f a.properties⟩

def PropertyBlock.relocate (b : PropertyBlock) : PropertyBlock :=
  ⟨f b.pos, b.name, relocateProperties f b.properties⟩

def EventField.relocate (x : EventField) : EventField := { x with pos := f x.pos }

def Event.relocate (e : Event) : Event :=
  ⟨f e.pos, e.name, e.schema.map (List.map (EventField.relocate f))⟩

def EventHandler.relocate (h : EventHandler) : EventHandler := { h with pos := f h.pos }

def IntegrationAuth.relocate (a : IntegrationAuth) : IntegrationAuth :=
  ⟨f a.pos, a.kind, relocateProperties f a.properties⟩

def CircuitBreaker.relocate (b : CircuitBreaker) : CircuitBreaker := { b with pos := f b.pos }

def Integration.relocate (i : Integration) : Integration :=
  ⟨f i.pos, i.name, i.baseUrl, i.auth.map (IntegrationAuth.relocate f),
    i.circuitBreaker.map (CircuitBreaker.relocate f), relocateProperties f i.properties⟩

def Webhook.relocate (w : Webhook) : Webhook :=
  ⟨f w.pos, w.name, w.url, w.events, w.secret, relocateProperties f w.properties⟩

/-! ## Endpoints -/

def AnnotationSpec.relocate (a : AnnotationSpec) : AnnotationSpec := { a with pos := f a.pos }

def RequestSpec.relocate (r : RequestSpec) : RequestSpec := { r with pos := f r.pos }

def ResponseSpec.relocate (r : ResponseSpec) : ResponseSpec := { r with pos := f r.pos }

def LogicStep.relocate (s : LogicStep) : LogicStep := { s with pos := f s.pos }

def Endpoint.relocate (e : Endpoint) : Endpoint :=
  { e with
    pos := f e.pos
    annotations := e.annotations.map (AnnotationSpec.relocate f)
    request := e.request.map (RequestSpec.relocate f)
    response := e.response.map (ResponseSpec.relocate f)
    logic := e.logic.map (LogicStep.relocate f) }

/-! ## Flows -/

def Trigger.relocate (t : Trigger) : Trigger := { t with pos := f t.pos }

def RetryPolicy.relocate (r : RetryPolicy) : RetryPolicy := { r with pos := f r.pos }

mutual

/-- The step with its positions replaced, and those of its branches. -/
def Step.relocate : Step → Step
  | ⟨pos, name, kind, description, activity, input, timeout, retry, dependsOn, branches⟩ =>
    ⟨f pos, name, kind, description, activity, relocateProperties f input, timeout,
      retry.map (RetryPolicy.relocate f), dependsOn, Step.relocateAll branches⟩

def Step.relocateAll : List Step → List Step
  | [] => []
  | s :: ss => s.relocate :: Step.relocateAll ss

end

theorem Step.relocateAll_eq_map (ss : List Step) :
    Step.relocateAll f ss = ss.map (Step.relocate f) := by
  induction ss with
  | nil => rfl
  | cons s ss ih => rw [Step.relocateAll, ih, List.map_cons]

def Flow.relocate (x : Flow) : Flow :=
  { x with
    pos := f x.pos
    trigger := x.trigger.map (Trigger.relocate f)
    steps := Step.relocateAll f x.steps
    retry := x.retry.map (RetryPolicy.relocate f) }

def Job.relocate (j : Job) : Job := ⟨j.flow.relocate f, j.concurrency⟩

/-! ## Statements -/

mutual

def Stmt.relocate : Stmt → Stmt
  | .varDecl pos name value => .varDecl (f pos) name (value.map (Expr.relocate f))
  | .assignment pos name value => .assignment (f pos) name (value.relocate f)
  | .exprStmt pos e => .exprStmt (f pos) (e.relocate f)
  | .ifStmt pos condition body none => .ifStmt (f pos) (condition.relocate f) body.relocate none
  | .ifStmt pos condition body (some other) =>
    .ifStmt (f pos) (condition.relocate f) body.relocate (some other.relocate)
  | .forLoop pos loopVar iterable body =>
    .forLoop (f pos) loopVar (iterable.relocate f) body.relocate
  | .function pos name params body => .function (f pos) name params body.relocate
  | .exec pos command => .exec (f pos) command
  | .block b => .block b.relocate
  | .returnStmt pos value => .returnStmt (f pos) (value.map (Expr.relocate f))
  | .config c => .config (c.relocate f)
  | .database pos engine declarations => .database (f pos) engine (Stmt.relocateAll declarations)
  | .model m => .model (m.relocate f)
  | .collection m => .collection (m.relocate f)
  | .auth a => .auth (a.relocate f)
  | .role r => .role (r.relocate f)
  | .middleware m => .middleware (m.relocate f)
  | .event e => .event (e.relocate f)
  | .eventHandler h => .eventHandler (h.relocate f)
  | .integration i => .integration (i.relocate f)
  | .webhook w => .webhook (w.relocate f)
  | .endpoint e => .endpoint (e.relocate f)
  | .workflow x => .workflow (x.relocate f)
  | .job j => .job (j.relocate f)

def Stmt.relocateAll : List Stmt → List Stmt
  | [] => []
  | s :: ss => s.relocate :: Stmt.relocateAll ss

def Block.relocate : Block → Block
  | .mk pos statements => .mk (f pos) (Stmt.relocateAll statements)

end

theorem Stmt.relocateAll_eq_map (ss : List Stmt) :
    Stmt.relocateAll f ss = ss.map (Stmt.relocate f) := by
  induction ss with
  | nil => rfl
  | cons s ss ih => rw [Stmt.relocateAll, ih, List.map_cons]

@[simp] theorem Stmt.pos_relocate (s : Stmt) : (s.relocate f).pos = f s.pos := by
  cases s with
  | ifStmt _ _ _ other => cases other <;> rfl
  | block b => cases b; rfl
  | _ => rfl

@[simp] theorem Stmt.kind_relocate (s : Stmt) : (s.relocate f).kind = s.kind := by
  cases s with
  | ifStmt _ _ _ other => cases other <;> rfl
  | _ => rfl

/-- The program with its positions replaced. -/
def Program.relocate (p : Program) : Program := ⟨f p.pos, p.statements.map (Stmt.relocate f)⟩

/-- What is picked from single statements is the same, moved as they are. -/
theorem Program.filterMap_relocate {f : Position → Position} {α : Type} {pick : Stmt → Option α} {move : α → α}
    (h : ∀ s, pick (s.relocate f) = (pick s).map move) (p : Program) :
    (p.relocate f).statements.filterMap pick = (p.statements.filterMap pick).map move := by
  unfold Program.relocate
  rw [List.filterMap_map, List.map_filterMap]
  exact congrArg (List.filterMap · p.statements) (funext h)

/-! ## Relocating twice -/

@[simp] theorem Property.relocate_relocate (p : Property) :
    (p.relocate f).relocate g = p.relocate (g ∘ f) := by
  simp [Property.relocate]

@[simp] theorem relocateProperties_relocateProperties (ps : List Property) :
    relocateProperties g (relocateProperties f ps) = relocateProperties (g ∘ f) ps := by
  simp [relocateProperties]

mutual

theorem Field.relocate_relocate : ∀ x : Field, (x.relocate f).relocate g = x.relocate (g ∘ f)
  | .mk _ _ _ modifiers fields => by
    have hm : Modifier.relocate g ∘ Modifier.relocate f = Modifier.relocate (g ∘ f) := rfl
    rw [Field.relocate, Field.relocate, Field.relocate, List.map_map, hm,
      Field.relocateAll_relocateAll fields, Function.comp]

theorem Field.relocateAll_relocateAll : ∀ xs : List Field,
    Field.relocateAll g (Field.relocateAll f xs) = Field.relocateAll (g ∘ f) xs
  | [] => rfl
  | x :: xs => by
    rw [Field.relocateAll, Field.relocateAll, Field.relocateAll, x.relocate_relocate,
      Field.relocateAll_relocateAll xs]

end

theorem Model.relocate_relocate (m : Model) : (m.relocate f).relocate g = m.relocate (g ∘ f) := by
  simp only [Model.relocate, Field.relocateAll_relocateAll, List.map_map]
  rfl

theorem Endpoint.relocate_relocate (e : Endpoint) :
    (e.relocate f).relocate g = e.relocate (g ∘ f) := by
  simp only [Endpoint.relocate, List.map_map, Option.map_map]
  rfl

mutual

theorem Step.relocate_relocate : ∀ s : Step, (s.relocate f).relocate g = s.relocate (g ∘ f)
  | ⟨_, _, _, _, _, _, _, _, _, branches⟩ => by
    simp only [Step.relocate, relocateProperties_relocateProperties, Option.map_map,
      Step.relocateAll_relocateAll branches, Function.comp]
    rfl

theorem Step.relocateAll_relocateAll : ∀ ss : List Step,
    Step.relocateAll g (Step.relocateAll f ss) = Step.relocateAll (g ∘ f) ss
  | [] => rfl
  | s :: ss => by
    rw [Step.relocateAll, Step.relocateAll, Step.relocateAll, s.relocate_relocate,
      Step.relocateAll_relocateAll ss]

end

theorem Flow.relocate_relocate (x : Flow) : (x.relocate f).relocate g = x.relocate (g ∘ f) := by
  simp only [Flow.relocate, Step.relocateAll_relocateAll, Option.map_map]
  rfl

theorem Event.relocate_relocate (e : Event) : (e.relocate f).relocate g = e.relocate (g ∘ f) := by
  have hfields : List.map (EventField.relocate g) ∘ List.map (EventField.relocate f) =
      List.map (EventField.relocate (g ∘ f)) := by
    funext fields
    exact List.map_map
  simp only [Event.relocate, Option.map_map, hfields]
  rfl

theorem Integration.relocate_relocate (i : Integration) :
    (i.relocate f).relocate g = i.relocate (g ∘ f) := by
  have hauth : IntegrationAuth.relocate g ∘ IntegrationAuth.relocate f =
      IntegrationAuth.relocate (g ∘ f) := by
    funext a
    simp [IntegrationAuth.relocate]
  simp only [Integration.relocate, relocateProperties_relocateProperties, Option.map_map, hauth]
  rfl

theorem Expr.map_relocate_relocate (value : Option Expr) :
    (value.map (Expr.relocate f)).map (Expr.relocate g) = value.map (Expr.relocate (g ∘ f)) := by
  cases value <;> simp

mutual

theorem Stmt.relocate_relocate : ∀ s : Stmt, (s.relocate f).relocate g = s.relocate (g ∘ f)
  | .varDecl _ _ value | .returnStmt _ value => by
    simp only [Stmt.relocate, Expr.map_relocate_relocate, Function.comp]
  | .assignment _ _ e | .exprStmt _ e => by
    simp only [Stmt.relocate, Expr.relocate_relocate, Function.comp]
  | .ifStmt _ e b none => by
    simp only [Stmt.relocate, Expr.relocate_relocate, Block.relocate_relocate b, Function.comp]
  | .ifStmt _ e b (some c) => by
    simp only [Stmt.relocate, Expr.relocate_relocate, Block.relocate_relocate b,
      Block.relocate_relocate c, Function.comp]
  | .forLoop _ _ e b => by
    simp only [Stmt.relocate, Expr.relocate_relocate, Block.relocate_relocate b, Function.comp]
  | .function _ _ _ b | .block b => by
    simp only [Stmt.relocate, Block.relocate_relocate b, Function.comp]
  | .exec _ _ => rfl
  | .config _ | .auth _ | .role _ | .middleware _ | .webhook _ => by
    simp [Stmt.relocate, Config.relocate, Auth.relocate, PropertyBlock.relocate, Webhook.relocate]
  | .database _ _ ss => by
    simp only [Stmt.relocate, Stmt.relocateAll_relocateAll ss, Function.comp]
  | .model m | .collection m => by simp only [Stmt.relocate, m.relocate_relocate]
  | .event e => by simp only [Stmt.relocate, e.relocate_relocate]
  | .eventHandler h => rfl
  | .integration i => by simp only [Stmt.relocate, i.relocate_relocate]
  | .endpoint e => by simp only [Stmt.relocate, e.relocate_relocate]
  | .workflow x => by simp only [Stmt.relocate, x.relocate_relocate]
  | .job j => by simp only [Stmt.relocate, Job.relocate, Flow.relocate_relocate]

theorem Stmt.relocateAll_relocateAll : ∀ ss : List Stmt,
    Stmt.relocateAll g (Stmt.relocateAll f ss) = Stmt.relocateAll (g ∘ f) ss
  | [] => rfl
  | s :: ss => by
    rw [Stmt.relocateAll, Stmt.relocateAll, Stmt.relocateAll, s.relocate_relocate,
      Stmt.relocateAll_relocateAll ss]

theorem Block.relocate_relocate : ∀ b : Block, (b.relocate f).relocate g = b.relocate (g ∘ f)
  | .mk _ ss => by
    rw [Block.relocate, Block.relocate, Block.relocate, Stmt.relocateAll_relocateAll ss,
      Function.comp]

end

theorem Program.relocate_relocate (p : Program) :
    (p.relocate f).relocate g = p.relocate (g ∘ f) := by
  unfold Program.relocate
  rw [List.map_map]
  exact congrArg _ (List.map_congr_left fun s _ => s.relocate_relocate f g)

end ServiceLang
