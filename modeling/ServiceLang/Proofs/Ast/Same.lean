import ServiceLang.Proofs.Ast.Relocated

/-!
Equality up to positions says nothing of positions.

A relocated tree is equal to exactly the trees to which the tree itself is equal
(`Stmt.same_relocate`, `Program.same_relocate`).  Numbers are compared as numbers, so a
tree is equal to itself if all its numbers are, not-a-number being the exception; what
holds no numbers is always equal to itself.
-/

namespace ServiceLang

variable (f : Position → Position)

/-! ## Lists and options -/

section

variable {α : Type} {same : α → α → Bool}

theorem sameList_map {g : α → α} (h : ∀ a b, same (g a) b = same a b) (as bs : List α) :
    sameList same (as.map g) bs = sameList same as bs := by
  induction as generalizing bs with
  | nil => rfl
  | cons a as ih =>
    cases bs with
    | nil => rfl
    | cons b bs => rw [List.map_cons, sameList, sameList, h, ih]

theorem sameOption_map {g : α → α} (h : ∀ a b, same (g a) b = same a b) (a b : Option α) :
    sameOption same (a.map g) b = sameOption same a b := by
  cases a with
  | none => rfl
  | some a =>
    cases b with
    | none => rfl
    | some b => exact h a b

theorem sameList_self_iff (as : List α) : sameList same as as = true ↔ ∀ a ∈ as, same a a = true := by
  induction as with
  | nil => simp [sameList]
  | cons a as ih => simp [sameList, ih]

theorem sameList_append_self {as : List α} {a : α} (has : sameList same as as = true)
    (ha : same a a = true) : sameList same (as ++ [a]) (as ++ [a]) = true := by
  rw [sameList_self_iff] at has ⊢
  exact fun x hx => (List.mem_append.1 hx).elim (has x) fun hx => List.mem_singleton.1 hx ▸ ha

@[simp] theorem sameOption_some (a b : α) : sameOption same (some a) (some b) = same a b := rfl

@[simp] theorem sameOption_none : sameOption same none none = true := rfl

theorem sameOption_self_iff (a : Option α) :
    sameOption same a a = true ↔ ∀ x ∈ a, same x x = true := by
  cases a <;> simp [sameOption]

end

/-! ## Expressions -/

mutual

@[simp] theorem Expr.same_relocate : ∀ a b : Expr, (a.relocate f).same b = a.same b
  | .string _ _, b | .number _ _, b | .bool _ _, b | .ident _ _, b => by cases b <;> rfl
  | .array _ as, b => by
    cases b with
    | array _ bs => exact Expr.sameAll_relocateAll as bs
    | _ => rfl
  | .call _ name as, b => by
    cases b with
    | call _ name' bs => exact congrArg (name == name' && ·) (Expr.sameAll_relocateAll as bs)
    | _ => rfl
  | .binary _ l op r, b => by
    cases b with
    | binary _ l' op' r' =>
      rw [Expr.relocate, Expr.same, Expr.same, l.same_relocate l', r.same_relocate r']
    | _ => rfl
  | .unary _ op e, b => by
    cases b with
    | unary _ op' e' => rw [Expr.relocate, Expr.same, Expr.same, e.same_relocate e']
    | _ => rfl

theorem Expr.sameAll_relocateAll : ∀ as bs : List Expr,
    Expr.sameAll (Expr.relocateAll f as) bs = Expr.sameAll as bs
  | [], _ => rfl
  | a :: as, bs => by
    cases bs with
    | nil => rfl
    | cons b bs =>
      rw [Expr.relocateAll, Expr.sameAll, Expr.sameAll, a.same_relocate b,
        Expr.sameAll_relocateAll as bs]

end

theorem Expr.sameAll_self_iff (as : List Expr) :
    Expr.sameAll as as = true ↔ ∀ a ∈ as, a.same a = true := by
  rw [sameAll_eq_sameList, sameList_self_iff]

/-! ## Declarations of main text -/

theorem Property.same_relocate (a b : Property) : (a.relocate f).same b = a.same b := by
  simp [Property.relocate, Property.same]

@[simp] theorem sameProperties_relocate (as bs : List Property) :
    sameProperties (relocateProperties f as) bs = sameProperties as bs :=
  sameList_map (Property.same_relocate f) as bs

theorem Modifier.same_relocate (a b : Modifier) : (a.relocate f).same b = a.same b := rfl

theorem Index.same_relocate (a b : Index) : (a.relocate f).same b = a.same b := rfl

theorem EventField.same_relocate (a b : EventField) : (a.relocate f).same b = a.same b := rfl

theorem EventHandler.same_relocate (a b : EventHandler) : (a.relocate f).same b = a.same b := rfl

theorem CircuitBreaker.same_relocate (a b : CircuitBreaker) : (a.relocate f).same b = a.same b := rfl

theorem Config.same_relocate (a b : Config) : (a.relocate f).same b = a.same b := by
  simp [Config.relocate, Config.same]

mutual

theorem Field.same_relocate : ∀ a b : Field, (a.relocate f).same b = a.same b
  | .mk _ _ _ modifiers fields, .mk _ _ _ modifiers' fields' => by
    rw [Field.relocate, Field.same, Field.same, Field.sameAll_relocateAll fields fields',
      sameList_map (Modifier.same_relocate f)]

theorem Field.sameAll_relocateAll : ∀ as bs : List Field,
    Field.sameAll (Field.relocateAll f as) bs = Field.sameAll as bs
  | [], _ => rfl
  | a :: as, bs => by
    cases bs with
    | nil => rfl
    | cons b bs =>
      rw [Field.relocateAll, Field.sameAll, Field.sameAll, a.same_relocate b,
        Field.sameAll_relocateAll as bs]

end

mutual

theorem Field.same_self : ∀ a : Field, a.same a = true
  | .mk _ _ _ modifiers fields => by
    have hmodifiers : sameList Modifier.same modifiers modifiers = true :=
      (sameList_self_iff modifiers).2 fun m _ => by simp [Modifier.same]
    simp [Field.same, hmodifiers, Field.sameAll_self fields]

theorem Field.sameAll_self : ∀ as : List Field, Field.sameAll as as = true
  | [] => rfl
  | a :: as => by rw [Field.sameAll, a.same_self, Field.sameAll_self as, Bool.and_self]

end

theorem Model.same_relocate (a b : Model) : (a.relocate f).same b = a.same b := by
  unfold Model.relocate Model.same
  dsimp only
  rw [Field.sameAll_relocateAll, sameList_map (Index.same_relocate f)]

theorem Model.same_self (a : Model) : a.same a = true := by
  have hindexes : sameList Index.same a.indexes a.indexes = true :=
    (sameList_self_iff _).2 fun i _ => by simp [Index.same]
  simp [Model.same, Field.sameAll_self, hindexes]

theorem Auth.same_relocate (a b : Auth) : (a.relocate f).same b = a.same b := by
  simp [Auth.relocate, Auth.same]

theorem PropertyBlock.same_relocate (a b : PropertyBlock) : (a.relocate f).same b = a.same b := by
  simp [PropertyBlock.relocate, PropertyBlock.same]

theorem Event.same_relocate (a b : Event) : (a.relocate f).same b = a.same b := by
  unfold Event.relocate Event.same
  dsimp only
  rw [sameOption_map (sameList_map (EventField.same_relocate f))]

theorem Event.same_self (a : Event) : a.same a = true := by
  have hschema : sameOption (sameList EventField.same) a.schema a.schema = true :=
    (sameOption_self_iff _).2 fun fields _ => (sameList_self_iff fields).2 fun x _ => by
      simp [EventField.same]
  simp [Event.same, hschema]

theorem EventHandler.same_self (a : EventHandler) : a.same a = true := by
  simp [EventHandler.same]

theorem IntegrationAuth.same_relocate (a b : IntegrationAuth) :
    (a.relocate f).same b = a.same b := by
  simp [IntegrationAuth.relocate, IntegrationAuth.same]

theorem CircuitBreaker.same_self (a : CircuitBreaker) : a.same a = true := by
  simp [CircuitBreaker.same]

theorem Integration.same_relocate (a b : Integration) : (a.relocate f).same b = a.same b := by
  unfold Integration.relocate Integration.same
  dsimp only
  rw [sameOption_map (IntegrationAuth.same_relocate f),
    sameOption_map (CircuitBreaker.same_relocate f),
    sameProperties_relocate]

theorem Webhook.same_relocate (a b : Webhook) : (a.relocate f).same b = a.same b := by
  simp [Webhook.relocate, Webhook.same]

/-! ## Endpoints and flows -/

theorem AnnotationSpec.same_relocate (a b : AnnotationSpec) : (a.relocate f).same b = a.same b := rfl

theorem RequestSpec.same_relocate (a b : RequestSpec) : (a.relocate f).same b = a.same b := rfl

theorem ResponseSpec.same_relocate (a b : ResponseSpec) : (a.relocate f).same b = a.same b := rfl

theorem LogicStep.same_relocate (a b : LogicStep) : (a.relocate f).same b = a.same b := rfl

theorem Endpoint.same_relocate (a b : Endpoint) : (a.relocate f).same b = a.same b := by
  unfold Endpoint.relocate Endpoint.same
  dsimp only
  rw [sameList_map (AnnotationSpec.same_relocate f), sameOption_map (RequestSpec.same_relocate f),
    sameOption_map (ResponseSpec.same_relocate f), sameList_map (LogicStep.same_relocate f)]

theorem Endpoint.same_self (a : Endpoint) : a.same a = true := by
  have hannotations : sameList AnnotationSpec.same a.annotations a.annotations = true :=
    (sameList_self_iff _).2 fun x _ => by simp [AnnotationSpec.same]
  have hrequest : sameOption RequestSpec.same a.request a.request = true :=
    (sameOption_self_iff _).2 fun x _ => by simp [RequestSpec.same]
  have hresponse : sameOption ResponseSpec.same a.response a.response = true :=
    (sameOption_self_iff _).2 fun x _ => by simp [ResponseSpec.same]
  have hlogic : sameList LogicStep.same a.logic a.logic = true :=
    (sameList_self_iff _).2 fun x _ => by simp [LogicStep.same]
  simp [Endpoint.same, hannotations, hrequest, hresponse, hlogic]

theorem Trigger.same_relocate (a b : Trigger) : (a.relocate f).same b = a.same b := rfl

theorem RetryPolicy.same_relocate (a b : RetryPolicy) : (a.relocate f).same b = a.same b := rfl

mutual

theorem Step.same_relocate : ∀ a b : Step, (a.relocate f).same b = a.same b
  | ⟨_, _, _, _, _, input, _, retry, _, branches⟩, ⟨_, _, _, _, _, input', _, retry', _, branches'⟩ => by
    rw [Step.relocate, Step.same, Step.same, Step.sameAll_relocateAll branches branches',
      sameProperties_relocate, sameOption_map (RetryPolicy.same_relocate f)]

theorem Step.sameAll_relocateAll : ∀ as bs : List Step,
    Step.sameAll (Step.relocateAll f as) bs = Step.sameAll as bs
  | [], _ => rfl
  | a :: as, bs => by
    cases bs with
    | nil => rfl
    | cons b bs =>
      rw [Step.relocateAll, Step.sameAll, Step.sameAll, a.same_relocate b,
        Step.sameAll_relocateAll as bs]

end

theorem Flow.same_relocate (a b : Flow) : (a.relocate f).same b = a.same b := by
  unfold Flow.relocate Flow.same
  dsimp only
  rw [sameOption_map (Trigger.same_relocate f), Step.sameAll_relocateAll,
    sameOption_map (RetryPolicy.same_relocate f)]

theorem Job.same_relocate (a b : Job) : (a.relocate f).same b = a.same b := by
  simp [Job.relocate, Job.same, Flow.same_relocate]

theorem RetryPolicy.same_self_iff (a : RetryPolicy) :
    a.same a = true ↔ sameOption (· == ·) a.backoffCoefficient a.backoffCoefficient = true := by
  simp [RetryPolicy.same]

theorem Step.same_self_iff (a : Step) : a.same a = true ↔
    sameProperties a.input a.input = true ∧ sameOption RetryPolicy.same a.retry a.retry = true ∧
      sameList Step.same a.branches a.branches = true := by
  cases a
  simp [Step.same, Step.sameAll_eq_sameList, and_assoc]

theorem Flow.same_self_iff (a : Flow) : a.same a = true ↔
    sameList Step.same a.steps a.steps = true ∧
      sameOption RetryPolicy.same a.retry a.retry = true := by
  have htrigger : sameOption Trigger.same a.trigger a.trigger = true :=
    (sameOption_self_iff _).2 fun t _ => by simp [Trigger.same]
  simp [Flow.same, htrigger, Step.sameAll_eq_sameList]

/-! ## Statements -/

/-- Relocated, the statement is equal to the same statements. -/
def Stmt.SameRelocated (a : Stmt) : Prop := ∀ b, (a.relocate f).same b = a.same b

def Block.SameRelocated (a : Block) : Prop := ∀ b, (a.relocate f).same b = a.same b

namespace Stmt.SameRelocated

variable {f}

theorem varDecl (pos : Position) (name : String) (value : Option Expr) :
    SameRelocated f (.varDecl pos name value) := by
  intro b
  cases b with
  | varDecl _ _ value' => rw [Stmt.relocate, Stmt.same, Stmt.same, sameOption_map (Expr.same_relocate f)]
  | _ => rfl

theorem returnStmt (pos : Position) (value : Option Expr) :
    SameRelocated f (.returnStmt pos value) := by
  intro b
  cases b with
  | returnStmt _ value' => rw [Stmt.relocate, Stmt.same, Stmt.same, sameOption_map (Expr.same_relocate f)]
  | _ => rfl

theorem assignment (pos : Position) (name : String) (value : Expr) :
    SameRelocated f (.assignment pos name value) := by
  intro b
  cases b with
  | assignment _ _ value' => rw [Stmt.relocate, Stmt.same, Stmt.same, value.same_relocate]
  | _ => rfl

theorem exprStmt (pos : Position) (expr : Expr) : SameRelocated f (.exprStmt pos expr) := by
  intro b
  cases b with
  | exprStmt _ expr' => rw [Stmt.relocate, Stmt.same, Stmt.same, expr.same_relocate]
  | _ => rfl

theorem ifStmt_none (pos : Position) (condition : Expr) {body : Block}
    (hbody : body.SameRelocated f) : SameRelocated f (.ifStmt pos condition body none) := by
  intro b
  cases b with
  | ifStmt _ condition' body' other =>
    cases other with
    | none => rw [Stmt.relocate, Stmt.same, Stmt.same, condition.same_relocate, hbody body']
    | some _ => rfl
  | _ => rfl

theorem ifStmt_some (pos : Position) (condition : Expr) {body other : Block}
    (hbody : body.SameRelocated f) (hother : other.SameRelocated f) :
    SameRelocated f (.ifStmt pos condition body (some other)) := by
  intro b
  cases b with
  | ifStmt _ condition' body' other' =>
    cases other' with
    | none => rfl
    | some other' =>
      rw [Stmt.relocate, Stmt.same, Stmt.same, condition.same_relocate, hbody body', hother other']
  | _ => rfl

theorem forLoop (pos : Position) (loopVar : String) (iterable : Expr) {body : Block}
    (hbody : body.SameRelocated f) : SameRelocated f (.forLoop pos loopVar iterable body) := by
  intro b
  cases b with
  | forLoop _ _ iterable' body' =>
    rw [Stmt.relocate, Stmt.same, Stmt.same, iterable.same_relocate, hbody body']
  | _ => rfl

theorem function (pos : Position) (name : String) (params : List String) {body : Block}
    (hbody : body.SameRelocated f) : SameRelocated f (.function pos name params body) := by
  intro b
  cases b with
  | function _ _ _ body' => rw [Stmt.relocate, Stmt.same, Stmt.same, hbody body']
  | _ => rfl

theorem block {body : Block} (hbody : body.SameRelocated f) : SameRelocated f (.block body) := by
  intro b
  cases b with
  | block body' => exact hbody body'
  | _ => rfl

theorem database (pos : Position) (engine : Engine) {declarations : List Stmt}
    (h : ∀ ss, Stmt.sameAll (Stmt.relocateAll f declarations) ss = Stmt.sameAll declarations ss) :
    SameRelocated f (.database pos engine declarations) := by
  intro b
  cases b with
  | database _ _ declarations' => rw [Stmt.relocate, Stmt.same, Stmt.same, h declarations']
  | _ => rfl

theorem exec (pos : Position) (command : String) : SameRelocated f (.exec pos command) := by
  intro b
  cases b <;> rfl

theorem eventHandler (h : EventHandler) : SameRelocated f (.eventHandler h) := by
  intro b
  cases b <;> rfl

theorem config (c : Config) : SameRelocated f (.config c) := by
  intro b
  cases b with
  | config c' => exact c.same_relocate f c'
  | _ => rfl

theorem model (m : Model) : SameRelocated f (.model m) := by
  intro b
  cases b with
  | model m' => exact m.same_relocate f m'
  | _ => rfl

theorem collection (m : Model) : SameRelocated f (.collection m) := by
  intro b
  cases b with
  | collection m' => exact m.same_relocate f m'
  | _ => rfl

theorem auth (a : Auth) : SameRelocated f (.auth a) := by
  intro b
  cases b with
  | auth a' => exact a.same_relocate f a'
  | _ => rfl

theorem role (r : PropertyBlock) : SameRelocated f (.role r) := by
  intro b
  cases b with
  | role r' => exact r.same_relocate f r'
  | _ => rfl

theorem middleware (m : PropertyBlock) : SameRelocated f (.middleware m) := by
  intro b
  cases b with
  | middleware m' => exact m.same_relocate f m'
  | _ => rfl

theorem event (e : Event) : SameRelocated f (.event e) := by
  intro b
  cases b with
  | event e' => exact e.same_relocate f e'
  | _ => rfl

theorem integration (i : Integration) : SameRelocated f (.integration i) := by
  intro b
  cases b with
  | integration i' => exact i.same_relocate f i'
  | _ => rfl

theorem webhook (w : Webhook) : SameRelocated f (.webhook w) := by
  intro b
  cases b with
  | webhook w' => exact w.same_relocate f w'
  | _ => rfl

theorem endpoint (e : Endpoint) : SameRelocated f (.endpoint e) := by
  intro b
  cases b with
  | endpoint e' => exact e.same_relocate f e'
  | _ => rfl

theorem workflow (x : Flow) : SameRelocated f (.workflow x) := by
  intro b
  cases b with
  | workflow x' => exact x.same_relocate f x'
  | _ => rfl

theorem job (j : Job) : SameRelocated f (.job j) := by
  intro b
  cases b with
  | job j' => exact j.same_relocate f j'
  | _ => rfl

end Stmt.SameRelocated

mutual

theorem Stmt.same_relocate : ∀ a : Stmt, a.SameRelocated f
  | .varDecl pos name value => .varDecl pos name value
  | .returnStmt pos value => .returnStmt pos value
  | .assignment pos name value => .assignment pos name value
  | .exprStmt pos expr => .exprStmt pos expr
  | .ifStmt pos condition body none => .ifStmt_none pos condition (Block.same_relocate body)
  | .ifStmt pos condition body (some other) =>
    .ifStmt_some pos condition (Block.same_relocate body) (Block.same_relocate other)
  | .forLoop pos loopVar iterable body => .forLoop pos loopVar iterable (Block.same_relocate body)
  | .function pos name params body => .function pos name params (Block.same_relocate body)
  | .block body => .block (Block.same_relocate body)
  | .database pos engine declarations =>
    .database pos engine (Stmt.sameAll_relocateAll declarations)
  | .exec pos command => .exec pos command
  | .eventHandler h => .eventHandler h
  | .config c => .config c
  | .model m => .model m
  | .collection m => .collection m
  | .auth a => .auth a
  | .role r => .role r
  | .middleware m => .middleware m
  | .event e => .event e
  | .integration i => .integration i
  | .webhook w => .webhook w
  | .endpoint e => .endpoint e
  | .workflow x => .workflow x
  | .job j => .job j

theorem Stmt.sameAll_relocateAll : ∀ as bs : List Stmt,
    Stmt.sameAll (Stmt.relocateAll f as) bs = Stmt.sameAll as bs
  | [], _ => rfl
  | a :: as, bs => by
    cases bs with
    | nil => rfl
    | cons b bs =>
      rw [Stmt.relocateAll, Stmt.sameAll, Stmt.sameAll, a.same_relocate b,
        Stmt.sameAll_relocateAll as bs]

theorem Block.same_relocate : ∀ a : Block, a.SameRelocated f
  | .mk _ as => fun ⟨_, bs⟩ => Stmt.sameAll_relocateAll as bs

end

theorem Stmt.sameAll_self_iff (as : List Stmt) :
    Stmt.sameAll as as = true ↔ ∀ a ∈ as, a.same a = true := by
  induction as with
  | nil => simp [sameAll]
  | cons a as ih => simp [sameAll, ih]

/-- A program is equal to a program whatever positions it has. -/
theorem Program.same_relocate (a b : Program) : (a.relocate f).same b = a.same b := by
  unfold Program.relocate Program.same
  rw [← Stmt.relocateAll_eq_map, Stmt.sameAll_relocateAll]

end ServiceLang
