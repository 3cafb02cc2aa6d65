import ServiceLang.Proofs.Ast.Erased
import ServiceLang.Proofs.Ast.Walk
import ServiceLang.Proofs.Decimal.Compare

/-!
Equality up to positions is equality without positions.

Two nodes are equal up to positions just if they are the same once their positions are erased
(`Node.same_iff_erased`), provided that the numbers in them are ordinary: not-a-number is equal to
nothing, and the negative zero is equal to another number.  Each kind of tree has one such lemma,
`same_iff`, from the lemmas of its parts.  So equality up to positions is an equivalence relation, and
all that erasing leaves as it is (kinds, dumps, the order of a walk) is the same for equal nodes
(`Node.same_laws`).
-/

namespace ServiceLang

open Decimal

/-! ## Lists and options -/

section

variable {α β : Type} {same : α → α → Bool}

theorem sameList_iff (g : α → β) (as bs : List α) (h : ∀ a ∈ as, ∀ b ∈ bs, same a b = true ↔ g a = g b) :
    sameList same as bs = true ↔ as.map g = bs.map g := by
  induction as generalizing bs with
  | nil => cases bs <;> simp [sameList]
  | cons a as ih =>
    cases bs with
    | nil => simp [sameList]
    | cons b bs =>
      have hhead := h a List.mem_cons_self b List.mem_cons_self
      have htail := ih bs fun x hx y hy => h x (List.mem_cons_of_mem a hx) y (List.mem_cons_of_mem b hy)
      simp [sameList, hhead, htail]

theorem sameOption_iff (g : α → β) (a b : Option α) (h : ∀ x ∈ a, ∀ y ∈ b, same x y = true ↔ g x = g y) :
    sameOption same a b = true ↔ a.map g = b.map g := by
  cases a with
  | none => cases b <;> simp [sameOption]
  | some x =>
    cases b with
    | none => simp [sameOption]
    | some y => simp [sameOption, h]

end

/-! ## Numbers -/

def RetryPolicy.numbers (r : Option RetryPolicy) : List Float := (r.bind (·.backoffCoefficient)).toList

/-- The numbers in a step and in the steps below it, their inputs apart. -/
def Step.numbers (s : Step) : List Float := s.all.flatMap fun b => RetryPolicy.numbers b.retry

/-- The numbers in a flow, the inputs of its steps apart. -/
def Flow.numbers (f : Flow) : List Float := RetryPolicy.numbers f.retry ++ f.steps.flatMap Step.numbers

/-- The numbers in a node that are in no node below it. -/
def Node.ownNumbers : Node → List Float
  | .expr (.number _ x) => [x]
  | .stmt (.workflow f) => f.numbers
  | .stmt (.job j) => j.flow.numbers
  | _ => []

def AllOrdinary (xs : List Float) : Prop := ∀ x ∈ xs, IsOrdinary x

instance (xs : List Float) : Decidable (AllOrdinary xs) := inferInstanceAs (Decidable (∀ x ∈ xs, IsOrdinary x))

/-- All numbers in the nodes are ordinary. -/
def OrdinaryIn (nodes : List Node) : Prop := AllOrdinary (nodes.flatMap Node.ownNumbers)

instance (nodes : List Node) : Decidable (OrdinaryIn nodes) :=
  inferInstanceAs (Decidable (AllOrdinary (nodes.flatMap Node.ownNumbers)))

theorem AllOrdinary.of_mem {α : Type} {numbers : α → List Float} {as : List α}
    (h : AllOrdinary (as.flatMap numbers)) {a : α} (ha : a ∈ as) : AllOrdinary (numbers a) :=
  fun x hx => h x (List.mem_flatMap.2 ⟨a, ha, hx⟩)

theorem allOrdinary_append (xs ys : List Float) :
    AllOrdinary (xs ++ ys) ↔ AllOrdinary xs ∧ AllOrdinary ys := by
  simp [AllOrdinary, or_imp, forall_and]

@[simp] theorem ordinaryIn_cons (n : Node) (nodes : List Node) :
    OrdinaryIn (n :: nodes) ↔ AllOrdinary n.ownNumbers ∧ OrdinaryIn nodes :=
  allOrdinary_append _ _

@[simp] theorem ordinaryIn_append (ms ns : List Node) :
    OrdinaryIn (ms ++ ns) ↔ OrdinaryIn ms ∧ OrdinaryIn ns := by
  rw [OrdinaryIn, List.flatMap_append, allOrdinary_append, OrdinaryIn, OrdinaryIn]

theorem OrdinaryIn.of_mem {α : Type} {nodes : α → List Node} {as : List α}
    (h : OrdinaryIn (as.flatMap nodes)) {a : α} (ha : a ∈ as) : OrdinaryIn (nodes a) := by
  rw [OrdinaryIn, List.flatMap_assoc] at h
  exact h.of_mem ha

/-! ## Expressions -/

mutual

theorem Expr.same_iff : ∀ a b : Expr, OrdinaryIn a.preorder → OrdinaryIn b.preorder →
    (a.same b = true ↔ a.relocate nowhere = b.relocate nowhere)
  | .string _ _, b, _, _ | .bool _ _, b, _, _ | .ident _ _, b, _, _ => by
    cases b <;> simp [Expr.same, Expr.relocate, nowhere]
  | .number _ x, b, ha, hb => by
    cases b with
    | number _ y =>
      have hx : IsOrdinary x := ha x List.mem_cons_self
      have hy : IsOrdinary y := hb y List.mem_cons_self
      simp [Expr.same, Expr.relocate, nowhere, hx.beq_iff hy]
    | _ => simp [Expr.same, Expr.relocate]
  | .array _ as, b, ha, hb => by
    cases b with
    | array _ bs =>
      have helements := Expr.sameAll_iff as bs ha hb
      simp [Expr.same, Expr.relocate, nowhere, helements]
    | _ => simp [Expr.same, Expr.relocate]
  | .call _ _ as, b, ha, hb => by
    cases b with
    | call _ _ bs =>
      have hargs := Expr.sameAll_iff as bs ha hb
      simp [Expr.same, Expr.relocate, nowhere, hargs]
    | _ => simp [Expr.same, Expr.relocate]
  | .binary _ l _ r, b, ha, hb => by
    cases b with
    | binary _ l' _ r' =>
      obtain ⟨hl, hr⟩ := (ordinaryIn_append l.preorder r.preorder).1 ha
      obtain ⟨hl', hr'⟩ := (ordinaryIn_append l'.preorder r'.preorder).1 hb
      simp [Expr.same, Expr.relocate, nowhere, Expr.same_iff l l' hl hl', Expr.same_iff r r' hr hr', and_assoc,
        and_left_comm]
    | _ => simp [Expr.same, Expr.relocate]
  | .unary _ _ e, b, ha, hb => by
    cases b with
    | unary _ _ e' =>
      have hoperand := Expr.same_iff e e' ha hb
      simp [Expr.same, Expr.relocate, nowhere, hoperand]
    | _ => simp [Expr.same, Expr.relocate]

theorem Expr.sameAll_iff : ∀ as bs : List Expr, OrdinaryIn (Expr.preorderAll as) →
    OrdinaryIn (Expr.preorderAll bs) →
    (Expr.sameAll as bs = true ↔ Expr.relocateAll nowhere as = Expr.relocateAll nowhere bs)
  | [], bs, _, _ => by cases bs <;> simp [Expr.sameAll, Expr.relocateAll]
  | a :: as, bs, ha, hb => by
    cases bs with
    | nil => simp [Expr.sameAll, Expr.relocateAll]
    | cons b bs =>
      obtain ⟨ha, has⟩ := (ordinaryIn_append a.preorder _).1 ha
      obtain ⟨hb, hbs⟩ := (ordinaryIn_append b.preorder _).1 hb
      simp [Expr.sameAll, Expr.relocateAll, Expr.same_iff a b ha hb, Expr.sameAll_iff as bs has hbs]

end

theorem Expr.sameOption_iff {a b : Option Expr} (ha : OrdinaryIn (Expr.preorder? a))
    (hb : OrdinaryIn (Expr.preorder? b)) :
    sameOption Expr.same a b = true ↔ a.map (Expr.relocate nowhere) = b.map (Expr.relocate nowhere) :=
  ServiceLang.sameOption_iff _ a b fun x hx y hy => by
    cases hx
    cases hy
    exact Expr.same_iff x y ha hb

/-! ## Declarations of main text -/

theorem sameProperties_iff {a b : List Property} (ha : OrdinaryIn (Property.preorderAll a))
    (hb : OrdinaryIn (Property.preorderAll b)) :
    sameProperties a b = true ↔ relocateProperties nowhere a = relocateProperties nowhere b :=
  sameList_iff _ a b fun p hp q hq => by
    have hvalue := Expr.same_iff p.value q.value (ha.of_mem hp) (hb.of_mem hq)
    simp [Property.same, Property.relocate, nowhere, hvalue]

theorem Modifier.same_iff (a b : Modifier) : a.same b = true ↔ a.relocate nowhere = b.relocate nowhere := by
  cases a
  cases b
  simp [Modifier.same, Modifier.relocate, nowhere]

mutual

theorem Field.same_iff : ∀ a b : Field, a.same b = true ↔ a.relocate nowhere = b.relocate nowhere
  | .mk _ _ _ modifiers fields, .mk _ _ _ modifiers' fields' => by
    have hmodifiers := sameList_iff _ modifiers modifiers' fun a _ b _ => Modifier.same_iff a b
    simp [Field.same, Field.relocate, nowhere, hmodifiers, Field.sameAll_iff fields fields', and_assoc]

theorem Field.sameAll_iff : ∀ as bs : List Field,
    Field.sameAll as bs = true ↔ Field.relocateAll nowhere as = Field.relocateAll nowhere bs
  | [], bs => by cases bs <;> simp [Field.sameAll, Field.relocateAll]
  | a :: as, bs => by
    cases bs with
    | nil => simp [Field.sameAll, Field.relocateAll]
    | cons b bs => simp [Field.sameAll, Field.relocateAll, Field.same_iff a b, Field.sameAll_iff as bs]

end

theorem Model.same_iff (a b : Model) : a.same b = true ↔ a.relocate nowhere = b.relocate nowhere := by
  have hindex (x y : Index) : x.same y = true ↔ x.relocate nowhere = y.relocate nowhere := by
    cases x
    cases y
    simp [Index.same, Index.relocate, nowhere]
  have hindexes := sameList_iff _ a.indexes b.indexes fun x _ y _ => hindex x y
  simp [Model.same, Model.relocate, nowhere, hindexes, Field.sameAll_iff, and_assoc]

theorem PropertyBlock.same_iff {a b : PropertyBlock} (ha : OrdinaryIn (Property.preorderAll a.properties))
    (hb : OrdinaryIn (Property.preorderAll b.properties)) :
    a.same b = true ↔ a.relocate nowhere = b.relocate nowhere := by
  simp [PropertyBlock.same, PropertyBlock.relocate, nowhere, sameProperties_iff ha hb]

theorem Event.same_iff (a b : Event) : a.same b = true ↔ a.relocate nowhere = b.relocate nowhere := by
  have hschema : sameOption (sameList EventField.same) a.schema b.schema = true ↔
      a.schema.map (List.map (EventField.relocate nowhere)) =
        b.schema.map (List.map (EventField.relocate nowhere)) :=
    sameOption_iff _ _ _ fun xs _ ys _ => sameList_iff _ xs ys fun x _ y _ => by
      cases x
      cases y
      simp [EventField.same, EventField.relocate, nowhere, and_assoc]
  simp [Event.same, Event.relocate, nowhere, hschema]

theorem EventHandler.same_iff (a b : EventHandler) :
    a.same b = true ↔ a.relocate nowhere = b.relocate nowhere := by
  cases a
  cases b
  simp [EventHandler.same, EventHandler.relocate, nowhere, and_assoc]

theorem CircuitBreaker.same_iff (a b : CircuitBreaker) :
    a.same b = true ↔ a.relocate nowhere = b.relocate nowhere := by
  cases a
  cases b
  simp [CircuitBreaker.same, CircuitBreaker.relocate, nowhere, and_assoc]

theorem Integration.same_iff {a b : Integration} (ha : OrdinaryIn a.preorder) (hb : OrdinaryIn b.preorder) :
    a.same b = true ↔ a.relocate nowhere = b.relocate nowhere := by
  obtain ⟨ha, hproperties⟩ := (ordinaryIn_append _ _).1 ha
  obtain ⟨hb, hproperties'⟩ := (ordinaryIn_append _ _).1 hb
  have hauth : sameOption IntegrationAuth.same a.auth b.auth = true ↔
      a.auth.map (IntegrationAuth.relocate nowhere) = b.auth.map (IntegrationAuth.relocate nowhere) :=
    sameOption_iff _ _ _ fun x hx y hy => by
      rw [Option.mem_def.1 hx] at ha
      rw [Option.mem_def.1 hy] at hb
      simp [IntegrationAuth.same, IntegrationAuth.relocate, nowhere, sameProperties_iff ha hb]
  have hbreaker := sameOption_iff _ a.circuitBreaker b.circuitBreaker
    fun x _ y _ => CircuitBreaker.same_iff x y
  simp [Integration.same, Integration.relocate, nowhere, hauth, hbreaker,
    sameProperties_iff hproperties hproperties', and_assoc]

theorem Webhook.same_iff {a b : Webhook} (ha : OrdinaryIn (Property.preorderAll a.properties))
    (hb : OrdinaryIn (Property.preorderAll b.properties)) :
    a.same b = true ↔ a.relocate nowhere = b.relocate nowhere := by
  simp [Webhook.same, Webhook.relocate, nowhere, sameProperties_iff ha hb, and_assoc]

/-! ## Endpoints and flows -/

theorem Endpoint.same_iff (a b : Endpoint) : a.same b = true ↔ a.relocate nowhere = b.relocate nowhere := by
  have hannotations : sameList AnnotationSpec.same a.annotations b.annotations = true ↔
      a.annotations.map (AnnotationSpec.relocate nowhere) = b.annotations.map (AnnotationSpec.relocate nowhere) :=
    sameList_iff _ _ _ fun x _ y _ => by
      cases x
      cases y
      simp [AnnotationSpec.same, AnnotationSpec.relocate, nowhere]
  have hrequest : sameOption RequestSpec.same a.request b.request = true ↔
      a.request.map (RequestSpec.relocate nowhere) = b.request.map (RequestSpec.relocate nowhere) :=
    sameOption_iff _ _ _ fun x _ y _ => by
      cases x
      cases y
      simp [RequestSpec.same, RequestSpec.relocate, nowhere]
  have hresponse : sameOption ResponseSpec.same a.response b.response = true ↔
      a.response.map (ResponseSpec.relocate nowhere) = b.response.map (ResponseSpec.relocate nowhere) :=
    sameOption_iff _ _ _ fun x _ y _ => by
      cases x
      cases y
      simp [ResponseSpec.same, ResponseSpec.relocate, nowhere]
  have hlogic : sameList LogicStep.same a.logic b.logic = true ↔
      a.logic.map (LogicStep.relocate nowhere) = b.logic.map (LogicStep.relocate nowhere) :=
    sameList_iff _ _ _ fun x _ y _ => by
      cases x
      cases y
      simp [LogicStep.same, LogicStep.relocate, nowhere, and_assoc]
  simp [Endpoint.same, Endpoint.relocate, nowhere, hannotations, hrequest, hresponse, hlogic, and_assoc]

theorem RetryPolicy.sameOption_iff {a b : Option RetryPolicy} (ha : AllOrdinary (RetryPolicy.numbers a))
    (hb : AllOrdinary (RetryPolicy.numbers b)) :
    sameOption RetryPolicy.same a b = true ↔
      a.map (RetryPolicy.relocate nowhere) = b.map (RetryPolicy.relocate nowhere) :=
  ServiceLang.sameOption_iff _ a b fun x hx y hy => by
    cases hx
    cases hy
    have hcoefficient : sameOption (· == ·) x.backoffCoefficient y.backoffCoefficient = true ↔
        x.backoffCoefficient.map id = y.backoffCoefficient.map id :=
      ServiceLang.sameOption_iff _ _ _ fun c hc d hd =>
        IsOrdinary.beq_iff (ha c (Option.mem_toList.2 hc)) (hb d (Option.mem_toList.2 hd))
    cases x
    cases y
    simp_all [RetryPolicy.same, RetryPolicy.relocate, nowhere, and_assoc]

theorem Step.numbers_eq (s : Step) :
    s.numbers = RetryPolicy.numbers s.retry ++ s.branches.flatMap Step.numbers := by
  unfold Step.numbers
  rw [s.all_eq, List.flatMap_cons, List.flatMap_assoc]

mutual

theorem Step.same_iff : ∀ a b : Step, OrdinaryIn a.preorder → AllOrdinary a.numbers →
    OrdinaryIn b.preorder → AllOrdinary b.numbers →
    (a.same b = true ↔ a.relocate nowhere = b.relocate nowhere)
  | ⟨_, _, _, _, _, input, _, retry, _, branches⟩, ⟨_, _, _, _, _, input', _, retry', _, branches'⟩,
    ha, hna, hb, hnb => by
    rw [Step.numbers_eq, allOrdinary_append] at hna hnb
    obtain ⟨hinput, hbelow⟩ := (ordinaryIn_append (Property.preorderAll input) _).1 ha
    obtain ⟨hinput', hbelow'⟩ := (ordinaryIn_append (Property.preorderAll input') _).1 hb
    have hbranches := Step.sameAll_iff branches branches' hbelow hna.2 hbelow' hnb.2
    simp [Step.same, Step.relocate, nowhere, sameProperties_iff hinput hinput',
      RetryPolicy.sameOption_iff hna.1 hnb.1, hbranches, and_assoc]

theorem Step.sameAll_iff : ∀ as bs : List Step, OrdinaryIn (Step.preorderAll as) →
    AllOrdinary (as.flatMap Step.numbers) → OrdinaryIn (Step.preorderAll bs) →
    AllOrdinary (bs.flatMap Step.numbers) →
    (Step.sameAll as bs = true ↔ Step.relocateAll nowhere as = Step.relocateAll nowhere bs)
  | [], bs, _, _, _, _ => by cases bs <;> simp [Step.sameAll, Step.relocateAll]
  | a :: as, bs, ha, hna, hb, hnb => by
    cases bs with
    | nil => simp [Step.sameAll, Step.relocateAll]
    | cons b bs =>
      rw [List.flatMap_cons, allOrdinary_append] at hna hnb
      obtain ⟨ha, has⟩ := (ordinaryIn_append a.preorder _).1 ha
      obtain ⟨hb, hbs⟩ := (ordinaryIn_append b.preorder _).1 hb
      have hstep := Step.same_iff a b ha hna.1 hb hnb.1
      have hsteps := Step.sameAll_iff as bs has hna.2 hbs hnb.2
      simp [Step.sameAll, Step.relocateAll, hstep, hsteps]

end

theorem Flow.same_iff {a b : Flow} (ha : OrdinaryIn (Step.preorderAll a.steps)) (ha' : AllOrdinary a.numbers)
    (hb : OrdinaryIn (Step.preorderAll b.steps)) (hb' : AllOrdinary b.numbers) :
    a.same b = true ↔ a.relocate nowhere = b.relocate nowhere := by
  obtain ⟨hretry, hnumbers⟩ := (allOrdinary_append _ _).1 ha'
  obtain ⟨hretry', hnumbers'⟩ := (allOrdinary_append _ _).1 hb'
  have hsteps := Step.sameAll_iff a.steps b.steps ha hnumbers hb hnumbers'
  have htrigger : sameOption Trigger.same a.trigger b.trigger = true ↔
      a.trigger.map (Trigger.relocate nowhere) = b.trigger.map (Trigger.relocate nowhere) :=
    sameOption_iff _ _ _ fun x _ y _ => by
      cases x
      cases y
      simp [Trigger.same, Trigger.relocate, nowhere]
  simp [Flow.same, Flow.relocate, nowhere, hsteps, htrigger, RetryPolicy.sameOption_iff hretry hretry',
    and_assoc]

/-! ## Statements -/

theorem Stmt.kind_eq_of_same {a b : Stmt} (h : a.same b = true) : a.kind = b.kind := by
  unfold Stmt.same at h
  split at h
  all_goals first | rfl | cases h

theorem Stmt.same_iff_of_kind_ne {a b : Stmt} (h : a.kind ≠ b.kind) :
    a.same b = true ↔ a.relocate nowhere = b.relocate nowhere := by
  refine iff_of_false (fun hsame => h (kind_eq_of_same hsame)) fun hrelocate => h ?_
  rw [← a.kind_relocate nowhere, hrelocate, b.kind_relocate]

/-- The statement is equal to just those that are the same as it without positions. -/
def Stmt.SameErased (a : Stmt) : Prop :=
  ∀ b : Stmt, OrdinaryIn a.preorder → OrdinaryIn b.preorder →
    (a.same b = true ↔ a.relocate nowhere = b.relocate nowhere)

/-- The block is equal to just those that are the same as it without positions. -/
def Block.SameErased (a : Block) : Prop :=
  ∀ b : Block, OrdinaryIn a.preorder → OrdinaryIn b.preorder →
    (a.same b = true ↔ a.relocate nowhere = b.relocate nowhere)

namespace Stmt.SameErased

attribute [local simp] Stmt.same Stmt.relocate nowhere

theorem varDecl (pos : Position) (name : String) (value : Option Expr) :
    SameErased (.varDecl pos name value) := by
  intro b ha hb
  cases b with
  | varDecl _ _ value' =>
    have hvalue := Expr.sameOption_iff (a := value) (b := value') ha hb
    simp [hvalue]
  | _ => exact Stmt.same_iff_of_kind_ne nofun

theorem returnStmt (pos : Position) (value : Option Expr) : SameErased (.returnStmt pos value) := by
  intro b ha hb
  cases b with
  | returnStmt _ value' =>
    have hvalue := Expr.sameOption_iff (a := value) (b := value') ha hb
    simp [hvalue]
  | _ => exact Stmt.same_iff_of_kind_ne nofun

theorem assignment (pos : Position) (name : String) (value : Expr) :
    SameErased (.assignment pos name value) := by
  intro b ha hb
  cases b with
  | assignment _ _ value' => simp [Expr.same_iff value value' ha hb]
  | _ => exact Stmt.same_iff_of_kind_ne nofun

theorem exprStmt (pos : Position) (expr : Expr) : SameErased (.exprStmt pos expr) := by
  intro b ha hb
  cases b with
  | exprStmt _ expr' => simp [Expr.same_iff expr expr' ha hb]
  | _ => exact Stmt.same_iff_of_kind_ne nofun

theorem ifStmt_none (pos : Position) (condition : Expr) {body : Block} (hbody : body.SameErased) :
    SameErased (.ifStmt pos condition body none) := by
  intro b ha hb
  cases b with
  | ifStmt _ condition' body' other =>
    cases other with
    | none =>
      obtain ⟨hc, hs⟩ := (ordinaryIn_append condition.preorder body.preorder).1 ha
      obtain ⟨hc', hs'⟩ := (ordinaryIn_append condition'.preorder body'.preorder).1 hb
      simp [Expr.same_iff condition condition' hc hc', hbody body' hs hs']
    | some _ => simp
  | _ => exact Stmt.same_iff_of_kind_ne nofun

theorem ifStmt_some (pos : Position) (condition : Expr) {body other : Block} (hbody : body.SameErased)
    (hother : other.SameErased) : SameErased (.ifStmt pos condition body (some other)) := by
  intro b ha hb
  cases b with
  | ifStmt _ condition' body' other' =>
    cases other' with
    | none => simp
    | some other' =>
      obtain ⟨hcs, ht⟩ := (ordinaryIn_append (condition.preorder ++ body.preorder) other.preorder).1 ha
      obtain ⟨hcs', ht'⟩ := (ordinaryIn_append (condition'.preorder ++ body'.preorder) other'.preorder).1 hb
      obtain ⟨hc, hs⟩ := (ordinaryIn_append condition.preorder body.preorder).1 hcs
      obtain ⟨hc', hs'⟩ := (ordinaryIn_append condition'.preorder body'.preorder).1 hcs'
      simp [Expr.same_iff condition condition' hc hc', hbody body' hs hs', hother other' ht ht', and_assoc]
  | _ => exact Stmt.same_iff_of_kind_ne nofun

theorem forLoop (pos : Position) (loopVar : String) (iterable : Expr) {body : Block}
    (hbody : body.SameErased) : SameErased (.forLoop pos loopVar iterable body) := by
  intro b ha hb
  cases b with
  | forLoop _ _ iterable' body' =>
    obtain ⟨hi, hs⟩ := (ordinaryIn_append iterable.preorder body.preorder).1 ha
    obtain ⟨hi', hs'⟩ := (ordinaryIn_append iterable'.preorder body'.preorder).1 hb
    simp [Expr.same_iff iterable iterable' hi hi', hbody body' hs hs', and_assoc]
  | _ => exact Stmt.same_iff_of_kind_ne nofun

theorem function (pos : Position) (name : String) (params : List String) {body : Block}
    (hbody : body.SameErased) : SameErased (.function pos name params body) := by
  intro b ha hb
  cases b with
  | function _ _ _ body' => simp [hbody body' ha hb, and_assoc]
  | _ => exact Stmt.same_iff_of_kind_ne nofun

/-- A block that is a statement holds the nodes that it holds as a part of one. -/
theorem block {body : Block} (hbody : body.SameErased) : SameErased (.block body) := by
  intro b ha hb
  cases b with
  | block body' =>
    obtain ⟨pos, statements⟩ := body
    obtain ⟨pos', statements'⟩ := body'
    have hsame := hbody (.mk pos' statements') ha hb
    simpa using hsame
  | _ => exact Stmt.same_iff_of_kind_ne nofun

theorem database (pos : Position) (engine : Engine) {declarations : List Stmt}
    (h : ∀ ss, OrdinaryIn (Stmt.preorderAll declarations) → OrdinaryIn (Stmt.preorderAll ss) →
      (Stmt.sameAll declarations ss = true ↔
        Stmt.relocateAll nowhere declarations = Stmt.relocateAll nowhere ss)) :
    SameErased (.database pos engine declarations) := by
  intro b ha hb
  cases b with
  | database _ _ declarations' => simp [h declarations' ha hb]
  | _ => exact Stmt.same_iff_of_kind_ne nofun

theorem exec (pos : Position) (command : String) : SameErased (.exec pos command) := by
  intro b _ _
  cases b with
  | exec _ _ => simp
  | _ => exact Stmt.same_iff_of_kind_ne nofun

theorem config (c : Config) : SameErased (.config c) := by
  intro b ha hb
  cases b with
  | config c' =>
    have hproperties := sameProperties_iff (a := c.properties) (b := c'.properties) ha hb
    simp [Config.same, Config.relocate, hproperties]
  | _ => exact Stmt.same_iff_of_kind_ne nofun

theorem auth (a : Auth) : SameErased (.auth a) := by
  intro b ha hb
  cases b with
  | auth a' =>
    have hproperties := sameProperties_iff (a := a.properties) (b := a'.properties) ha hb
    simp [Auth.same, Auth.relocate, hproperties]
  | _ => exact Stmt.same_iff_of_kind_ne nofun

theorem role (r : PropertyBlock) : SameErased (.role r) := by
  intro b ha hb
  cases b with
  | role r' =>
    have hrole := PropertyBlock.same_iff (a := r) (b := r') ha hb
    simp [hrole]
  | _ => exact Stmt.same_iff_of_kind_ne nofun

theorem middleware (m : PropertyBlock) : SameErased (.middleware m) := by
  intro b ha hb
  cases b with
  | middleware m' =>
    have hmiddleware := PropertyBlock.same_iff (a := m) (b := m') ha hb
    simp [hmiddleware]
  | _ => exact Stmt.same_iff_of_kind_ne nofun

theorem integration (i : Integration) : SameErased (.integration i) := by
  intro b ha hb
  cases b with
  | integration i' =>
    have hintegration := Integration.same_iff (a := i) (b := i') ha hb
    simp [hintegration]
  | _ => exact Stmt.same_iff_of_kind_ne nofun

theorem webhook (w : Webhook) : SameErased (.webhook w) := by
  intro b ha hb
  cases b with
  | webhook w' =>
    have hwebhook := Webhook.same_iff (a := w) (b := w') ha hb
    simp [hwebhook]
  | _ => exact Stmt.same_iff_of_kind_ne nofun

theorem model (m : Model) : SameErased (.model m) := by
  intro b _ _
  cases b with
  | model m' => simp [m.same_iff m']
  | _ => exact Stmt.same_iff_of_kind_ne nofun

theorem collection (m : Model) : SameErased (.collection m) := by
  intro b _ _
  cases b with
  | collection m' => simp [m.same_iff m']
  | _ => exact Stmt.same_iff_of_kind_ne nofun

theorem event (e : Event) : SameErased (.event e) := by
  intro b _ _
  cases b with
  | event e' => simp [e.same_iff e']
  | _ => exact Stmt.same_iff_of_kind_ne nofun

theorem eventHandler (h : EventHandler) : SameErased (.eventHandler h) := by
  intro b _ _
  cases b with
  | eventHandler h' => simp [h.same_iff h']
  | _ => exact Stmt.same_iff_of_kind_ne nofun

theorem endpoint (e : Endpoint) : SameErased (.endpoint e) := by
  intro b _ _
  cases b with
  | endpoint e' => simp [e.same_iff e']
  | _ => exact Stmt.same_iff_of_kind_ne nofun

theorem workflow (x : Flow) : SameErased (.workflow x) := by
  intro b ha hb
  cases b with
  | workflow y =>
    obtain ⟨hown, hsteps⟩ := (ordinaryIn_cons (.stmt (.workflow x)) _).1 ha
    obtain ⟨hown', hsteps'⟩ := (ordinaryIn_cons (.stmt (.workflow y)) _).1 hb
    have hflow := Flow.same_iff hsteps hown hsteps' hown'
    simp [hflow]
  | _ => exact Stmt.same_iff_of_kind_ne nofun

theorem job (j : Job) : SameErased (.job j) := by
  intro b ha hb
  cases b with
  | job k =>
    obtain ⟨hown, hsteps⟩ := (ordinaryIn_cons (.stmt (.job j)) _).1 ha
    obtain ⟨hown', hsteps'⟩ := (ordinaryIn_cons (.stmt (.job k)) _).1 hb
    have hflow := Flow.same_iff hsteps hown hsteps' hown'
    simp [Job.same, Job.relocate, hflow]
  | _ => exact Stmt.same_iff_of_kind_ne nofun

end Stmt.SameErased

mutual

theorem Stmt.same_iff : ∀ a : Stmt, a.SameErased
  | .varDecl pos name value => .varDecl pos name value
  | .returnStmt pos value => .returnStmt pos value
  | .assignment pos name value => .assignment pos name value
  | .exprStmt pos expr => .exprStmt pos expr
  | .ifStmt pos condition body none => .ifStmt_none pos condition (Block.same_iff body)
  | .ifStmt pos condition body (some other) =>
    .ifStmt_some pos condition (Block.same_iff body) (Block.same_iff other)
  | .forLoop pos loopVar iterable body => .forLoop pos loopVar iterable (Block.same_iff body)
  | .function pos name params body => .function pos name params (Block.same_iff body)
  | .block body => .block (Block.same_iff body)
  | .database pos engine declarations => .database pos engine (Stmt.sameAll_iff declarations)
  | .exec pos command => .exec pos command
  | .config c => .config c
  | .model m => .model m
  | .collection m => .collection m
  | .auth a => .auth a
  | .role r => .role r
  | .middleware m => .middleware m
  | .event e => .event e
  | .eventHandler h => .eventHandler h
  | .integration i => .integration i
  | .webhook w => .webhook w
  | .endpoint e => .endpoint e
  | .workflow x => .workflow x
  | .job j => .job j

theorem Stmt.sameAll_iff : ∀ as bs : List Stmt, OrdinaryIn (Stmt.preorderAll as) →
    OrdinaryIn (Stmt.preorderAll bs) →
    (Stmt.sameAll as bs = true ↔ Stmt.relocateAll nowhere as = Stmt.relocateAll nowhere bs)
  | [], bs, _, _ => by cases bs <;> simp [Stmt.sameAll, Stmt.relocateAll]
  | a :: as, bs, ha, hb => by
    cases bs with
    | nil => simp [Stmt.sameAll, Stmt.relocateAll]
    | cons b bs =>
      obtain ⟨ha, has⟩ := (ordinaryIn_append a.preorder _).1 ha
      obtain ⟨hb, hbs⟩ := (ordinaryIn_append b.preorder _).1 hb
      simp [Stmt.sameAll, Stmt.relocateAll, Stmt.same_iff a b ha hb, Stmt.sameAll_iff as bs has hbs]

theorem Block.same_iff : ∀ a : Block, a.SameErased
  | .mk _ as => fun ⟨_, bs⟩ ha hb => by
    have hstatements := Stmt.sameAll_iff as bs ha hb
    simp [Block.same, Block.relocate, nowhere, hstatements]

end

/-! ## Nodes -/

namespace Node

theorem same_stmt_stmt (s t : Stmt) : (stmt s).same (.stmt t) = s.same t := by
  cases s with
  | block a => cases t <;> rfl
  | _ => rfl

theorem same_stmt_block (s : Stmt) (b : Block) : (stmt s).same (.block b) = s.same (.block b) := by
  cases s with
  | ifStmt _ _ _ other => cases other <;> rfl
  | _ => rfl

theorem same_block_stmt (a : Block) (t : Stmt) : (block a).same (.stmt t) = (Stmt.block a).same t := by
  cases t <;> rfl

/-- Nodes are equal up to positions just if they are the same without positions. -/
theorem same_iff_erased {a b : Node} (ha : OrdinaryIn a.preorder) (hb : OrdinaryIn b.preorder) :
    a.same b = true ↔ a.erased = b.erased := by
  have block_preorder (s : Block) (h : OrdinaryIn s.preorder) : OrdinaryIn (Stmt.block s).preorder := by
    cases s
    exact h
  cases a with
  | program p =>
    cases b with
    | program q =>
      have hstatements := Stmt.sameAll_iff p.statements q.statements ha hb
      simp only [Stmt.relocateAll_eq_map] at hstatements
      simp [same, block?, erased, Program.same, Program.relocate, nowhere, hstatements]
    | _ => exact iff_of_false Bool.false_ne_true Node.noConfusion
  | stmt s =>
    cases b with
    | stmt t =>
      rw [same_stmt_stmt, Stmt.same_iff s t ha hb]
      exact (Node.stmt.injEq _ _).to_iff.symm
    | block t =>
      rw [same_stmt_block, Stmt.same_iff s (.block t) ha (block_preorder t hb)]
      exact (Node.stmt.injEq _ _).to_iff.symm
    | program _ => exact iff_of_false (by cases s <;> exact Bool.false_ne_true) Node.noConfusion
    | expr _ => exact iff_of_false (by cases s <;> exact Bool.false_ne_true) Node.noConfusion
  | block s =>
    cases b with
    | stmt t =>
      rw [same_block_stmt, Stmt.same_iff (.block s) t (block_preorder s ha) hb]
      exact (Node.stmt.injEq _ _).to_iff.symm
    | block t =>
      have hblock : (block s).same (block t) = s.same t := rfl
      rw [hblock, Block.same_iff s t ha hb]
      simp [erased]
    | _ => exact iff_of_false Bool.false_ne_true Node.noConfusion
  | expr e =>
    cases b with
    | expr e' =>
      have hexpr : (expr e).same (expr e') = e.same e' := rfl
      rw [hexpr, Expr.same_iff e e' ha hb]
      exact (Node.expr.injEq _ _).to_iff.symm
    | _ => exact iff_of_false Bool.false_ne_true Node.noConfusion

/-- Equality up to positions is equality without positions, an equivalence relation on nodes with
ordinary numbers.  Equal nodes are of one kind, have one dump, and a walk visits the same kinds of
nodes in both. -/
theorem same_laws (a b c : Node) (ha : OrdinaryIn a.preorder) (hb : OrdinaryIn b.preorder)
    (hc : OrdinaryIn c.preorder) :
    (a.same b = true ↔ a.erased = b.erased) ∧
      a.same a = true ∧
      (a.same b = true → b.same a = true) ∧
      (a.same b = true → b.same c = true → a.same c = true) ∧
      (a.same b = true → a.kind = b.kind ∧ a.print = b.print ∧ kindsOf a.visited = kindsOf b.visited) := by
  refine ⟨same_iff_erased ha hb, (same_iff_erased ha ha).2 rfl, fun h => ?_, fun hab hbc => ?_, fun h => ?_⟩
  · exact (same_iff_erased hb ha).2 ((same_iff_erased ha hb).1 h).symm
  · exact (same_iff_erased ha hc).2 (((same_iff_erased ha hb).1 hab).trans ((same_iff_erased hb hc).1 hbc))
  · have herased := (same_iff_erased ha hb).1 h
    refine ⟨?_, ?_, ?_⟩
    · rw [← a.kind_erased, herased, b.kind_erased]
    · rw [← a.print_erased, herased, b.print_erased]
    · rw [visited_eq, visited_eq, ← a.kinds_erased, herased, b.kinds_erased]

/-- The body of a loop, the same block as a statement, and the same block elsewhere. -/
theorem same_laws_body :
    let statements (pos : Position) : List Stmt :=
      [.exprStmt pos (.call pos "wait" [.number pos 1.5, .string pos "s"])]
    let a : Node := .block (.mk ⟨"", 1, 9, 8⟩ (statements ⟨"", 2, 3, 12⟩))
    let b : Node := .stmt (.block (.mk ⟨"", 5, 1, 40⟩ (statements ⟨"", 5, 3, 42⟩)))
    let c : Node := .stmt (.block (.mk .unknown (statements .unknown)))
    OrdinaryIn a.preorder ∧ OrdinaryIn b.preorder ∧ OrdinaryIn c.preorder ∧
      a.same b = true ∧ b.same c = true ∧ a.same c = true ∧ a.print = c.print := by
  intro statements a b c
  have ha : OrdinaryIn a.preorder := by decide
  have hb : OrdinaryIn b.preorder := by decide
  have hc : OrdinaryIn c.preorder := by decide
  have hab : a.same b = true := (same_laws a b c ha hb hc).1.2 rfl
  have hbc : b.same c = true := (same_laws b c a hb hc ha).1.2 rfl
  have hac : a.same c = true := (same_laws a b c ha hb hc).2.2.2.1 hab hbc
  exact ⟨ha, hb, hc, hab, hbc, hac, ((same_laws a c b ha hc hb).2.2.2.2 hac).2.1⟩

end Node

end ServiceLang
