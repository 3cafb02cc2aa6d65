import Mathlib.Data.List.Forall2
import ServiceLang.Check.Program
import ServiceLang.Proofs.Check.RelocatedSchema

/-!
Findings of relocated programs.

Each check commutes with `relocate`: of the relocated program it finds what it finds of the
program itself, relocated (`Program.findings_relocate`).  So two programs that differ in
positions only are reported with the same categories, and in the same words but for the
positions that these cite (`Program.diagnostics_of_unplaced_eq`).
-/

namespace ServiceLang

variable (f : Position → Position)

/-! ## Endpoints -/

def EndpointProblem.relocate : EndpointProblem → EndpointProblem
  | .duplicateRoute route first => .duplicateRoute route (f first)
  | problem => problem

def EndpointFindings.relocate (xs : EndpointFindings) : EndpointFindings :=
  xs.map (Finding.relocate f (EndpointProblem.relocate f))

namespace EndpointFindings

@[simp] theorem relocate_append (xs ys : EndpointFindings) :
    relocate f (xs ++ ys) = relocate f xs ++ relocate f ys :=
  List.map_append

@[simp] theorem relocate_demand (holds : Bool) (pos : Position) (problem : EndpointProblem) :
    relocate f (demand holds pos problem) = demand holds (f pos) (problem.relocate f) :=
  demand_relocate f _ holds pos problem

theorem relocate_flatMap {α : Type} (check : α → EndpointFindings) (as : List α) :
    relocate f (as.flatMap check) = as.flatMap fun a => relocate f (check a) :=
  List.map_flatMap

end EndpointFindings

theorem AnnotationSpec.valueFindings_relocate (a : AnnotationSpec) :
    (a.relocate f).valueFindings = EndpointFindings.relocate f a.valueFindings := by
  have hname : (a.relocate f).name = a.name := rfl
  unfold valueFindings
  rw [hname]
  split
  case h_4 => rfl
  all_goals
    rw [EndpointFindings.relocate_demand]
    rfl

theorem AnnotationSpec.findings_relocate (known : Option (List String))
    (earlier : List AnnotationSpec) (a : AnnotationSpec) :
    (a.relocate f).findings known (earlier.map (relocate f)) =
      EndpointFindings.relocate f (a.findings known earlier) := by
  have hany : (earlier.map (relocate f)).any (·.name == (a.relocate f).name) =
      earlier.any (·.name == a.name) := by
    rw [List.any_map]
    rfl
  have hname : (a.relocate f).name = a.name := rfl
  unfold findings
  rw [hany, hname, valueFindings_relocate]
  split
  · rfl
  · rw [EndpointFindings.relocate_append, EndpointFindings.relocate_demand]
    rfl

theorem LogicStep.findings_relocate (known : Option (List String)) (s : LogicStep) :
    (s.relocate f).findings known = EndpointFindings.relocate f (s.findings known) := by
  have hoption (o : StepOption) :
      (s.relocate f).optionFindings o = EndpointFindings.relocate f (s.optionFindings o) := by
    unfold optionFindings
    rw [EndpointFindings.relocate_append, EndpointFindings.relocate_demand,
      EndpointFindings.relocate_demand]
    rfl
  have haction : (s.relocate f).action = s.action := rfl
  have htarget : (s.relocate f).target = s.target := rfl
  unfold findings
  rw [haction, htarget]
  split
  · rfl
  · simp only [EndpointFindings.relocate_append, EndpointFindings.relocate_flatMap,
      EndpointFindings.relocate_demand, funext hoption]
    cases s.target with
    | none => rfl
    | some target =>
      dsimp only
      rw [EndpointFindings.relocate_demand]
      rfl

namespace Endpoint

theorem routeFindings_relocate (earlier : List Endpoint) (e : Endpoint) :
    routeFindings (earlier.map (relocate f)) (e.relocate f) =
      EndpointFindings.relocate f (routeFindings earlier e) := by
  have hfind : (earlier.map (relocate f)).find? (·.route == (e.relocate f).route) =
      (earlier.find? (·.route == e.route)).map (relocate f) := by
    rw [List.find?_map]
    rfl
  unfold routeFindings
  rw [hfind]
  cases earlier.find? (·.route == e.route) <;> rfl

theorem pathFindings_relocate (e : Endpoint) :
    (e.relocate f).pathFindings = EndpointFindings.relocate f e.pathFindings := by
  have hparam (earlier : List String) (name : String) :
      demand (!earlier.contains name) (f e.pos) (.duplicateParam name e.path) =
        EndpointFindings.relocate f
          (demand (!earlier.contains name) e.pos (.duplicateParam name e.path)) := by
    rw [EndpointFindings.relocate_demand]
    rfl
  have hparams := eachAfter_congr_map hparam (pathParams e.path)
  unfold pathFindings
  rw [EndpointFindings.relocate_append, EndpointFindings.relocate_append,
    EndpointFindings.relocate_demand, EndpointFindings.relocate_demand]
  unfold EndpointFindings.relocate
  rw [← hparams]
  rfl

theorem middlewareFindings_relocate (known : Option (List String)) (e : Endpoint) :
    eachAfter ((e.relocate f).middlewareFindings known) [] (e.relocate f).middleware =
      EndpointFindings.relocate f (eachAfter (e.middlewareFindings known) [] e.middleware) := by
  have hname (earlier : List String) (name : String) :
      (e.relocate f).middlewareFindings known earlier name =
        EndpointFindings.relocate f (e.middlewareFindings known earlier name) := by
    unfold middlewareFindings
    split
    · rfl
    · rw [EndpointFindings.relocate_demand]
      rfl
  exact eachAfter_congr_map hname e.middleware

theorem roleFindings_relocate (ds : Declarations) (e : Endpoint) :
    (e.relocate f).roleFindings (ds.relocate f) =
      EndpointFindings.relocate f (e.roleFindings ds) := by
  have hrole : (e.relocate f).role = e.role := rfl
  unfold roleFindings
  rw [hrole]
  cases e.role with
  | none => rfl
  | some role =>
    dsimp only
    rw [Declarations.hasAny_relocate, Declarations.has_relocate, EndpointFindings.relocate_demand]
    rfl

theorem handlerFindings_relocate (e : Endpoint) :
    (e.relocate f).handlerFindings = EndpointFindings.relocate f e.handlerFindings := by
  have hhandler : (e.relocate f).handler = e.handler := rfl
  unfold handlerFindings
  rw [hhandler]
  cases e.handler with
  | none => rfl
  | some handler =>
    dsimp only
    rw [EndpointFindings.relocate_demand]
    rfl

theorem requestFindings_relocate (e : Endpoint) :
    (e.relocate f).requestFindings = EndpointFindings.relocate f e.requestFindings := by
  have hrequest : (e.relocate f).request = e.request.map (RequestSpec.relocate f) := rfl
  unfold requestFindings
  rw [hrequest]
  cases e.request with
  | none => rfl
  | some r =>
    dsimp only [Option.map_some]
    rw [EndpointFindings.relocate_append, EndpointFindings.relocate_demand,
      EndpointFindings.relocate_demand]
    rfl

theorem responseFindings_relocate (e : Endpoint) :
    (e.relocate f).responseFindings = EndpointFindings.relocate f e.responseFindings := by
  have hresponse : (e.relocate f).response = e.response.map (ResponseSpec.relocate f) := rfl
  unfold responseFindings
  rw [hresponse]
  cases e.response with
  | none => rfl
  | some r =>
    dsimp only [Option.map_some]
    rw [EndpointFindings.relocate_append, EndpointFindings.relocate_demand,
      EndpointFindings.relocate_demand]
    rfl

theorem knownMiddleware_relocate (registry : Registry) (ds : Declarations) :
    knownMiddleware registry (ds.relocate f) = knownMiddleware registry ds := by
  have hentries : ((ds.relocate f).entries.filter (·.kind == .middleware)).map (·.name) =
      (ds.entries.filter (·.kind == .middleware)).map (·.name) := by
    unfold Declarations.relocate
    rw [List.filter_map, List.map_map]
    rfl
  unfold knownMiddleware
  rw [hentries]

theorem findings_relocate (registry : Registry) (ds : Declarations) (earlier : List Endpoint)
    (e : Endpoint) :
    findings registry (ds.relocate f) (earlier.map (relocate f)) (e.relocate f) =
      EndpointFindings.relocate f (findings registry ds earlier e) := by
  have hannotations := eachAfter_map
    (fun earlier a => AnnotationSpec.findings_relocate f registry.annotations earlier a)
    [] e.annotations
  have hlogic : (e.relocate f).logic.flatMap (LogicStep.findings registry.actions) =
      EndpointFindings.relocate f (e.logic.flatMap (LogicStep.findings registry.actions)) := by
    unfold relocate
    rw [EndpointFindings.relocate_flatMap, List.flatMap_map]
    simp only [LogicStep.findings_relocate]
  unfold findings
  simp only [EndpointFindings.relocate_append, routeFindings_relocate, pathFindings_relocate,
    knownMiddleware_relocate, middlewareFindings_relocate, handlerFindings_relocate,
    roleFindings_relocate, requestFindings_relocate, responseFindings_relocate, hlogic]
  rw [show eachAfter _ [] (e.relocate f).annotations = _ from hannotations]
  rfl

end Endpoint

theorem Program.endpoints_relocate (p : Program) :
    (p.relocate f).endpoints = p.endpoints.map (Endpoint.relocate f) := by
  refine p.filterMap_relocate fun s => ?_
  cases s with
  | ifStmt _ _ _ other => cases other <;> rfl
  | _ => rfl

theorem Program.endpointFindings_relocate (p : Program) (registry : Registry) :
    (p.relocate f).endpointFindings registry =
      EndpointFindings.relocate f (p.endpointFindings registry) := by
  unfold endpointFindings
  rw [endpoints_relocate, declarations_relocate]
  exact eachAfter_map (Endpoint.findings_relocate f registry p.declarations) [] p.endpoints

/-! ## Flows -/

def FlowProblem.relocate : FlowProblem → FlowProblem
  | .duplicateStep step flow first => .duplicateStep step flow (f first)
  | problem => problem

def FlowFindings.relocate (xs : FlowFindings) : FlowFindings :=
  xs.map (Finding.relocate f (FlowProblem.relocate f))

namespace FlowFindings

@[simp] theorem relocate_append (xs ys : FlowFindings) :
    relocate f (xs ++ ys) = relocate f xs ++ relocate f ys :=
  List.map_append

@[simp] theorem relocate_demand (holds : Bool) (pos : Position) (problem : FlowProblem) :
    relocate f (demand holds pos problem) = demand holds (f pos) (problem.relocate f) :=
  demand_relocate f _ holds pos problem

theorem relocate_flatMap {α : Type} (check : α → FlowFindings) (as : List α) :
    relocate f (as.flatMap check) = as.flatMap fun a => relocate f (check a) :=
  List.map_flatMap

end FlowFindings

theorem Trigger.findings_relocate (flow : FlowRef) (t : Trigger) :
    (t.relocate f).findings flow = FlowFindings.relocate f (t.findings flow) := by
  obtain ⟨pos, kind, value⟩ := t
  cases kind with
  | event =>
    unfold findings relocate
    dsimp only
    split
    · rfl
    · rw [FlowFindings.relocate_demand]
      rfl
  | schedule =>
    unfold findings relocate
    dsimp only
    split
    · rfl
    · split <;> rfl
  | webhook | manual => rfl

theorem durationFindings_relocate (pos : Position) (setting : TimeSetting) (text : Option String) :
    durationFindings (f pos) setting text =
      FlowFindings.relocate f (durationFindings pos setting text) := by
  cases text with
  | none => rfl
  | some text =>
    unfold durationFindings
    dsimp only
    split <;> rfl

theorem RetryPolicy.findings_relocate (r : RetryPolicy) :
    (r.relocate f).findings = FlowFindings.relocate f r.findings := by
  unfold findings relocate
  simp only [FlowFindings.relocate_append, durationFindings_relocate]
  congr 3
  · cases r.maxAttempts with
    | none => rfl
    | some n =>
      dsimp only
      rw [FlowFindings.relocate_demand]
      rfl
  · cases r.backoffCoefficient with
    | none => rfl
    | some x =>
      dsimp only
      rw [FlowFindings.relocate_demand]
      rfl

theorem RetryPolicy.findings?_relocate (r : Option RetryPolicy) :
    findings? (r.map (relocate f)) = FlowFindings.relocate f (findings? r) := by
  cases r with
  | none => rfl
  | some r => exact r.findings_relocate f

theorem dependencyFindings_relocate (pos : Position) (step : String) (names : List String)
    (other : String) :
    dependencyFindings (f pos) step names other =
      FlowFindings.relocate f (dependencyFindings pos step names other) := by
  unfold dependencyFindings
  split
  · rfl
  · rw [FlowFindings.relocate_demand]
    rfl

mutual

theorem Step.findings_relocate (flow : FlowRef) (names : List String) : ∀ s : Step,
    (s.relocate f).findings flow names = FlowFindings.relocate f (s.findings flow names)
  | ⟨pos, name, kind, _, activity, _, timeout, retry, dependsOn, branches⟩ => by
    have hempty : (Step.relocateAll f branches).isEmpty = branches.isEmpty := by
      rw [Step.relocateAll_eq_map, List.isEmpty_map]
    have hbranches := Step.findingsAll_relocateAll flow names branches
    unfold Step.relocate Step.findings
    simp only [FlowFindings.relocate_append, FlowFindings.relocate_flatMap, durationFindings_relocate,
      RetryPolicy.findings?_relocate, ← dependencyFindings_relocate]
    cases kind with
    | activity =>
      simp only [FlowFindings.relocate_demand]
      rfl
    | parallel =>
      simp only [FlowFindings.relocate_append, FlowFindings.relocate_demand, hempty, hbranches]
      rfl

theorem Step.findingsAll_relocateAll (flow : FlowRef) (names : List String) : ∀ ss : List Step,
    Step.findingsAll flow names (Step.relocateAll f ss) =
      FlowFindings.relocate f (Step.findingsAll flow names ss)
  | [] => rfl
  | s :: ss => by
    rw [Step.relocateAll, Step.findingsAll, Step.findingsAll, FlowFindings.relocate_append,
      Step.findings_relocate flow names s, Step.findingsAll_relocateAll flow names ss]

end

def StepName.relocate (s : StepName) : StepName := { s with pos := f s.pos }

theorem Step.stepName_relocate (s : Step) : (s.relocate f).stepName = s.stepName.relocate f := by
  cases s
  rfl

theorem Step.stepNames_relocate (s : Step) :
    (s.relocate f).stepNames = s.stepNames.map (StepName.relocate f) := by
  have hbranches : (s.relocate f).branches = s.branches.map (Step.relocate f) := by
    cases s
    exact Step.relocateAll_eq_map f _
  unfold stepNames
  rw [hbranches, ← List.map_cons, List.map_map, List.map_map]
  exact List.map_congr_left fun b _ => b.stepName_relocate f

namespace Flow

theorem stepNames_relocate (x : Flow) :
    (x.relocate f).stepNames = x.stepNames.map (StepName.relocate f) := by
  unfold stepNames relocate
  rw [Step.relocateAll_eq_map, List.flatMap_map, List.map_flatMap]
  simp only [Step.stepNames_relocate]

theorem nameFindings_relocate (flow : FlowRef) (earlier : List StepName) (s : StepName) :
    nameFindings flow (earlier.map (StepName.relocate f)) (s.relocate f) =
      FlowFindings.relocate f (nameFindings flow earlier s) := by
  have hfind : (earlier.map (StepName.relocate f)).find? (·.name == (s.relocate f).name) =
      (earlier.find? (·.name == s.name)).map (StepName.relocate f) := by
    rw [List.find?_map]
    rfl
  unfold nameFindings
  rw [hfind]
  cases earlier.find? (·.name == s.name) <;> rfl

theorem findings_relocate (kind : FlowKind) (x : Flow) :
    (x.relocate f).findings kind = FlowFindings.relocate f (x.findings kind) := by
  have hnames := eachAfter_map (nameFindings_relocate f ⟨kind, x.name⟩) [] x.stepNames
  rw [← stepNames_relocate] at hnames
  have hsteps : (x.relocate f).stepNames.map (·.name) = x.stepNames.map (·.name) := by
    rw [stepNames_relocate, List.map_map]
    rfl
  have hflow : (x.relocate f).name = x.name := rfl
  unfold findings
  dsimp only
  rw [hflow, hsteps, FlowFindings.relocate_append, FlowFindings.relocate_append,
    FlowFindings.relocate_append, FlowFindings.relocate_append, ← Step.findingsAll_relocateAll]
  congr 1
  · congr 1
    congr 1
    · congr 1
      · unfold relocate
        cases x.trigger with
        | none => rfl
        | some t => exact t.findings_relocate f _
      · exact durationFindings_relocate f _ _ _
    · exact RetryPolicy.findings?_relocate f x.retry

end Flow

theorem Job.findings_relocate (j : Job) :
    (j.relocate f).findings = FlowFindings.relocate f j.findings := by
  have htrigger : (j.relocate f).flow.trigger.isSome = j.flow.trigger.isSome :=
    Option.isSome_map
  unfold findings
  rw [htrigger, FlowFindings.relocate_append, FlowFindings.relocate_append,
    FlowFindings.relocate_demand, ← Flow.findings_relocate]
  unfold relocate
  congr 1
  cases j.concurrency with
  | none => rfl
  | some n =>
    dsimp only
    rw [FlowFindings.relocate_demand]
    rfl

theorem Program.flowFindings_relocate (p : Program) :
    (p.relocate f).flowFindings = FlowFindings.relocate f p.flowFindings := by
  have hworkflows : (p.relocate f).workflows = p.workflows.map (Flow.relocate f) := by
    refine p.filterMap_relocate fun s => ?_
    cases s with
    | ifStmt _ _ _ other => cases other <;> rfl
    | _ => rfl
  have hjobs : (p.relocate f).jobs = p.jobs.map (Job.relocate f) := by
    refine p.filterMap_relocate fun s => ?_
    cases s with
    | ifStmt _ _ _ other => cases other <;> rfl
    | _ => rfl
  unfold flowFindings
  rw [hworkflows, hjobs, List.flatMap_map, List.flatMap_map, FlowFindings.relocate_append,
    FlowFindings.relocate_flatMap, FlowFindings.relocate_flatMap]
  simp only [Flow.findings_relocate, Job.findings_relocate]

/-! ## Events and what they are joined to -/

/-- The findings with their positions replaced; the problems hold none. -/
def WiringFindings.relocate (xs : WiringFindings) : WiringFindings :=
  xs.map (Finding.relocate f id)

namespace WiringFindings

@[simp] theorem relocate_append (xs ys : WiringFindings) :
    relocate f (xs ++ ys) = relocate f xs ++ relocate f ys :=
  List.map_append

@[simp] theorem relocate_demand (holds : Bool) (pos : Position) (problem : WiringProblem) :
    relocate f (demand holds pos problem) = demand holds (f pos) problem :=
  demand_relocate f _ holds pos problem

theorem relocate_flatMap {α : Type} (check : α → WiringFindings) (as : List α) :
    relocate f (as.flatMap check) = as.flatMap fun a => relocate f (check a) :=
  List.map_flatMap

end WiringFindings

theorem Event.findings_relocate (e : Event) :
    (e.relocate f).findings = WiringFindings.relocate f e.findings := by
  have hfield (earlier : List EventField) (x : EventField) :
      EventField.findings e.name (earlier.map (EventField.relocate f)) (x.relocate f) =
        WiringFindings.relocate f (EventField.findings e.name earlier x) := by
    have hany : (earlier.map (EventField.relocate f)).any (·.name == (x.relocate f).name) =
        earlier.any (·.name == x.name) := by
      rw [List.any_map]
      rfl
    unfold EventField.findings
    rw [hany, WiringFindings.relocate_append, WiringFindings.relocate_demand,
      WiringFindings.relocate_demand]
    rfl
  have hfields := eachAfter_map hfield [] (e.schema.getD [])
  have hschema : (e.relocate f).schema.getD [] = (e.schema.getD []).map (EventField.relocate f) := by
    unfold relocate
    cases e.schema <;> rfl
  unfold findings
  rw [hschema, WiringFindings.relocate_append, WiringFindings.relocate_demand]
  exact congrArg (_ ++ ·) hfields

theorem EventHandler.findings_relocate (ds : Declarations) (h : EventHandler) :
    (h.relocate f).findings (ds.relocate f) = WiringFindings.relocate f (h.findings ds) := by
  have haction : (h.relocate f).actionFindings (ds.relocate f) =
      WiringFindings.relocate f (h.actionFindings ds) := by
    have hname : (h.relocate f).action = h.action := rfl
    unfold actionFindings targetFindings
    rw [hname]
    simp only [Declarations.has_relocate]
    split
    case h_5 => rfl
    all_goals
      rw [WiringFindings.relocate_demand]
      rfl
  unfold findings
  rw [haction, Declarations.has_relocate, WiringFindings.relocate_append,
    WiringFindings.relocate_demand]
  rfl

theorem IntegrationAuth.findings_relocate (integration : String) (a : IntegrationAuth) :
    (a.relocate f).findings integration = WiringFindings.relocate f (a.findings integration) := by
  have hkind : (a.relocate f).kind = a.kind := rfl
  unfold findings
  rw [hkind]
  cases authKeys.lookup a.kind with
  | none => rfl
  | some keys =>
    dsimp only
    rw [WiringFindings.relocate_flatMap]
    simp only [WiringFindings.relocate_demand, relocate, Property.isSome_find?_relocate]

theorem CircuitBreaker.findings_relocate (integration : String) (b : CircuitBreaker) :
    (b.relocate f).findings integration = WiringFindings.relocate f (b.findings integration) := by
  unfold findings relocate
  rw [WiringFindings.relocate_append, WiringFindings.relocate_append,
    WiringFindings.relocate_demand, WiringFindings.relocate_demand]
  dsimp only
  congr 1
  split
  · rfl
  · split <;> rfl

theorem Integration.findings_relocate (i : Integration) :
    (i.relocate f).findings = WiringFindings.relocate f i.findings := by
  have hurl : (i.relocate f).urlFindings = WiringFindings.relocate f i.urlFindings := by
    unfold urlFindings relocate
    dsimp only
    split
    · rfl
    · split <;> rfl
  unfold findings
  rw [hurl, WiringFindings.relocate_append, WiringFindings.relocate_append]
  unfold relocate
  dsimp only
  congr 1
  · congr 1
    cases i.auth with
    | none => rfl
    | some a => exact a.findings_relocate f i.name
  · cases i.circuitBreaker with
    | none => rfl
    | some b => exact b.findings_relocate f i.name

theorem Webhook.findings_relocate (w : Webhook) :
    (w.relocate f).findings = WiringFindings.relocate f w.findings := by
  have hurl : (w.relocate f).urlFindings = WiringFindings.relocate f w.urlFindings := by
    unfold urlFindings relocate
    dsimp only
    split
    · rfl
    · split <;> rfl
  unfold findings
  rw [hurl, WiringFindings.relocate_append, WiringFindings.relocate_flatMap]
  simp only [WiringFindings.relocate_demand]
  rfl

theorem Program.wiringFindings_relocate (p : Program) :
    (p.relocate f).wiringFindings = WiringFindings.relocate f p.wiringFindings := by
  unfold wiringFindings
  rw [declarations_relocate, WiringFindings.relocate_flatMap, relocate, List.flatMap_map]
  refine congrArg p.statements.flatMap (funext fun s => ?_)
  cases s with
  | event e => exact e.findings_relocate f
  | eventHandler h => exact h.findings_relocate f _
  | integration i => exact i.findings_relocate f
  | webhook w => exact w.findings_relocate f
  | ifStmt _ _ _ other => cases other <;> rfl
  | _ => rfl

/-! ## All findings -/

def Problem.relocate : Problem → Problem
  | .duplicateName problem => .duplicateName (problem.relocate f)
  | .scope problem => .scope (problem.relocate f)
  | .schema problem => .schema (problem.relocate f)
  | .endpoint problem => .endpoint (problem.relocate f)
  | .flow problem => .flow (problem.relocate f)
  | .wiring problem => .wiring problem

/-- A name that turns into a built-in keeps the category of its problem. -/
theorem ScopeProblem.category_relocate (problem : ScopeProblem) :
    (problem.relocate f).category = problem.category := by
  cases problem with
  | redeclared name first =>
    dsimp only [relocate]
    split <;> rfl
  | _ => rfl

@[simp] theorem Problem.category_relocate (problem : Problem) :
    (problem.relocate f).category = problem.category := by
  cases problem with
  | scope problem => exact problem.category_relocate f
  | _ => rfl

/-- Of a relocated program the checks find what they find of the program, relocated. -/
theorem Program.findings_relocate {f : Position → Position} (hf : KeepsInvalid f) (p : Program)
    (registry : Registry) :
    (p.relocate f).findings registry =
      (p.findings registry).map (Finding.relocate f (Problem.relocate f)) := by
  unfold findings
  rw [duplicateNames_relocate, scopeFindings_relocate hf, schemaFindings_relocate,
    endpointFindings_relocate, flowFindings_relocate, wiringFindings_relocate]
  simp only [List.map_append, List.map_map, ScopeFindings.relocate, SchemaFindings.relocate,
    EndpointFindings.relocate, FlowFindings.relocate, WiringFindings.relocate]
  rfl

/-! ## Cited positions -/

namespace Problem

/-- The position that the message of a problem cites, between the words around it. -/
def cited? : Problem → Option (String × Position × String)
  | .duplicateName ⟨kind, name, first⟩ =>
    some ("duplicate " ++ kind.text ++ " " ++ cite name ++ " (first declared at ", first, ")")
  | .scope (.redeclared name first) =>
    some ("duplicate declaration of " ++ cite name ++ " (previously declared at ", first, ")")
  | .schema (.secondConfig first) =>
    some ("only one config block is allowed (first declared at ", first, ")")
  | .schema (.duplicateSchema ref first) =>
    some ("duplicate " ++ ref.text ++ " (first declared at ", first, ")")
  | .endpoint (.duplicateRoute route first) =>
    some ("duplicate endpoint " ++ route.text ++ " (first declared at ", first, ")")
  | .flow (.duplicateStep step ref first) =>
    some ("duplicate step " ++ cite step ++ " in " ++ ref.text ++ " (first declared at ", first, ")")
  | _ => none

theorem message_of_cited? {problem : Problem} {before after : String} {x : Position}
    (h : problem.cited? = some (before, x, after)) :
    problem.message = before ++ x.display ++ after := by
  unfold cited? at h
  split at h
  case h_7 => cases h
  all_goals
    obtain ⟨rfl, rfl, rfl⟩ := by simpa using h
    rfl

/-- The name is not one that would turn into a built-in when its position is replaced. -/
def KeepsCited (problem : Problem) : Prop :=
  ∀ name first, problem = .scope (.redeclared name first) → (f first).isValid

variable {f}

theorem cited?_relocate {problem : Problem} (h : problem.KeepsCited f) :
    (problem.relocate f).cited? = problem.cited?.map fun c => (c.1, f c.2.1, c.2.2) := by
  cases problem with
  | duplicateName | wiring => rfl
  | schema problem | endpoint problem | flow problem => cases problem <;> rfl
  | scope problem =>
    cases problem with
    | redeclared name first =>
      dsimp only [relocate, ScopeProblem.relocate]
      rw [if_pos (h name first rfl)]
      rfl
    | _ => rfl

theorem relocate_of_cited?_eq_none {problem : Problem} (h : problem.cited? = none) :
    problem.relocate f = problem := by
  cases problem with
  | duplicateName => cases h
  | wiring => rfl
  | schema problem | endpoint problem | flow problem | scope problem =>
    cases problem <;> first | rfl | cases h

/-- Problems that are equal once relocated are told in the same words around what they cite. -/
theorem message_of_relocate_eq {a b : Problem} (ha : a.KeepsCited f) (hb : b.KeepsCited f)
    (h : a.relocate f = b.relocate f) :
    a.message = b.message ∨ ∃ (before after : String) (x y : Position),
      a.message = before ++ x.display ++ after ∧ b.message = before ++ y.display ++ after := by
  have hcited := congrArg cited? h
  rw [cited?_relocate ha, cited?_relocate hb] at hcited
  cases hca : a.cited? with
  | none =>
    have hcb : b.cited? = none := Option.map_eq_none_iff.mp (hcited.symm.trans (by rw [hca]; rfl))
    rw [relocate_of_cited?_eq_none hca, relocate_of_cited?_eq_none hcb] at h
    exact .inl (congrArg message h)
  | some c =>
    obtain ⟨before, x, after⟩ := c
    cases hcb : b.cited? with
    | none => simp [hca, hcb] at hcited
    | some d =>
      obtain ⟨before', y, after'⟩ := d
      obtain ⟨rfl, -, rfl⟩ : before = before' ∧ f x = f y ∧ after = after' := by
        simpa [hca, hcb] using hcited
      exact .inr ⟨before, after, x, y, message_of_cited? hca, message_of_cited? hcb⟩

end Problem

/-! ## Diagnostics -/

/-- The diagnostics are of one category, and say the same but for a position that they cite. -/
def Diagnostic.SameButCited (a b : Diagnostic) : Prop :=
  a.category = b.category ∧
    (a.message = b.message ∨ ∃ (before after : String) (x y : Position),
      a.message = before ++ x.display ++ after ∧ b.message = before ++ y.display ++ after)

namespace Program

/-- The program without its positions. -/
def unplaced (p : Program) : Program := p.relocate fun _ => .unknown

/-- All positions of the program are valid: it stays as it is when only others are replaced. -/
def IsPlaced (p : Program) : Prop :=
  ∀ f : Position → Position, (∀ x, x.isValid → f x = x) → p.relocate f = p

theorem relocate_unplaced {p q : Program} (h : p.unplaced = q.unplaced) (c : Position) :
    p.relocate (fun _ => c) = q.relocate fun _ => c := by
  have hrelocated := congrArg (relocate fun _ => c) h
  unfold unplaced at hrelocated
  rwa [relocate_relocate, relocate_relocate] at hrelocated

/-- Without its positions a program is reported with the same categories. -/
theorem categories_unplaced (p : Program) (registry : Registry) :
    (p.unplaced.diagnostics registry).map (·.category) =
      (p.diagnostics registry).map (·.category) := by
  have hkeeps : KeepsInvalid fun _ => .unknown := ⟨rfl, fun _ _ => rfl⟩
  unfold diagnostics unplaced
  rw [findings_relocate hkeeps, List.map_map, List.map_map, List.map_map]
  exact List.map_congr_left fun x _ => x.problem.category_relocate _

section Placed

/-- Replaces valid positions, and makes all others the unknown one. -/
def replaceValid (g : Position → Position) (x : Position) : Position :=
  if x.isValid then g x else .unknown

theorem keepsInvalid_replaceValid (g : Position → Position) : KeepsInvalid (replaceValid g) where
  unknown := rfl
  invalid x hx := by
    unfold replaceValid
    rw [if_neg (by simp [hx])]
    rfl

variable {p : Program} {c : Position}

theorem IsPlaced.relocate_replaceValid (hp : p.IsPlaced) (hc : c.isValid) :
    p.relocate (replaceValid fun _ => c) = p.relocate fun _ => c := by
  have hfixed : p.relocate (fun x => if x.isValid then x else c) = p := hp _ fun x hx => if_pos hx
  have hconst : (replaceValid fun _ => c) ∘ (fun x => if x.isValid then x else c) = fun _ => c := by
    funext x
    have hvalid : (if x.isValid then x else c).isValid := by
      split <;> assumption
    exact if_pos hvalid
  calc p.relocate (replaceValid fun _ => c)
      = (p.relocate fun x => if x.isValid then x else c).relocate (replaceValid fun _ => c) := by
        rw [hfixed]
    _ = p.relocate fun _ => c := by rw [relocate_relocate, hconst]

/-- No name of a program with valid positions is reported as declared at another one. -/
theorem IsPlaced.keepsCited (hp : p.IsPlaced) (hc : c.isValid) {registry : Registry}
    {x : Finding Problem} (hx : x ∈ p.findings registry) :
    x.problem.KeepsCited (replaceValid fun _ => c) := by
  intro name first hproblem
  have hfixed : p.relocate (replaceValid id) = p := hp _ fun y hy => if_pos hy
  have hfindings := findings_relocate (keepsInvalid_replaceValid id) p registry
  rw [hfixed] at hfindings
  have hself : x.relocate (replaceValid id) (Problem.relocate (replaceValid id)) = x :=
    List.map_inj_left.mp (hfindings.symm.trans (List.map_id _).symm) x hx
  have hsame := congrArg Finding.problem hself
  dsimp only [Finding.relocate] at hsame
  rw [hproblem] at hsame
  have hfirst : (replaceValid id first).isValid := by
    by_contra hinvalid
    dsimp only [Problem.relocate, ScopeProblem.relocate] at hsame
    rw [if_neg hinvalid] at hsame
    cases hsame
  have hvalid : first.isValid := by
    by_contra hinvalid
    unfold replaceValid at hfirst
    rw [if_neg hinvalid] at hfirst
    cases hfirst
  unfold replaceValid
  rwa [if_pos hvalid]

end Placed

/-- Programs that differ in positions only are reported with the same categories, and if all
their positions are valid, in the same words but for the positions that these cite. -/
theorem diagnostics_of_unplaced_eq {p q : Program} (h : p.unplaced = q.unplaced)
    (registry : Registry) :
    (p.diagnostics registry).map (·.category) = (q.diagnostics registry).map (·.category) ∧
    (p.IsPlaced → q.IsPlaced →
      List.Forall₂ Diagnostic.SameButCited (p.diagnostics registry) (q.diagnostics registry)) ∧
    (p.diagnostics registry = [] ↔ q.diagnostics registry = []) := by
  have hcategories : (p.diagnostics registry).map (·.category) =
      (q.diagnostics registry).map (·.category) := by
    rw [← categories_unplaced, h, categories_unplaced]
  refine ⟨hcategories, fun hp hq => ?_, ?_⟩
  · let c : Position := ⟨"", 1, 1, 0⟩
    have hc : c.isValid := rfl
    have hkeeps := keepsInvalid_replaceValid fun _ => c
    have hfindings := congrArg (findings · registry) (relocate_unplaced h c)
    rw [← hp.relocate_replaceValid hc, ← hq.relocate_replaceValid hc, findings_relocate hkeeps,
      findings_relocate hkeeps, ← List.forall₂_eq_eq_eq, List.forall₂_map_left_iff,
      List.forall₂_map_right_iff] at hfindings
    unfold diagnostics
    rw [List.forall₂_map_left_iff, List.forall₂_map_right_iff]
    refine List.forall₂_iff_zip.mpr ⟨hfindings.length_eq, fun {a b} hab => ?_⟩
    have hproblem := congrArg Finding.problem (List.forall₂_zip hfindings hab)
    obtain ⟨ha, hb⟩ := List.of_mem_zip hab
    have hcategory := congrArg Problem.category hproblem
    rw [Finding.relocate, Finding.relocate, Problem.category_relocate, Problem.category_relocate]
      at hcategory
    exact ⟨hcategory,
      Problem.message_of_relocate_eq (hp.keepsCited hc ha) (hq.keepsCited hc hb) hproblem⟩
  · rw [← List.map_eq_nil_iff, hcategories, List.map_eq_nil_iff]

/-- A variable declared twice, on two lines of one file and on one line of another. -/
theorem diagnostics_of_unplaced_eq_redeclared :
    let p : Program :=
      ⟨⟨"", 1, 1, 0⟩, [.varDecl ⟨"", 1, 1, 0⟩ "a" none, .varDecl ⟨"", 2, 1, 6⟩ "a" none]⟩
    let q : Program :=
      ⟨⟨"b", 1, 1, 0⟩, [.varDecl ⟨"b", 1, 3, 2⟩ "a" none, .varDecl ⟨"b", 1, 9, 8⟩ "a" none]⟩
    p.unplaced = q.unplaced ∧ p.IsPlaced ∧ q.IsPlaced ∧
      (p.diagnostics .unrestricted).map (·.category) = [.scope] ∧
      (q.diagnostics .unrestricted).map (·.category) = [.scope] ∧
      List.Forall₂ Diagnostic.SameButCited (p.diagnostics .unrestricted)
        (q.diagnostics .unrestricted) := by
  intro p q
  have h : p.unplaced = q.unplaced := rfl
  have hp : p.IsPlaced := by
    intro f hf
    simp [p, relocate, Stmt.relocate, hf, Position.isValid]
  have hq : q.IsPlaced := by
    intro f hf
    simp [q, relocate, Stmt.relocate, hf, Position.isValid]
  have hcategories : (p.diagnostics .unrestricted).map (·.category) = [.scope] := by decide
  obtain ⟨hsame, hmessages, -⟩ := diagnostics_of_unplaced_eq h .unrestricted
  exact ⟨h, hp, hq, hcategories, hsame ▸ hcategories, hmessages hp hq⟩

end Program

end ServiceLang
