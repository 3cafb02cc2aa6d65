import ServiceLang.Ast.Program
import ServiceLang.Check.Finding
import ServiceLang.Decimal.Layout
import ServiceLang.Format.Cron
import ServiceLang.Format.Duration
import ServiceLang.Format.Name

/-!
Workflows and jobs.

Triggers, timeouts and retry policies have the forms that they need, the names of
steps and branches are distinct in their flow, and steps depend on other steps of
the same flow.  A job needs a trigger, and its limit on overlapping runs is positive.
-/

namespace ServiceLang

inductive FlowKind where
  | workflow
  | job
deriving DecidableEq, Repr

def FlowKind.text : FlowKind → String
  | workflow => "workflow"
  | job => "job"

/-- A flow as messages cite it. -/
structure FlowRef where
  kind : FlowKind
  name : String
deriving DecidableEq, Repr

def FlowRef.text (r : FlowRef) : String := r.kind.text ++ " " ++ cite r.name

/-- The settings that hold durations. -/
inductive TimeSetting where
  | flowTimeout (flow : FlowRef)
  | stepTimeout (step : String)
  | initialInterval
  | maxInterval
deriving DecidableEq, Repr

def TimeSetting.text : TimeSetting → String
  | flowTimeout flow => flow.text ++ " timeout"
  | stepTimeout step => "step " ++ cite step ++ " timeout"
  | initialInterval => "retry initial_interval"
  | maxInterval => "retry max_interval"

inductive FlowProblem where
  | noTrigger (job : String)
  | notPositive (job : String) (concurrency : Int)
  | noTriggerValue (kind : TriggerKind) (flow : FlowRef)
  | invalidTriggerEvent (event : String) (flow : FlowRef)
  | invalidSchedule (text : String) (fault : CronFault)
  | invalidDuration (setting : TimeSetting) (text : String) (fault : DurationFault)
  | negativeAttempts (attempts : Int)
  | negativeBackoff (coefficient : Float)
  | duplicateStep (step : String) (flow : FlowRef) (first : Position)
  | noBranches (step : String)
  | noActivity (step : String) (flow : FlowRef)
  | selfDependency (step : String)
  | unknownDependency (step other : String)

namespace FlowProblem

def message : FlowProblem → String
  | noTrigger job => "job " ++ cite job ++ " requires a trigger or schedule"
  | notPositive job n =>
    "job " ++ cite job ++ " concurrency must be positive, got " ++ toString n
  | noTriggerValue kind flow =>
    kind.text ++ " trigger of " ++ flow.text ++ " requires a value"
  | invalidTriggerEvent event flow =>
    "invalid event name " ++ cite event ++ " in trigger of " ++ flow.text
  | invalidSchedule text fault => "invalid cron expression " ++ cite text ++ ": " ++ fault.message
  | invalidDuration setting text fault =>
    "invalid " ++ setting.text ++ " " ++ cite text ++ ": " ++ fault.message
  | negativeAttempts n => "retry max_attempts must not be negative, got " ++ toString n
  | negativeBackoff x =>
    "retry backoff_coefficient must not be negative, got " ++ Decimal.plain x
  | duplicateStep step flow first =>
    "duplicate step " ++ cite step ++ " in " ++ flow.text ++ " (first declared at " ++
      first.display ++ ")"
  | noBranches step => "parallel step " ++ cite step ++ " has no branches"
  | noActivity step flow => "step " ++ cite step ++ " in " ++ flow.text ++ " requires an activity"
  | selfDependency step => "step " ++ cite step ++ " depends on itself"
  | unknownDependency step other =>
    "step " ++ cite step ++ " depends on unknown step " ++ cite other

end FlowProblem

/-- Problems of flows where they are found. -/
abbrev FlowFindings := List (Finding FlowProblem)

def Trigger.findings (flow : FlowRef) (t : Trigger) : FlowFindings :=
  let value := t.value.getD ""
  match t.kind with
  | .event =>
    if value = "" then [⟨t.pos, .noTriggerValue .event flow⟩]
    else demand (isEventName value) t.pos (.invalidTriggerEvent value flow)
  | .schedule =>
    if value = "" then [⟨t.pos, .noTriggerValue .schedule flow⟩]
    else
      match Cron.check value with
      | .ok () => []
      | .error fault => [⟨t.pos, .invalidSchedule value fault⟩]
  | .webhook | .manual => []

/-- A setting that holds a duration has to be one, if it is there. -/
def durationFindings (pos : Position) (setting : TimeSetting) : Option String → FlowFindings
  | none => []
  | some text =>
    match Duration.parse text with
    | .ok _ => []
    | .error fault => [⟨pos, .invalidDuration setting text fault⟩]

def RetryPolicy.findings (r : RetryPolicy) : FlowFindings :=
  (match r.maxAttempts with
    | none => []
    | some n => demand (0 ≤ n) r.pos (.negativeAttempts n)) ++
  (match r.backoffCoefficient with
    | none => []
    | some x => demand (!(x < 0.0)) r.pos (.negativeBackoff x)) ++
  durationFindings r.pos .initialInterval r.initialInterval ++
  durationFindings r.pos .maxInterval r.maxInterval

/-- What is wrong with a retry policy, if there is one. -/
def RetryPolicy.findings? : Option RetryPolicy → FlowFindings
  | none => []
  | some r => r.findings

def dependencyFindings (pos : Position) (step : String) (names : List String) (other : String) :
    FlowFindings :=
  if other = step then [⟨pos, .selfDependency step⟩]
  else demand (names.contains other) pos (.unknownDependency step other)

mutual

/-- What is wrong with a step in a flow whose steps have these names.  Branches of an activity
step are not looked at. -/
def Step.findings (flow : FlowRef) (names : List String) : Step → FlowFindings
  | ⟨pos, name, kind, _, activity, _, timeout, retry, dependsOn, branches⟩ =>
    (match kind with
      | .parallel =>
        demand (!branches.isEmpty) pos (.noBranches name) ++
          Step.findingsAll flow names branches
      | .activity => demand (activity.any (· ≠ "")) pos (.noActivity name flow)) ++
      durationFindings pos (.stepTimeout name) timeout ++ RetryPolicy.findings? retry ++
      dependsOn.flatMap (dependencyFindings pos name names)

def Step.findingsAll (flow : FlowRef) (names : List String) : List Step → FlowFindings
  | [] => []
  | s :: ss => s.findings flow names ++ Step.findingsAll flow names ss

end

/-- A step or branch by name. -/
structure StepName where
  name : String
  pos : Position
deriving DecidableEq, Repr

def Step.stepName (s : Step) : StepName := ⟨s.name, s.pos⟩

/-- The names of a step and of its branches, but not of branches below these. -/
def Step.stepNames (s : Step) : List StepName := (s :: s.branches).map Step.stepName

namespace Flow

/-- The names of the steps of a flow and of their branches. -/
def stepNames (f : Flow) : List StepName := f.steps.flatMap Step.stepNames

/-- Names of steps and branches are distinct. -/
def nameFindings (flow : FlowRef) (earlier : List StepName) (s : StepName) : FlowFindings :=
  match earlier.find? (·.name == s.name) with
  | none => []
  | some first => [⟨s.pos, .duplicateStep s.name flow first.pos⟩]

def findings (kind : FlowKind) (f : Flow) : FlowFindings :=
  let flow : FlowRef := ⟨kind, f.name⟩
  (match f.trigger with
    | none => []
    | some t => t.findings flow) ++
  durationFindings f.pos (.flowTimeout flow) f.timeout ++ RetryPolicy.findings? f.retry ++
  eachAfter (nameFindings flow) [] f.stepNames ++
  Step.findingsAll flow (f.stepNames.map (·.name)) f.steps

end Flow

def Job.findings (j : Job) : FlowFindings :=
  demand j.flow.trigger.isSome j.flow.pos (.noTrigger j.flow.name) ++
    j.flow.findings .job ++
    match j.concurrency with
    | none => []
    | some n => demand (0 < n) j.flow.pos (.notPositive j.flow.name n)

/-- The problems of the workflows and then of the jobs in a program. -/
def Program.flowFindings (p : Program) : FlowFindings :=
  p.workflows.flatMap (Flow.findings .workflow) ++ p.jobs.flatMap Job.findings

end ServiceLang
