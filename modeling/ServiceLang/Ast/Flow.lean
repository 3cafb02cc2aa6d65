import ServiceLang.Ast.Declaration

/-!
Flows: workflows and jobs, which run steps when they are triggered.

A step runs one activity, or its branches side by side.  Branches are steps and may
have branches in turn, though the text of a flow can only write activities there.
-/

namespace ServiceLang

inductive TriggerKind where
  | event
  | schedule
  | webhook
  | manual
deriving DecidableEq, Repr

namespace TriggerKind

def all : List TriggerKind := [event, schedule, webhook, manual]

def text : TriggerKind → String
  | event => "event"
  | schedule => "schedule"
  | webhook => "webhook"
  | manual => "manual"

/-- The name of the kind in the record view of programs. -/
def name : TriggerKind → String
  | event => "Event"
  | schedule => "Schedule"
  | webhook => "Webhook"
  | manual => "Manual"

def ofName? (word : String) : Option TriggerKind := all.find? (·.text = word)

end TriggerKind

/-- A trigger with its event name or schedule. -/
structure Trigger where
  pos : Position
  kind : TriggerKind
  value : Option String

/-- How often and how fast failed work is tried again. -/
structure RetryPolicy where
  pos : Position
  maxAttempts : Option Int
  backoffCoefficient : Option Float
  initialInterval : Option String
  maxInterval : Option String

/-- What a step runs: one activity, or its branches side by side. -/
inductive StepKind where
  | activity
  | parallel
deriving DecidableEq, Repr

def StepKind.name : StepKind → String
  | activity => "Activity"
  | parallel => "Parallel"

/-- A step of a flow.  There is room for everything in it, whatever its kind: what a
step of one kind has no use for is left empty when programs are read. -/
structure Step where
  pos : Position
  name : String
  kind : StepKind
  description : Option String
  activity : Option String
  input : List Property
  timeout : Option String
  retry : Option RetryPolicy
  dependsOn : List String
  branches : List Step

/-- What workflows and jobs have in common. -/
structure Flow where
  pos : Position
  name : String
  description : Option String
  trigger : Option Trigger
  steps : List Step
  timeout : Option String
  retry : Option RetryPolicy

/-- A flow that may limit how many of its runs overlap. -/
structure Job where
  flow : Flow
  concurrency : Option Int

/-! ## Equality up to positions -/

def Trigger.same (a b : Trigger) : Bool := a.kind == b.kind && a.value == b.value

def RetryPolicy.same (a b : RetryPolicy) : Bool :=
  a.maxAttempts == b.maxAttempts &&
    sameOption (· == ·) a.backoffCoefficient b.backoffCoefficient &&
    a.initialInterval == b.initialInterval && a.maxInterval == b.maxInterval

mutual

def Step.same : Step → Step → Bool
  | ⟨_, name, kind, description, activity, input, timeout, retry, dependsOn, branches⟩,
    ⟨_, name', kind', description', activity', input', timeout', retry', dependsOn', branches'⟩ =>
    name == name' && kind == kind' && description == description' && activity == activity' &&
      sameProperties input input' && timeout == timeout' &&
      sameOption RetryPolicy.same retry retry' && dependsOn == dependsOn' &&
      Step.sameAll branches branches'

def Step.sameAll : List Step → List Step → Bool
  | [], [] => true
  | a :: as, b :: bs => a.same b && Step.sameAll as bs
  | _, _ => false

end

theorem Step.sameAll_eq_sameList (as bs : List Step) :
    Step.sameAll as bs = sameList Step.same as bs := by
  induction as generalizing bs with
  | nil => cases bs <;> simp [Step.sameAll, sameList]
  | cons a as ih => cases bs <;> simp [Step.sameAll, sameList, ih]

def Flow.same (a b : Flow) : Bool :=
  a.name == b.name && a.description == b.description &&
    sameOption Trigger.same a.trigger b.trigger && Step.sameAll a.steps b.steps &&
    a.timeout == b.timeout && sameOption RetryPolicy.same a.retry b.retry

def Job.same (a b : Job) : Bool := a.flow.same b.flow && a.concurrency == b.concurrency

end ServiceLang
