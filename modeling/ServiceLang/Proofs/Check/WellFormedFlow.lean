import ServiceLang.Check.Flow
import ServiceLang.Proofs.Check.Distinct
import ServiceLang.Proofs.Format.Duration
import ServiceLang.Proofs.Format.Name
import ServiceLang.Proofs.Parse.Meaning

/-!
What the flow pass accepts.

The pass takes two ways through a flow.  It collects names from the steps and their branches and
goes no deeper (`Flow.stepNames`), but its checks go on below the branches of every parallel step
(`Step.reached`), and neither enters an activity step.  Steps of a text are flat, so both ways come to
all steps at all depths (`Flow.allSteps`), and the pass finds nothing exactly if these are well
formed, their names are distinct, and whatever one of them depends on is another of them
(`Flow.findings_eq_nil_iff`).  `Source.flowFindings_eq_nil_iff` says so of the programs that are
parsed.
-/

namespace ServiceLang

/-! ## Well-formed flows -/

/-- The trigger has the value that its kind asks for. -/
structure Trigger.Fits (t : Trigger) : Prop where
  event : t.kind = .event → ∃ value ∈ t.value, EventName value.toList
  schedule : t.kind = .schedule → ∃ value ∈ t.value, Cron.check value = .ok ()

/-- The numbers of the policy are not negative, and its intervals are durations. -/
structure RetryPolicy.Fits (r : RetryPolicy) : Prop where
  maxAttempts : ∀ n ∈ r.maxAttempts, 0 ≤ n
  backoffCoefficient : ∀ x ∈ r.backoffCoefficient, ¬x < 0.0
  initialInterval : ∀ text ∈ r.initialInterval, Duration.Reads text
  maxInterval : ∀ text ∈ r.maxInterval, Duration.Reads text

/-- A step that is well formed on its own. -/
structure Step.Fits (s : Step) : Prop where
  activity : s.kind = .activity → ∃ name ∈ s.activity, name ≠ ""
  branches : s.kind = .parallel → s.branches ≠ []
  timeout : ∀ text ∈ s.timeout, Duration.Reads text
  retry : ∀ r ∈ s.retry, r.Fits

namespace Flow

/-- The steps of a flow at all depths. -/
def allSteps (f : Flow) : List Step := Step.allOf f.steps

/-- A workflow, or what a job has in common with one, that can be run. -/
structure Fits (f : Flow) : Prop where
  trigger : ∀ t ∈ f.trigger, t.Fits
  timeout : ∀ text ∈ f.timeout, Duration.Reads text
  retry : ∀ r ∈ f.retry, r.Fits
  steps : ∀ s ∈ f.allSteps, s.Fits
  distinct : (f.allSteps.map Step.name).Nodup
  /-- Each name that a step depends on is the name of a step beside it. -/
  dependencies : ∀ before s behind, f.allSteps = before ++ s :: behind →
    ∀ name ∈ s.dependsOn, ∃ other ∈ before ++ behind, other.name = name

end Flow

/-- A job has a trigger, and some of its runs may go on at a time. -/
structure Job.Fits (j : Job) : Prop where
  flow : j.flow.Fits
  triggered : j.flow.trigger.isSome
  concurrency : ∀ n ∈ j.concurrency, 0 < n

/-- The workflows and jobs of a program are well formed. -/
structure Program.FlowsFit (p : Program) : Prop where
  workflows : ∀ f, .workflow f ∈ p.statements → f.Fits
  jobs : ∀ j, .job j ∈ p.statements → j.Fits

/-! ## Settings -/

theorem durationFindings_eq_nil_iff (pos : Position) (setting : TimeSetting) (text : Option String) :
    durationFindings pos setting text = [] ↔ ∀ t ∈ text, Duration.Reads t := by
  cases text with
  | none => simp [durationFindings]
  | some t => cases h : Duration.parse t <;> simp [durationFindings, Duration.Reads, h]

theorem Trigger.findings_eq_nil_iff (flow : FlowRef) (t : Trigger) :
    t.findings flow = [] ↔ t.Fits := by
  have hevent : (∃ value ∈ t.value, EventName value.toList) ↔ isEventName (t.value.getD "") = true := by
    cases t.value with
    | none => simpa using (by decide : isEventName "" = false)
    | some value => simp [isEventName_iff]
  have hschedule : (∃ value ∈ t.value, Cron.check value = .ok ()) ↔
      Cron.check (t.value.getD "") = .ok () := by
    cases t.value with
    | none => simpa using (by decide : Cron.check "" ≠ .ok ())
    | some value => simp
  have hfits : t.Fits ↔ (t.kind = .event → isEventName (t.value.getD "") = true) ∧
      (t.kind = .schedule → Cron.check (t.value.getD "") = .ok ()) := by
    rw [← hevent, ← hschedule]
    constructor
    · intro h
      exact ⟨h.event, h.schedule⟩
    · rintro ⟨he, hs⟩
      exact ⟨he, hs⟩
  rw [hfits]
  unfold findings
  generalize t.value.getD "" = value
  cases t.kind with
  | event =>
    by_cases hempty : value = ""
    · subst hempty
      simpa using (by decide : isEventName "" = false)
    · simp [hempty]
  | schedule =>
    by_cases hempty : value = ""
    · subst hempty
      simpa using (by decide : Cron.check "" ≠ .ok ())
    · cases h : Cron.check value <;> simp [hempty, h]
  | webhook | manual => simp

theorem RetryPolicy.findings_eq_nil_iff (r : RetryPolicy) : r.findings = [] ↔ r.Fits := by
  unfold findings
  simp only [List.append_eq_nil_iff, durationFindings_eq_nil_iff]
  constructor
  · rintro ⟨⟨⟨hattempts, hbackoff⟩, hinitial⟩, hmax⟩
    refine ⟨fun n hn => ?_, fun x hx => ?_, hinitial, hmax⟩
    · rw [Option.mem_def.mp hn] at hattempts
      simpa using hattempts
    · rw [Option.mem_def.mp hx] at hbackoff
      simpa using hbackoff
  · intro h
    refine ⟨⟨⟨?_, ?_⟩, h.initialInterval⟩, h.maxInterval⟩
    · cases hn : r.maxAttempts with
      | none => rfl
      | some n => simpa using h.maxAttempts n hn
    · cases hx : r.backoffCoefficient with
      | none => rfl
      | some x => simpa using h.backoffCoefficient x hx

theorem RetryPolicy.findings?_eq_nil_iff (retry : Option RetryPolicy) :
    RetryPolicy.findings? retry = [] ↔ ∀ r ∈ retry, r.Fits := by
  cases retry <;> simp [findings?, findings_eq_nil_iff]

/-! ## Steps -/

/-- A name that a step may depend on, in view of the names of the flow. -/
theorem dependencyFindings_eq_nil_iff (pos : Position) (step : String) (names : List String)
    (other : String) :
    dependencyFindings pos step names other = [] ↔ other ≠ step ∧ other ∈ names := by
  unfold dependencyFindings
  split <;> simp [*]

namespace Step

/-- What the pass says of the names that a step depends on. -/
def Resolves (names : List String) (s : Step) : Prop :=
  ∀ other ∈ s.dependsOn, other ≠ s.name ∧ other ∈ names

/-- The step passes on its own, and so do its branches if it runs them. -/
theorem findings_eq_nil_iff_branches (flow : FlowRef) (names : List String) (s : Step) :
    s.findings flow names = [] ↔ (s.Fits ∧ s.Resolves names) ∧
      (s.kind = .parallel → findingsAll flow names s.branches = []) := by
  obtain ⟨pos, name, kind, description, activity, input, timeout, retry, dependsOn, branches⟩ := s
  unfold findings
  simp only [List.append_eq_nil_iff, durationFindings_eq_nil_iff, RetryPolicy.findings?_eq_nil_iff,
    List.flatMap_eq_nil_iff, dependencyFindings_eq_nil_iff]
  have hkinds : StepKind.activity ≠ .parallel := by decide
  cases kind with
  | activity =>
    simp only [demand_eq_nil_iff, Option.any_eq_true, decide_eq_true_eq]
    constructor
    · rintro ⟨⟨⟨hactivity, htimeout⟩, hretry⟩, hdepends⟩
      exact ⟨⟨⟨fun _ => hactivity, fun h => absurd h hkinds, htimeout, hretry⟩, hdepends⟩,
        fun h => absurd h hkinds⟩
    · rintro ⟨⟨⟨hactivity, -, htimeout, hretry⟩, hdepends⟩, -⟩
      exact ⟨⟨⟨hactivity rfl, htimeout⟩, hretry⟩, hdepends⟩
  | parallel =>
    simp only [demand_eq_nil_iff, List.append_eq_nil_iff, Bool.not_eq_true', List.isEmpty_eq_false_iff]
    constructor
    · rintro ⟨⟨⟨⟨hsome, hbranches⟩, htimeout⟩, hretry⟩, hdepends⟩
      exact ⟨⟨⟨fun h => absurd h.symm hkinds, fun _ => hsome, htimeout, hretry⟩, hdepends⟩,
        fun _ => hbranches⟩
    · rintro ⟨⟨⟨-, hsome, htimeout, hretry⟩, hdepends⟩, hbranches⟩
      exact ⟨⟨⟨⟨hsome rfl, hbranches trivial⟩, htimeout⟩, hretry⟩, hdepends⟩

end Step

mutual

/-- The steps that the check of a step comes to. -/
def Step.reached : Step → List Step
  | s@⟨_, _, kind, _, _, _, _, _, _, branches⟩ =>
    s :: match kind with
      | .activity => []
      | .parallel => Step.reachedFrom branches

def Step.reachedFrom : List Step → List Step
  | [] => []
  | s :: ss => s.reached ++ Step.reachedFrom ss

end

theorem Step.reached_of_activity {s : Step} (h : s.kind = .activity) : s.reached = [s] := by
  obtain ⟨_, _, kind, _⟩ := s
  obtain rfl : kind = .activity := h
  rfl

theorem Step.reached_of_parallel {s : Step} (h : s.kind = .parallel) :
    s.reached = s :: Step.reachedFrom s.branches := by
  obtain ⟨_, _, kind, _⟩ := s
  obtain rfl : kind = .parallel := h
  rfl

mutual

theorem Step.findings_eq_nil_iff (flow : FlowRef) (names : List String) : ∀ s : Step,
    s.findings flow names = [] ↔ ∀ b ∈ s.reached, b.Fits ∧ b.Resolves names
  | ⟨pos, name, kind, description, activity, input, timeout, retry, dependsOn, branches⟩ => by
    have hbranches := Step.findingsAll_eq_nil_iff flow names branches
    rw [Step.findings_eq_nil_iff_branches]
    cases kind with
    | activity => simp [Step.reached_of_activity]
    | parallel => simp [Step.reached_of_parallel, hbranches]

theorem Step.findingsAll_eq_nil_iff (flow : FlowRef) (names : List String) : ∀ ss : List Step,
    Step.findingsAll flow names ss = [] ↔ ∀ b ∈ Step.reachedFrom ss, b.Fits ∧ b.Resolves names
  | [] => by simp [Step.findingsAll, Step.reachedFrom]
  | s :: ss => by
    rw [Step.findingsAll, Step.reachedFrom, List.append_eq_nil_iff, List.forall_mem_append,
      Step.findings_eq_nil_iff flow names s, Step.findingsAll_eq_nil_iff flow names ss]

end

/-! ## Flat steps -/

namespace Step

theorem reachedFrom_eq_flatMap (ss : List Step) : reachedFrom ss = ss.flatMap reached := by
  induction ss with
  | nil => rfl
  | cons s ss ih => rw [reachedFrom, ih, List.flatMap_cons]

/-- The checks come to a flat step and its branches. -/
theorem IsFlat.reached_eq {s : Step} (h : s.IsFlat) : s.reached = s :: s.branches := by
  cases hkind : s.kind with
  | activity => rw [reached_of_activity hkind, h.single hkind]
  | parallel =>
    have hbranches : s.branches.flatMap reached = s.branches.flatMap ([·]) :=
      List.flatMap_congr fun b hb => reached_of_activity (h.branches b hb).1
    rw [reached_of_parallel hkind, reachedFrom_eq_flatMap, hbranches, List.flatMap_singleton']

/-- There are no other steps below a flat step than its branches. -/
theorem IsFlat.all_eq {s : Step} (h : s.IsFlat) : s.all = s :: s.branches := by
  have hbranches : s.branches.flatMap all = s.branches.flatMap ([·]) :=
    List.flatMap_congr fun b hb => by rw [b.all_eq, (h.branches b hb).2, List.flatMap_nil]
  rw [s.all_eq, hbranches, List.flatMap_singleton']

end Step

namespace Flow

/-- All steps of the flow are flat, as they are when they are read. -/
def IsFlat (f : Flow) : Prop := ∀ s ∈ f.steps, s.IsFlat

variable {f : Flow}

/-- The checks come to the steps at all depths. -/
theorem IsFlat.reachedFrom_steps (h : f.IsFlat) : Step.reachedFrom f.steps = f.allSteps := by
  rw [Step.reachedFrom_eq_flatMap, allSteps, Step.allOf_eq_flatMap]
  exact List.flatMap_congr fun s hs => (h s hs).reached_eq.trans (h s hs).all_eq.symm

/-- The names are collected from the steps at all depths. -/
theorem IsFlat.map_name_stepNames (h : f.IsFlat) :
    f.stepNames.map (·.name) = f.allSteps.map Step.name := by
  have hsteps : f.allSteps = f.steps.flatMap fun s => s :: s.branches := by
    rw [allSteps, Step.allOf_eq_flatMap]
    exact List.flatMap_congr fun s hs => (h s hs).all_eq
  rw [hsteps, stepNames, List.map_flatMap, List.map_flatMap]
  exact congrArg (f.steps.flatMap ·) (funext fun s => List.map_map)

end Flow

/-! ## Dependencies -/

/-- With distinct names, a name is that of a step beside this one if it is a name of the
flow and not that of the step itself. -/
theorem exists_beside_iff {before behind : List Step} {s : Step}
    (distinct : ((before ++ s :: behind).map Step.name).Nodup) (name : String) :
    (∃ other ∈ before ++ behind, other.name = name) ↔
      name ≠ s.name ∧ name ∈ (before ++ s :: behind).map Step.name := by
  have hperm : (before ++ s :: behind).Perm (s :: (before ++ behind)) := List.perm_middle
  have hs : s.name ∉ (before ++ behind).map Step.name :=
    (List.nodup_cons.mp ((hperm.map Step.name).nodup_iff.mp distinct)).1
  rw [(hperm.map Step.name).mem_iff, List.map_cons, List.mem_cons, List.mem_map.symm]
  constructor
  · intro hname
    refine ⟨?_, .inr hname⟩
    rintro rfl
    exact hs hname
  · rintro ⟨hne, hself | hname⟩
    · exact absurd hself hne
    · exact hname

theorem forall_resolves_iff {steps : List Step} (distinct : (steps.map Step.name).Nodup) :
    (∀ s ∈ steps, s.Resolves (steps.map Step.name)) ↔
      ∀ before s behind, steps = before ++ s :: behind →
        ∀ name ∈ s.dependsOn, ∃ other ∈ before ++ behind, other.name = name := by
  constructor
  · rintro h before s behind rfl name hname
    exact (exists_beside_iff distinct name).mpr (h s (by simp) name hname)
  · intro h s hs name hname
    obtain ⟨before, behind, rfl⟩ := List.append_of_mem hs
    exact (exists_beside_iff distinct name).mp (h before s behind rfl name hname)

/-! ## Flows -/

namespace Flow

theorem nameFindings_eq_nil_iff (flow : FlowRef) (earlier : List StepName) (s : StepName) :
    nameFindings flow earlier s = [] ↔ s.name ∉ earlier.map StepName.name := by
  unfold nameFindings
  cases hfind : earlier.find? (·.name == s.name) with
  | none => simpa using hfind
  | some first =>
    have hname : first.name = s.name := by simpa using List.find?_some hfind
    have hmem : s.name ∈ earlier.map StepName.name :=
      List.mem_map.mpr ⟨first, List.mem_of_find?_eq_some hfind, hname⟩
    simp [hmem]

theorem findings_eq_nil_iff (kind : FlowKind) {f : Flow} (h : f.IsFlat) :
    f.findings kind = [] ↔ f.Fits := by
  have hnames (flow : FlowRef) : eachAfter (nameFindings flow) [] f.stepNames = [] ↔
      (f.allSteps.map Step.name).Nodup := by
    rw [eachAfter_eq_nil_iff_nodup_map StepName.name (nameFindings_eq_nil_iff flow),
      h.map_name_stepNames]
  have hsteps (flow : FlowRef) : Step.findingsAll flow (f.stepNames.map (·.name)) f.steps = [] ↔
      (∀ s ∈ f.allSteps, s.Fits) ∧ ∀ s ∈ f.allSteps, s.Resolves (f.allSteps.map Step.name) := by
    rw [Step.findingsAll_eq_nil_iff, h.reachedFrom_steps, h.map_name_stepNames, ← forall₂_and]
  unfold findings
  simp only [List.append_eq_nil_iff, hnames, hsteps, durationFindings_eq_nil_iff,
    RetryPolicy.findings?_eq_nil_iff]
  constructor
  · rintro ⟨⟨⟨⟨htrigger, htimeout⟩, hretry⟩, hdistinct⟩, hfit, hresolves⟩
    refine ⟨fun t ht => ?_, htimeout, hretry, hfit, hdistinct,
      (forall_resolves_iff hdistinct).mp hresolves⟩
    rw [Option.mem_def.mp ht] at htrigger
    exact (t.findings_eq_nil_iff _).mp htrigger
  · intro hfits
    refine ⟨⟨⟨⟨?_, hfits.timeout⟩, hfits.retry⟩, hfits.distinct⟩, hfits.steps,
      (forall_resolves_iff hfits.distinct).mpr hfits.dependencies⟩
    cases ht : f.trigger with
    | none => rfl
    | some t => exact (t.findings_eq_nil_iff _).mpr (hfits.trigger t ht)

-- The names go one level down and no further, so it matters that the flow is flat: `a` is a step of
-- this one, and yet no step may wait for it.
example :
    let step (name : String) (kind : StepKind) (dependsOn : List String) (branches : List Step) : Step :=
      ⟨.unknown, name, kind, none, some "f", [], none, none, dependsOn, branches⟩
    let f : Flow := ⟨.unknown, "w", none, none, [
      step "p" .parallel [] [step "q" .parallel [] [step "a" .activity [] []]],
      step "b" .activity ["a"] []], none, none⟩
    f.allSteps.map Step.name = ["p", "q", "a", "b"] ∧
      (f.findings .workflow).map (·.problem.message) = ["step 'b' depends on unknown step 'a'"] := by
  decide +kernel

end Flow

theorem Job.findings_eq_nil_iff {j : Job} (h : j.flow.IsFlat) : j.findings = [] ↔ j.Fits := by
  unfold findings
  simp only [List.append_eq_nil_iff, demand_eq_nil_iff, Flow.findings_eq_nil_iff .job h]
  constructor
  · rintro ⟨⟨htriggered, hflow⟩, hconcurrency⟩
    refine ⟨hflow, htriggered, fun n hn => ?_⟩
    rw [Option.mem_def.mp hn] at hconcurrency
    simpa using hconcurrency
  · intro hfits
    refine ⟨⟨hfits.triggered, hfits.flow⟩, ?_⟩
    cases hn : j.concurrency with
    | none => rfl
    | some n => simpa using hfits.concurrency n hn

/-! ## Programs that are parsed -/

namespace Source

theorem isFlat_of_parse {s : Source} {p : Program} (h : s.parse = .ok p) :
    (∀ f, .workflow f ∈ p.statements → f.IsFlat) ∧ ∀ j, .job j ∈ p.statements → j.flow.IsFlat := by
  have hstmt (x : Stmt) (hx : x ∈ p.statements) : (Node.stmt x).Conforms :=
    conforms_of_parse s p h (.stmt x) (((Node.program p).mem_preorder_iff _).2
      (.inr ⟨.stmt x, List.mem_map_of_mem hx, ((Node.stmt x).mem_preorder_iff _).2 (.inl rfl)⟩))
  exact ⟨fun f hf => (hstmt _ hf).flat, fun j hj => (hstmt _ hj).flat⟩

/-- The flow pass finds nothing in a parsed program exactly if its workflows and jobs are well
formed. -/
theorem flowFindings_eq_nil_iff {s : Source} {p : Program} (h : s.parse = .ok p) :
    p.flowFindings = [] ↔ p.FlowsFit := by
  obtain ⟨hworkflows, hjobs⟩ := isFlat_of_parse h
  unfold Program.flowFindings
  simp only [List.append_eq_nil_iff, List.flatMap_eq_nil_iff, Program.mem_workflows_iff,
    Program.mem_jobs_iff]
  constructor
  · rintro ⟨hw, hj⟩
    exact ⟨fun f hf => (Flow.findings_eq_nil_iff .workflow (hworkflows f hf)).1 (hw f hf),
      fun j hjob => (Job.findings_eq_nil_iff (hjobs j hjob)).1 (hj j hjob)⟩
  · intro hfits
    exact ⟨fun f hf => (Flow.findings_eq_nil_iff .workflow (hworkflows f hf)).2 (hfits.workflows f hf),
      fun j hjob => (Job.findings_eq_nil_iff (hjobs j hjob)).2 (hfits.jobs j hjob)⟩

/-- A workflow with a parallel step, and a step that waits for one of its branches. -/
theorem flowFindings_eq_nil_iff_branches :
    let s : Source := ⟨"", ("workflow w \x7b parallel p \x7b step a \x7b activity: f \x7d \x7d " ++
      "step b \x7b activity: g depends_on: [a] \x7d \x7d").toList⟩
    ∃ p, s.parse = .ok p ∧ p.FlowsFit := by
  intro s
  obtain ⟨p, hp⟩ := exists_ok_of_isSome (x := s.parse) (by decide +kernel)
  refine ⟨p, hp, (flowFindings_eq_nil_iff hp).1 ?_⟩
  have hempty : (s.parse.toOption.map (·.flowFindings.isEmpty)) = some true := by decide +kernel
  rw [hp] at hempty
  exact List.isEmpty_iff.1 (Option.some.inj hempty)

end Source

end ServiceLang
