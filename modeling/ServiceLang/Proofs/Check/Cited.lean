import ServiceLang.Proofs.Check.Introduced
import ServiceLang.Proofs.Check.Membership

/-!
What findings cite.

Outside the pass over names and types, a check that cites a position looks back at the items before
the one that it checks (`CitesIn.eachAfter`), and all other findings cite nothing (`Uncited`).  These
passes commute with `relocate`, so a function that leaves the positions of a program in place leaves
those of its findings in place.  Together with the pass over names and types this says of every
finding that it is reported at a position of the program and cites a declaration that the passes
process before the reported one (`Program.reported_findings`).
-/

namespace ServiceLang

/-! ## Findings that cite nothing -/

/-- No finding cites a position; `wrap` makes problems of all kinds of them. -/
abbrev Uncited {α : Type} (wrap : α → Problem) (xs : List (Finding α)) : Prop :=
  EveryProblem (fun problem => (wrap problem).earlier? = none) xs

theorem Config.uncited_settingFindings (c : Config) : Uncited .schema c.settingFindings := by
  unfold settingFindings
  split
  · exact .flatMap (fun _ => .demand (by rfl) _ _) _
  · exact .nil

namespace Field

variable (x : Field)

theorem uncited_checkModifier (field : String) (earlier : List Modifier) (m : Modifier) :
    Uncited .schema (checkModifier field earlier m) := by
  unfold checkModifier
  split
  · exact .singleton (by rfl) _
  · split
    · exact .singleton (by rfl) _
    all_goals exact .demand (by rfl) _ _

theorem uncited_modifierFindings : Uncited .schema x.modifierFindings :=
  .append (.eachAfter (uncited_checkModifier x.name) _ _) (.demand (by rfl) _ _)

theorem uncited_headFindings (schema : SchemaRef) (types earlier : List String) :
    Uncited .schema (headFindings schema types earlier x) :=
  .append (.demand (by rfl) _ _) (.demand (by rfl) _ _)

theorem uncited_modelFindings (schema : SchemaRef) (earlier : List Field) :
    Uncited .schema (modelFindings schema earlier x) :=
  .append (.append (x.uncited_headFindings _ _ _) x.uncited_modifierFindings) (.demand (by rfl) _ _)

theorem uncited_relationalFindings : Uncited .schema x.relationalFindings :=
  .flatMap (fun _ => .demand (by rfl) _ _) _

mutual

theorem uncited_documentFindings (schema : SchemaRef) (depth : Nat) (earlier : List String) :
    ∀ x : Field, Uncited .schema (x.documentFindings schema depth earlier)
  | .mk pos name type modifiers fields => by
    rw [documentFindings]
    refine .append (.append (.append (uncited_headFindings _ _ _ _) (uncited_modifierFindings _))
      (uncited_relationalFindings _)) ?_
    split
    · exact .nil
    split
    · exact .singleton (by rfl) _
    split
    · exact .singleton (by rfl) _
    · exact uncited_documentFindingsAll schema (depth + 1) [] fields

theorem uncited_documentFindingsAll (schema : SchemaRef) (depth : Nat) (earlier : List String) :
    ∀ xs : List Field, Uncited .schema (documentFindingsAll schema depth earlier xs)
  | [] => .nil
  | x :: xs => by
    rw [documentFindingsAll]
    exact .append (uncited_documentFindings schema depth earlier x)
      (uncited_documentFindingsAll schema depth _ xs)

end

end Field

namespace Model

theorem uncited_indexFindings (schema : SchemaRef) (hasField : String → Bool) (indexes : List Index) :
    Uncited .schema (indexFindings schema hasField indexes) :=
  .flatMap (fun _ => .flatMap (fun _ => .demand (by rfl) _ _) _) _

theorem uncited_modelFindings (m : Model) : Uncited .schema m.modelFindings :=
  .append (.eachAfter (fun _ x => x.uncited_modelFindings _ _) _ _) (uncited_indexFindings _ _ _)

theorem uncited_collectionFindings (m : Model) : Uncited .schema m.collectionFindings :=
  .append (Field.uncited_documentFindingsAll _ _ _ _) (uncited_indexFindings _ _ _)

end Model

theorem Program.uncited_engineFindings (p : Program) : Uncited .schema p.engineFindings := by
  refine .append (.flatMap (fun _ => .demand (by rfl) _ _) _) ?_
  split
  · exact .nil
  · exact .demand (by rfl) _ _

theorem AnnotationSpec.uncited_findings (known : Option (List String)) (earlier : List AnnotationSpec)
    (a : AnnotationSpec) : Uncited .endpoint (a.findings known earlier) := by
  have hvalue : Uncited .endpoint a.valueFindings := by
    unfold valueFindings
    split
    case h_4 => exact .nil
    all_goals exact .demand (by rfl) _ _
  unfold findings
  split
  · exact .singleton (by rfl) _
  · exact .append (.demand (by rfl) _ _) hvalue

theorem LogicStep.uncited_findings (known : Option (List String)) (s : LogicStep) :
    Uncited .endpoint (s.findings known) := by
  unfold findings
  split
  · exact .singleton (by rfl) _
  · refine .append
      (.append (.append (.demand (by rfl) _ _) ?_) (.flatMap (fun _ => .demand (by rfl) _ _) _))
      (.flatMap (fun _ => .append (.demand (by rfl) _ _) (.demand (by rfl) _ _)) _)
    split
    · exact .nil
    · exact .demand (by rfl) _ _

namespace Endpoint

variable (e : Endpoint)

theorem uncited_pathFindings : Uncited .endpoint e.pathFindings :=
  .append (.append (.demand (by rfl) _ _) (.demand (by rfl) _ _))
    (.eachAfter (fun _ _ => .demand (by rfl) _ _) _ _)

theorem uncited_middlewareFindings (known : Option (List String)) (earlier : List String)
    (name : String) : Uncited .endpoint (e.middlewareFindings known earlier name) := by
  unfold middlewareFindings
  split
  · exact .singleton (by rfl) _
  · exact .demand (by rfl) _ _

theorem uncited_handlerFindings : Uncited .endpoint e.handlerFindings := by
  unfold handlerFindings
  split
  · exact .nil
  · exact .demand (by rfl) _ _

theorem uncited_roleFindings (ds : Declarations) : Uncited .endpoint (e.roleFindings ds) := by
  unfold roleFindings
  split
  · exact .nil
  · exact .demand (by rfl) _ _

theorem uncited_requestFindings : Uncited .endpoint e.requestFindings := by
  unfold requestFindings
  split
  · exact .nil
  · exact .append (.demand (by rfl) _ _) (.demand (by rfl) _ _)

theorem uncited_responseFindings : Uncited .endpoint e.responseFindings := by
  unfold responseFindings
  split
  · exact .nil
  · exact .append (.demand (by rfl) _ _) (.demand (by rfl) _ _)

end Endpoint

theorem Trigger.uncited_findings (flow : FlowRef) (t : Trigger) : Uncited .flow (t.findings flow) := by
  unfold findings
  dsimp only
  split
  · split
    · exact .singleton (by rfl) _
    · exact .demand (by rfl) _ _
  · split
    · exact .singleton (by rfl) _
    split
    · exact .nil
    · exact .singleton (by rfl) _
  all_goals exact .nil

theorem uncited_durationFindings (pos : Position) (setting : TimeSetting) (text : Option String) :
    Uncited .flow (durationFindings pos setting text) := by
  unfold durationFindings
  split
  · exact .nil
  split
  · exact .nil
  · exact .singleton (by rfl) _

theorem RetryPolicy.uncited_findings? (r : Option RetryPolicy) : Uncited .flow (findings? r) := by
  cases r with
  | none => exact .nil
  | some r =>
    refine .append (.append (.append ?_ ?_) (uncited_durationFindings _ _ _))
      (uncited_durationFindings _ _ _)
    all_goals
      split
      · exact .nil
      · exact .demand (by rfl) _ _

theorem uncited_dependencyFindings (pos : Position) (step : String) (names : List String)
    (other : String) : Uncited .flow (dependencyFindings pos step names other) := by
  unfold dependencyFindings
  split
  · exact .singleton (by rfl) _
  · exact .demand (by rfl) _ _

mutual

theorem Step.uncited_findings (flow : FlowRef) (names : List String) : ∀ s : Step,
    Uncited .flow (s.findings flow names)
  | ⟨_, _, kind, _, _, _, _, _, _, branches⟩ => by
    unfold Step.findings
    refine .append (.append (.append ?_ (uncited_durationFindings _ _ _)) (RetryPolicy.uncited_findings? _))
      (.flatMap (uncited_dependencyFindings _ _ _) _)
    cases kind with
    | activity => exact .demand (by rfl) _ _
    | parallel => exact .append (.demand (by rfl) _ _) (Step.uncited_findingsAll flow names branches)

theorem Step.uncited_findingsAll (flow : FlowRef) (names : List String) : ∀ ss : List Step,
    Uncited .flow (Step.findingsAll flow names ss)
  | [] => .nil
  | s :: ss => .append (Step.uncited_findings flow names s) (Step.uncited_findingsAll flow names ss)

end

/-! ## Findings that look back -/

/-- What findings cite stands among the declarations in front of what they report. -/
def CitesIn {α : Type} (wrap : α → Problem) (ds : List Introduction) (xs : List (Finding α)) : Prop :=
  ∀ x ∈ xs, ∀ d, (wrap x.problem).earlier? = some d → [d, ⟨d.subject, x.pos⟩].Sublist ds

/-- What findings on an item cite are earlier items, and what they report is the item; `intro?` says
what an item declares. -/
def CitesEarlier {α β : Type} (wrap : α → Problem) (intro? : β → Option Introduction)
    (earlier : List β) (b : β) (xs : List (Finding α)) : Prop :=
  ∀ x ∈ xs, ∀ d, (wrap x.problem).earlier? = some d →
    (∃ first ∈ earlier, intro? first = some d) ∧ intro? b = some ⟨d.subject, x.pos⟩

section CitesIn

variable {α β : Type} {wrap : α → Problem} {ds ds' : List Introduction} {xs ys : List (Finding α)}
  {intro? : β → Option Introduction}

theorem CitesIn.mono (h : CitesIn wrap ds xs) (hds : ds.Sublist ds') : CitesIn wrap ds' xs :=
  fun x hx d hd => (h x hx d hd).trans hds

theorem CitesIn.append (hx : CitesIn wrap ds xs) (hy : CitesIn wrap ds ys) :
    CitesIn wrap ds (xs ++ ys) :=
  List.forall_mem_append.2 ⟨hx, hy⟩

theorem CitesIn.of_uncited (h : Uncited wrap xs) : CitesIn wrap ds xs := by
  intro x hx d hd
  rw [h x hx] at hd
  cases hd

theorem CitesIn.flatMap {check : β → List (Finding α)} {introduced : β → List Introduction}
    (h : ∀ b, CitesIn wrap (introduced b) (check b)) (bs : List β) :
    CitesIn wrap (bs.flatMap introduced) (bs.flatMap check) := by
  intro x hx
  obtain ⟨b, hb, hxb⟩ := List.mem_flatMap.1 hx
  obtain ⟨before, after, rfl⟩ := List.append_of_mem hb
  refine (h b).mono ?_ x hxb
  rw [List.flatMap_append, List.flatMap_cons]
  exact (List.sublist_append_left _ _).trans (List.sublist_append_right _ _)

theorem CitesEarlier.append {earlier : List β} {b : β} (hx : CitesEarlier wrap intro? earlier b xs)
    (hy : CitesEarlier wrap intro? earlier b ys) : CitesEarlier wrap intro? earlier b (xs ++ ys) :=
  List.forall_mem_append.2 ⟨hx, hy⟩

theorem CitesEarlier.of_uncited {earlier : List β} {b : β} (h : Uncited wrap xs) :
    CitesEarlier wrap intro? earlier b xs := by
  intro x hx d hd
  rw [h x hx] at hd
  cases hd

/-- A repetition is found, and the finding cites an earlier item that declares the same. -/
theorem CitesEarlier.singleton {earlier : List β} {b first : β} {pos : Position} {problem : α}
    {d : Introduction} (hmem : first ∈ earlier) (hfirst : intro? first = some d)
    (hcited : (wrap problem).earlier? = some d) (hb : intro? b = some ⟨d.subject, pos⟩) :
    CitesEarlier wrap intro? earlier b [⟨pos, problem⟩] := by
  intro x hx d' hd'
  rw [List.mem_singleton.1 hx] at hd' ⊢
  obtain rfl := Option.some.inj (hcited.symm.trans hd')
  exact ⟨⟨first, hmem, hfirst⟩, hb⟩

/-- Checks that look back cite what stands before. -/
theorem CitesIn.eachAfter {check : List β → β → List (Finding α)}
    (h : ∀ earlier b, CitesEarlier wrap intro? earlier b (check earlier b)) (earlier bs : List β) :
    CitesIn wrap ((earlier ++ bs).filterMap intro?) (eachAfter check earlier bs) := by
  induction bs generalizing earlier with
  | nil => exact .of_uncited .nil
  | cons b bs ih =>
    refine .append (fun x hx d hd => ?_) ?_
    · obtain ⟨⟨first, hfirst, hd'⟩, hb⟩ := h earlier b x hx d hd
      rw [List.filterMap_append]
      refine List.Sublist.append (List.singleton_sublist.2 ?_) (List.singleton_sublist.2 ?_)
      · exact List.mem_filterMap.2 ⟨first, hfirst, hd'⟩
      · exact List.mem_filterMap.2 ⟨b, List.mem_cons_self, hb⟩
    · have hrest := ih (earlier ++ [b])
      rwa [List.append_assoc] at hrest

end CitesIn

/-! ## Passes -/

theorem Program.citesIn_duplicateNames (p : Program) :
    CitesIn .duplicateName (p.declared.map Declared.introduction) p.duplicateNames := by
  unfold duplicateNames
  rw [← List.filterMap_eq_map]
  refine CitesIn.eachAfter (fun earlier d => ?_) [] p.declared
  split
  · exact .of_uncited .nil
  · next first hfirst =>
    have hsame : first.kind = d.kind ∧ first.name = d.name := by
      simpa using List.find?_some hfirst
    have hintro : first.introduction = ⟨.name d.kind d.name, first.pos⟩ := by
      unfold Declared.introduction
      rw [hsame.1, hsame.2]
    exact .singleton (List.mem_of_find?_eq_some hfirst) (congrArg some hintro) rfl rfl

theorem Placed.citesEarlier_nameFindings (earlier : List Placed) {p : Placed} {kind : SchemaKind}
    {m : Model} (hp : p.schema? = some (kind, m)) :
    CitesEarlier .schema introduction? earlier p (nameFindings earlier kind m) := by
  unfold nameFindings
  split
  · exact .of_uncited .nil
  · next other first hfirst =>
    obtain ⟨q, hq, hschema⟩ := List.mem_filterMap.1 (List.mem_of_find?_eq_some hfirst)
    have hname : first.name = m.name := by simpa using List.find?_some hfirst
    have hfirst : q.introduction? = some ⟨.schema m.name, first.pos⟩ := by
      unfold introduction?
      rw [hschema, ← hname]
      rfl
    have hitem : p.introduction? = some ⟨.schema m.name, m.pos⟩ := congrArg (Option.map _) hp
    exact .singleton hq hfirst rfl hitem

theorem Placed.citesEarlier_findings (earlier : List Placed) (p : Placed) :
    CitesEarlier .schema introduction? earlier p (p.findings earlier) := by
  unfold findings
  split
  · next hp =>
    exact (citesEarlier_nameFindings earlier hp).append (.of_uncited (Model.uncited_modelFindings _))
  · next hp =>
    exact (citesEarlier_nameFindings earlier hp).append
      (.of_uncited (Model.uncited_collectionFindings _))
  all_goals exact .of_uncited (.singleton (by rfl) _)

theorem Program.citesIn_configFindings (p : Program) :
    CitesIn .schema (p.configs.map Config.introduction) p.configFindings := by
  unfold configFindings
  split
  · exact .of_uncited .nil
  · next first rest hconfigs =>
    rw [hconfigs]
    refine .append (.of_uncited first.uncited_settingFindings) fun x hx => ?_
    obtain ⟨c, hc, rfl⟩ := List.mem_map.1 hx
    rintro _ ⟨⟩
    exact (List.singleton_sublist.2 (List.mem_map_of_mem (f := Config.introduction) hc)).cons_cons _

theorem Program.citesIn_schemaFindings (p : Program) :
    CitesIn .schema p.introducedSchemas p.schemaFindings := by
  have hplaced := CitesIn.eachAfter Placed.citesEarlier_findings [] p.placed
  refine .append (.append ?_ (.of_uncited p.uncited_engineFindings)) ?_
  · exact p.citesIn_configFindings.mono (List.sublist_append_left _ _)
  · exact hplaced.mono (List.sublist_append_right _ _)

theorem Endpoint.citesEarlier_findings (registry : Registry) (ds : Declarations)
    (earlier : List Endpoint) (e : Endpoint) :
    CitesEarlier .endpoint (some ∘ introduction) earlier e (findings registry ds earlier e) := by
  have hroute : CitesEarlier .endpoint (some ∘ introduction) earlier e (routeFindings earlier e) := by
    unfold routeFindings
    split
    · exact .of_uncited .nil
    · next first hfirst =>
      have hsame : first.route = e.route := by simpa using List.find?_some hfirst
      have hintro : first.introduction = ⟨.route e.route, first.pos⟩ := by
        unfold introduction
        rw [hsame]
      exact .singleton (List.mem_of_find?_eq_some hfirst) (congrArg some hintro) rfl rfl
  unfold findings
  refine .append (.append (.append (.append (.append (.append (.append (.append hroute
    (.of_uncited e.uncited_pathFindings)) (.of_uncited ?_)) (.of_uncited ?_))
    (.of_uncited e.uncited_handlerFindings)) (.of_uncited (e.uncited_roleFindings ds)))
    (.of_uncited e.uncited_requestFindings)) (.of_uncited e.uncited_responseFindings))
    (.of_uncited ?_)
  · exact .eachAfter (AnnotationSpec.uncited_findings registry.annotations) _ _
  · exact .eachAfter (e.uncited_middlewareFindings _) _ _
  · exact .flatMap (LogicStep.uncited_findings registry.actions) _

theorem Program.citesIn_endpointFindings (p : Program) (registry : Registry) :
    CitesIn .endpoint (p.endpoints.map Endpoint.introduction) (p.endpointFindings registry) := by
  rw [← List.filterMap_eq_map]
  exact CitesIn.eachAfter (Endpoint.citesEarlier_findings registry p.declarations) [] p.endpoints

theorem Flow.citesIn_findings (kind : FlowKind) (x : Flow) :
    CitesIn .flow (x.introduced kind) (x.findings kind) := by
  have hnames : CitesIn .flow (x.introduced kind)
      (eachAfter (nameFindings ⟨kind, x.name⟩) [] x.stepNames) := by
    unfold introduced
    rw [← List.filterMap_eq_map]
    refine CitesIn.eachAfter (fun earlier s => ?_) [] x.stepNames
    unfold nameFindings
    split
    · exact .of_uncited .nil
    · next first hfirst =>
      have hsame : first.name = s.name := by simpa using List.find?_some hfirst
      have hintro : first.introduction ⟨kind, x.name⟩ = ⟨.step ⟨kind, x.name⟩ s.name, first.pos⟩ := by
        unfold StepName.introduction
        rw [hsame]
      exact .singleton (List.mem_of_find?_eq_some hfirst) (congrArg some hintro) rfl rfl
  refine .append (.append (.append (.append (.of_uncited ?_)
    (.of_uncited (uncited_durationFindings _ _ _))) (.of_uncited (RetryPolicy.uncited_findings? _)))
    hnames) (.of_uncited (Step.uncited_findingsAll _ _ _))
  split
  · exact .nil
  · exact Trigger.uncited_findings _ _

theorem Job.citesIn_findings (j : Job) : CitesIn .flow (j.flow.introduced .job) j.findings := by
  refine .append (.append (.of_uncited (.demand (by rfl) _ _)) (j.flow.citesIn_findings .job))
    (.of_uncited ?_)
  split
  · exact .nil
  · exact .demand (by rfl) _ _

theorem Program.citesIn_flowFindings (p : Program) : CitesIn .flow p.introducedSteps p.flowFindings :=
  .append
    ((CitesIn.flatMap (Flow.citesIn_findings .workflow) p.workflows).mono
      (List.sublist_append_left _ _))
    ((CitesIn.flatMap Job.citesIn_findings p.jobs).mono (List.sublist_append_right _ _))

/-! ## All findings -/

section Reported

variable {f : Position → Position}

/-- Where a pass commutes with `relocate` and the program stays as it is, so do its findings. -/
theorem CitesIn.reported {α : Type} {wrap : α → Problem} {inner : α → α} {ds : List Introduction}
    {xs : List (Finding α)} (h : CitesIn wrap ds xs)
    (hfixed : xs = xs.map (Finding.relocate f inner))
    (hwrap : ∀ problem d, (wrap problem).earlier? = some d →
      (wrap (inner problem)).earlier? = some ⟨d.subject, f d.pos⟩) :
    ∀ x ∈ xs.map (·.map wrap), Reported f ds x := by
  intro x hx
  obtain ⟨y, hy, rfl⟩ := List.mem_map.1 hx
  have hself : y.relocate f inner = y :=
    List.map_inj_left.1 (hfixed.symm.trans (List.map_id xs).symm) y hy
  refine ⟨congrArg Finding.pos hself, fun d hd => ⟨?_, h y hy d hd⟩⟩
  have hinner : inner y.problem = y.problem := congrArg Finding.problem hself
  have hmoved := hwrap y.problem d hd
  rw [hinner, show (wrap y.problem).earlier? = some d from hd] at hmoved
  exact (congrArg Introduction.pos (Option.some.inj hmoved)).symm

/-- Every finding is reported at a position of the program and cites what a pass processes before:
where `f` leaves the statements as they are, it leaves both positions in place. -/
theorem Program.reported_findings {p : Program} (hp : ∀ s ∈ p.statements, s.relocate f = s)
    (registry : Registry) : ∀ x ∈ p.findings registry, Reported f p.introduced x := by
  have hsame : p.relocate f = ⟨f p.pos, p.statements⟩ := by
    unfold relocate
    rw [List.map_congr_left hp, List.map_id']
  have hduplicates := p.duplicateNames_relocate f
  have hschemas := p.schemaFindings_relocate f
  have hendpoints := p.endpointFindings_relocate f registry
  have hflows := p.flowFindings_relocate f
  have hwiring := p.wiringFindings_relocate f
  rw [hsame] at hduplicates hschemas hendpoints hflows hwiring
  intro x hx
  unfold introduced
  unfold findings at hx
  simp only [List.mem_append] at hx
  rcases hx with ((((hx | hx) | hx) | hx) | hx) | hx
  · have h := p.citesIn_duplicateNames.reported hduplicates (by rintro _ _ ⟨⟩; rfl) x hx
    exact (((h.append_right _).append_right _).append_right _).append_right _
  · obtain ⟨y, hy, rfl⟩ := List.mem_map.1 hx
    have h := reported_scopeFindings hp y hy
    exact (((h.append_left _).append_right _).append_right _).append_right _
  · have h := p.citesIn_schemaFindings.reported hschemas
      (by rintro (_ | _) _ ⟨⟩ <;> rfl) x hx
    exact ((h.append_left _).append_right _).append_right _
  · have h := (p.citesIn_endpointFindings registry).reported hendpoints
      (by rintro (_ | _) _ ⟨⟩; rfl) x hx
    exact (h.append_left _).append_right _
  · have h := p.citesIn_flowFindings.reported hflows (by rintro (_ | _) _ ⟨⟩; rfl) x hx
    exact h.append_left _
  · have h : CitesIn .wiring [] p.wiringFindings := .of_uncited fun _ _ => rfl
    exact (h.reported hwiring (by rintro _ _ ⟨⟩) x hx).mono (List.nil_sublist _)

end Reported

end ServiceLang
