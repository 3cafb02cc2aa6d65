import Mathlib.Data.List.Basic
import ServiceLang.Check.Program

/-!
The registry and the findings.

A registry decides which annotations, middleware and actions are known, and nothing
else.  Without its membership errors a report is the one that the unrestricted registry
gives, and a registry that knows more only takes errors away
(`Program.diagnostics_registry`).  Membership errors are told from all others by how their
messages begin; no other message begins like this, whatever names it cites.
-/

namespace ServiceLang

/-! ## Findings of two checks side by side -/

theorem eachAfter_sublist {α β : Type} {check check' : List α → α → List β}
    (h : ∀ earlier a, (check' earlier a).Sublist (check earlier a)) (earlier as : List α) :
    (eachAfter check' earlier as).Sublist (eachAfter check earlier as) := by
  induction as generalizing earlier with
  | nil => exact .slnil
  | cons a as ih => exact (h earlier a).append (ih _)

theorem flatMap_sublist {α β : Type} {check check' : α → List β}
    (h : ∀ a, (check' a).Sublist (check a)) (as : List α) :
    (as.flatMap check').Sublist (as.flatMap check) := by
  induction as with
  | nil => exact .slnil
  | cons a as ih =>
    rw [List.flatMap_cons, List.flatMap_cons]
    exact (h a).append ih

theorem demand_sublist {α : Type} {holds holds' : Bool} (h : holds = true → holds' = true)
    (pos : Position) (problem : α) :
    (demand holds' pos problem).Sublist (demand holds pos problem) := by
  cases holds with
  | true =>
    rw [h rfl]
  | false =>
    cases holds'
    · exact .refl _
    · exact List.nil_sublist _

theorem filter_eachAfter {α β : Type} {keep : β → Bool} {check check' : List α → α → List β}
    (h : ∀ earlier a, (check earlier a).filter keep = check' earlier a) (earlier as : List α) :
    (eachAfter check earlier as).filter keep = eachAfter check' earlier as := by
  induction as generalizing earlier with
  | nil => rfl
  | cons a as ih => rw [eachAfter, eachAfter, List.filter_append, h, ih]

/-- All findings are of problems with this property. -/
def EveryProblem {α : Type} (P : α → Prop) (xs : List (Finding α)) : Prop := ∀ x ∈ xs, P x.problem

namespace EveryProblem

variable {α β : Type} {P : α → Prop} {xs ys : List (Finding α)} {problem : α}

theorem nil : EveryProblem P [] := fun _ hx => absurd hx List.not_mem_nil

theorem singleton (h : P problem) (pos : Position) : EveryProblem P [⟨pos, problem⟩] := by
  intro x hx
  obtain rfl := List.mem_singleton.mp hx
  exact h

theorem demand (h : P problem) (holds : Bool) (pos : Position) :
    EveryProblem P (demand holds pos problem) := by
  cases holds with
  | true => exact .nil
  | false => exact .singleton h pos

theorem append (hx : EveryProblem P xs) (hy : EveryProblem P ys) : EveryProblem P (xs ++ ys) :=
  List.forall_mem_append.mpr ⟨hx, hy⟩

theorem flatMap {check : β → List (Finding α)} (h : ∀ b, EveryProblem P (check b)) (bs : List β) :
    EveryProblem P (bs.flatMap check) := by
  intro x hx
  obtain ⟨b, -, hx⟩ := List.mem_flatMap.mp hx
  exact h b x hx

theorem eachAfter {check : List β → β → List (Finding α)}
    (h : ∀ earlier b, EveryProblem P (check earlier b)) (earlier bs : List β) :
    EveryProblem P (eachAfter check earlier bs) := by
  induction bs generalizing earlier with
  | nil => exact .nil
  | cons b bs ih => exact (h earlier b).append (ih _)

end EveryProblem

/-! ## Registries that know more -/

/-- Every name that the first list allows is allowed by the second, which is missing if
the first is. -/
def Widens (known known' : Option (List String)) : Prop :=
  ∀ names' ∈ known', ∃ names ∈ known, names ⊆ names'

namespace Widens

variable {known known' : Option (List String)}

theorem allows (h : Widens known known') {name : String} (ha : Registry.allows known name = true) :
    Registry.allows known' name = true := by
  cases known' with
  | none => rfl
  | some names' =>
    obtain ⟨names, rfl, hsub⟩ := h names' rfl
    simp only [Registry.allows, List.contains_iff_mem] at ha ⊢
    exact hsub ha

theorem map_append (h : Widens known known') (declared : List String) :
    Widens (known.map (declared ++ ·)) (known'.map (declared ++ ·)) := by
  intro _ hmem
  obtain ⟨names', hn, rfl⟩ := Option.map_eq_some_iff.mp hmem
  obtain ⟨names, hk, hsub⟩ := h names' hn
  refine ⟨declared ++ names, Option.map_eq_some_iff.mpr ⟨names, hk, rfl⟩, ?_⟩
  exact List.append_subset.mpr
    ⟨List.subset_append_left _ _, fun _ hn => List.mem_append_right _ (hsub hn)⟩

end Widens

/-- The second registry has no list that the first has not, and each of its lists has all
names of the list of the first. -/
structure Registry.Extends (r r' : Registry) : Prop where
  middleware : Widens r.middleware r'.middleware
  annotations : Widens r.annotations r'.annotations
  actions : Widens r.actions r'.actions

section Extends

variable {known known' : Option (List String)} {r r' : Registry}

theorem AnnotationSpec.findings_sublist (h : Widens known known') (earlier : List AnnotationSpec)
    (a : AnnotationSpec) : (a.findings known' earlier).Sublist (a.findings known earlier) := by
  unfold findings
  split
  · exact .refl _
  · exact (demand_sublist h.allows _ _).append (.refl _)

theorem LogicStep.findings_sublist (h : Widens known known') (s : LogicStep) :
    (s.findings known').Sublist (s.findings known) := by
  unfold findings
  split
  · exact .refl _
  · refine .append (.append (.append ?_ (.refl _)) (.refl _)) (.refl _)
    exact demand_sublist h.allows _ _

theorem Endpoint.middlewareFindings_sublist (h : Widens known known') (e : Endpoint)
    (earlier : List String) (name : String) :
    (e.middlewareFindings known' earlier name).Sublist (e.middlewareFindings known earlier name) := by
  unfold middlewareFindings
  split
  · exact .refl _
  · exact demand_sublist h.allows _ _

theorem Endpoint.findings_sublist (h : r.Extends r') (ds : Declarations) (earlier : List Endpoint)
    (e : Endpoint) : (e.findings r' ds earlier).Sublist (e.findings r ds earlier) := by
  have hknown : Widens (knownMiddleware r ds) (knownMiddleware r' ds) := h.middleware.map_append _
  have hannotations := eachAfter_sublist (AnnotationSpec.findings_sublist h.annotations) []
    e.annotations
  have hmiddleware := eachAfter_sublist (e.middlewareFindings_sublist hknown) [] e.middleware
  have hlogic := flatMap_sublist (LogicStep.findings_sublist h.actions) e.logic
  unfold findings
  refine .append (.append (.append (.append (.append ?_ (.refl _)) (.refl _)) (.refl _)) (.refl _))
    hlogic
  exact ((List.Sublist.refl _).append hannotations).append hmiddleware

/-- A registry that knows more only takes findings away. -/
theorem Program.findings_sublist_of_extends (h : r.Extends r') (p : Program) :
    (p.findings r').Sublist (p.findings r) := by
  have hendpoint : (p.endpointFindings r').Sublist (p.endpointFindings r) :=
    eachAfter_sublist (Endpoint.findings_sublist h p.declarations) [] p.endpoints
  unfold findings
  exact ((((List.Sublist.refl _).append (hendpoint.map _)).append (.refl _)).append (.refl _))

end Extends

/-! ## Findings that no registry changes -/

/-- No finding depends on the registry. -/
abbrev Unlisted (xs : EndpointFindings) : Prop := EveryProblem (·.isMembership = false) xs

theorem EveryProblem.filter_eq {xs : EndpointFindings} (h : Unlisted xs) :
    xs.filter (!·.problem.isMembership) = xs :=
  List.filter_eq_self.mpr fun x hx => by rw [h x hx, Bool.not_false]

theorem AnnotationSpec.unlisted_valueFindings (a : AnnotationSpec) : Unlisted a.valueFindings := by
  unfold valueFindings
  split
  case h_4 => exact .nil
  all_goals exact .demand (by rfl) _ _

theorem LogicStep.unlisted_optionFindings (s : LogicStep) (o : StepOption) :
    Unlisted (s.optionFindings o) :=
  (EveryProblem.demand (by rfl) _ _).append (.demand (by rfl) _ _)

namespace Endpoint

variable (e : Endpoint)

theorem unlisted_routeFindings (earlier : List Endpoint) : Unlisted (e.routeFindings earlier) := by
  unfold routeFindings
  split
  · exact .nil
  · exact .singleton (by rfl) _

theorem unlisted_pathFindings : Unlisted e.pathFindings := by
  refine .append (.append (.demand (by rfl) _ _) (.demand (by rfl) _ _)) ?_
  exact .eachAfter (fun _ _ => .demand (by rfl) _ _) _ _

theorem unlisted_handlerFindings : Unlisted e.handlerFindings := by
  unfold handlerFindings
  split
  · exact .nil
  · exact .demand (by rfl) _ _

theorem unlisted_roleFindings (ds : Declarations) : Unlisted (e.roleFindings ds) := by
  unfold roleFindings
  split
  · exact .nil
  · exact .demand (by rfl) _ _

theorem unlisted_requestFindings : Unlisted e.requestFindings := by
  unfold requestFindings
  split
  · exact .nil
  · exact (EveryProblem.demand (by rfl) _ _).append (.demand (by rfl) _ _)

theorem unlisted_responseFindings : Unlisted e.responseFindings := by
  unfold responseFindings
  split
  · exact .nil
  · exact (EveryProblem.demand (by rfl) _ _).append (.demand (by rfl) _ _)

end Endpoint

/-! ## Reports without membership errors -/

/-- A name that is not allowed is a membership error, and without a list every name is
allowed. -/
theorem filter_demand_allows (known : Option (List String)) (name : String) (pos : Position)
    {problem : EndpointProblem} (h : problem.isMembership = true) :
    (demand (Registry.allows known name) pos problem).filter (!·.problem.isMembership) =
      demand (Registry.allows none name) pos problem := by
  have hnone : demand (Registry.allows none name) pos problem = [] := rfl
  rw [hnone, List.filter_eq_nil_iff]
  intro x hx
  simp [EveryProblem.demand (P := (·.isMembership = true)) h _ _ x hx]

theorem AnnotationSpec.filter_findings (known : Option (List String))
    (earlier : List AnnotationSpec) (a : AnnotationSpec) :
    (a.findings known earlier).filter (!·.problem.isMembership) = a.findings none earlier := by
  unfold findings
  split
  · rfl
  · rw [List.filter_append, filter_demand_allows _ _ _ rfl, a.unlisted_valueFindings.filter_eq]

theorem LogicStep.filter_findings (known : Option (List String)) (s : LogicStep) :
    (s.findings known).filter (!·.problem.isMembership) = s.findings none := by
  have hargs : Unlisted
      (s.args.flatMap fun arg => demand arg.isWord s.pos (.invalidArgument arg s.action)) :=
    .flatMap (fun _ => .demand (by rfl) _ _) _
  have hoptions : Unlisted (s.options.flatMap s.optionFindings) :=
    .flatMap s.unlisted_optionFindings _
  unfold findings
  split
  · rfl
  · simp only [List.filter_append]
    rw [filter_demand_allows _ _ _ rfl, hargs.filter_eq, hoptions.filter_eq]
    congr 3
    cases s.target with
    | none => rfl
    | some target => exact (EveryProblem.demand (by rfl) _ _).filter_eq

namespace Endpoint

theorem filter_middlewareFindings (known : Option (List String)) (e : Endpoint)
    (earlier : List String) (name : String) :
    (e.middlewareFindings known earlier name).filter (!·.problem.isMembership) =
      e.middlewareFindings none earlier name := by
  unfold middlewareFindings
  split
  · rfl
  · exact filter_demand_allows _ _ _ rfl

theorem filter_findings (r : Registry) (ds : Declarations) (earlier : List Endpoint)
    (e : Endpoint) :
    (e.findings r ds earlier).filter (!·.problem.isMembership) =
      e.findings .unrestricted ds earlier := by
  unfold findings
  simp only [List.filter_append]
  rw [(e.unlisted_routeFindings earlier).filter_eq, e.unlisted_pathFindings.filter_eq,
    filter_eachAfter (AnnotationSpec.filter_findings r.annotations),
    filter_eachAfter (e.filter_middlewareFindings (knownMiddleware r ds)),
    e.unlisted_handlerFindings.filter_eq, (e.unlisted_roleFindings ds).filter_eq,
    e.unlisted_requestFindings.filter_eq, e.unlisted_responseFindings.filter_eq,
    List.filter_flatMap]
  simp only [LogicStep.filter_findings]
  rfl

end Endpoint

/-- Without the problems that depend on the registry, a program has the findings that it
has when every name is allowed. -/
theorem Program.filter_findings_isMembership (r : Registry) (p : Program) :
    (p.findings r).filter (!·.problem.isMembership) = p.findings .unrestricted := by
  have hother {α : Type} (xs : List (Finding α)) {f : α → Problem}
      (hf : ∀ problem, (f problem).isMembership = false) :
      (xs.map (·.map f)).filter (!·.problem.isMembership) = xs.map (·.map f) := by
    rw [List.filter_eq_self]
    intro x hx
    obtain ⟨x, -, rfl⟩ := List.mem_map.mp hx
    exact congrArg not (hf x.problem)
  have hendpoint : ((p.endpointFindings r).map (·.map Problem.endpoint)).filter
      (!·.problem.isMembership) =
      (p.endpointFindings .unrestricted).map (·.map Problem.endpoint) := by
    rw [List.filter_map]
    exact congrArg (List.map _)
      (filter_eachAfter (Endpoint.filter_findings r p.declarations) [] p.endpoints)
  unfold findings
  simp only [List.filter_append]
  rw [hendpoint, hother _ fun _ => rfl, hother _ fun _ => rfl, hother _ fun _ => rfl,
    hother _ fun _ => rfl, hother _ fun _ => rfl]

/-! ## How membership errors are worded -/

/-- How the messages of membership errors begin. -/
def membershipMarks : List String :=
  ["unknown annotation @", "unknown middleware '", "unknown logic action '"]

/-- A diagnostic is a membership error if its message begins like one. -/
def Diagnostic.isMembership (d : Diagnostic) : Bool :=
  membershipMarks.any fun mark => mark.toList.isPrefixOf d.message.toList

/-- The text leaves each mark before either of them ends, so that however it goes on, it
does not begin with a mark. -/
def PartsFrom (marks : List String) (text : String) : Prop :=
  ∀ mark ∈ marks, ¬mark.toList <+: text.toList ∧ ¬text.toList <+: mark.toList

/-- Texts that are written out part from three marks if their characters do. -/
theorem partsFrom_ofList {a b c text : List Char}
    (h : [a, b, c].all fun mark => !mark.isPrefixOf text && !text.isPrefixOf mark) :
    PartsFrom [.ofList a, .ofList b, .ofList c] (.ofList text) := by
  simpa [PartsFrom, ← List.isPrefixOf_iff_prefix] using h

namespace PartsFrom

variable {marks : List String}

theorem append {text : String} (h : PartsFrom marks text) (more : String) :
    PartsFrom marks (text ++ more) := by
  intro mark hm
  obtain ⟨hmark, htext⟩ := h mark hm
  rw [String.toList_append]
  refine ⟨fun hp => ?_, fun hp => htext ((List.prefix_append _ _).trans hp)⟩
  rcases List.prefix_or_prefix_of_prefix hp (List.prefix_append _ _) with hp | hp
  · exact hmark hp
  · exact htext hp

theorem isMembership_eq_false {pos : Position} {category : Category} {message : String}
    (h : PartsFrom membershipMarks message) : (Diagnostic.mk pos category message).isMembership = false := by
  simp only [Diagnostic.isMembership, List.any_eq_false, List.isPrefixOf_iff_prefix]
  exact fun mark hm => (h mark hm).1

end PartsFrom

theorem DuplicateName.partsFrom_marks (d : DuplicateName) :
    PartsFrom membershipMarks d.message := by
  dsimp only [message]
  simp only [String.append_assoc]
  exact (partsFrom_ofList (by decide)).append _

theorem ScopeProblem.partsFrom_marks (problem : ScopeProblem) :
    PartsFrom membershipMarks problem.message := by
  cases problem with
  | returnOutside => exact partsFrom_ofList (by decide)
  | notTopLevel kind => cases kind <;> exact (partsFrom_ofList (by decide)).append _
  | notFunction name =>
    dsimp only [message, cite]
    simp only [String.append_assoc]
    exact (partsFrom_ofList (by decide)).append _
  | undefinedVariable | undefinedFunction | assignedFunction | notIterable =>
    exact (partsFrom_ofList (by decide)).append _
  | _ =>
    dsimp only [message]
    simp only [String.append_assoc]
    exact (partsFrom_ofList (by decide)).append _

theorem SchemaProblem.partsFrom_marks (problem : SchemaProblem) :
    PartsFrom membershipMarks problem.message := by
  cases problem with
  | missingSetting => exact (partsFrom_ofList (by decide)).append _
  | misplaced schema engine =>
    obtain ⟨kind, name⟩ := schema
    cases kind
    all_goals
      dsimp only [message, SchemaRef.text, SchemaKind.text]
      simp only [String.append_assoc]
      exact (partsFrom_ofList (by decide)).append _
  | noDocumentBlock engine =>
    dsimp only [message]
    simp only [String.append_assoc]
    cases engine <;> exact (partsFrom_ofList (by decide)).append _
  | notSchema kind => cases kind <;> exact (partsFrom_ofList (by decide)).append _
  | _ =>
    dsimp only [message]
    simp only [String.append_assoc]
    exact (partsFrom_ofList (by decide)).append _

theorem FlowProblem.partsFrom_marks (problem : FlowProblem) :
    PartsFrom membershipMarks problem.message := by
  cases problem with
  | noTriggerValue kind flow =>
    dsimp only [message]
    simp only [String.append_assoc]
    cases kind <;> exact (partsFrom_ofList (by decide)).append _
  | negativeAttempts | negativeBackoff => exact (partsFrom_ofList (by decide)).append _
  | _ =>
    dsimp only [message]
    simp only [String.append_assoc]
    exact (partsFrom_ofList (by decide)).append _

/-- The message that begins with a kind of authentication names a known one. -/
def WiringProblem.NamesKnownKind : WiringProblem → Prop
  | missingAuthKey kind _ _ => kind ∈ authKeys.map Prod.fst
  | _ => True

theorem WiringProblem.partsFrom_marks {problem : WiringProblem} (h : problem.NamesKnownKind) :
    PartsFrom membershipMarks problem.message := by
  cases problem with
  | missingAuthKey kind integration key =>
    dsimp only [message]
    simp only [String.append_assoc]
    simp only [NamesKnownKind, authKeys, List.map_cons, List.map_nil, List.mem_cons,
      List.not_mem_nil, or_false] at h
    obtain rfl | rfl | rfl := h
    all_goals exact (partsFrom_ofList (by decide)).append _
  | undefinedEvent => exact (partsFrom_ofList (by decide)).append _
  | _ =>
    dsimp only [message]
    simp only [String.append_assoc]
    exact (partsFrom_ofList (by decide)).append _

theorem EndpointProblem.partsFrom_marks {problem : EndpointProblem}
    (h : problem.isMembership = false) : PartsFrom membershipMarks problem.message := by
  cases problem with
  | unknownAnnotationName | unknownMiddleware | unknownAction => cases h
  | noRequestBody method =>
    dsimp only [message]
    cases method <;> exact (partsFrom_ofList (by decide)).append _
  | emptyAuth => exact partsFrom_ofList (by decide)
  | duplicateAnnotationName | invalidAction => exact (partsFrom_ofList (by decide)).append _
  | _ =>
    dsimp only [message]
    simp only [String.append_assoc]
    exact (partsFrom_ofList (by decide)).append _

/-- Integrations are told which keys they lack of known kinds of authentication only. -/
theorem IntegrationAuth.namesKnownKind_findings (integration : String) (a : IntegrationAuth) :
    EveryProblem WiringProblem.NamesKnownKind (a.findings integration) := by
  unfold findings
  split
  case h_1 => exact .singleton trivial _
  case h_2 keys hkeys =>
    have hkind (key : String) :
        (WiringProblem.missingAuthKey a.kind integration key).NamesKnownKind := by
      obtain ⟨before, after, heq, -⟩ := List.lookup_eq_some_iff.mp hkeys
      rw [WiringProblem.NamesKnownKind, heq]
      simp
    exact .flatMap (fun key => .demand (hkind key) _ _) _

theorem CircuitBreaker.namesKnownKind_findings (integration : String) (b : CircuitBreaker) :
    EveryProblem WiringProblem.NamesKnownKind (b.findings integration) := by
  refine .append (.append (.demand trivial _ _) (.demand trivial _ _)) ?_
  split
  · exact .singleton trivial _
  · split
    · exact .nil
    · exact .singleton trivial _

theorem Integration.namesKnownKind_findings (i : Integration) :
    EveryProblem WiringProblem.NamesKnownKind i.findings := by
  have hurl : EveryProblem WiringProblem.NamesKnownKind i.urlFindings := by
    unfold urlFindings
    split
    · exact .singleton trivial _
    · split
      · exact .nil
      · exact .singleton trivial _
  refine .append (.append hurl ?_) ?_
  · split
    · exact .nil
    · exact IntegrationAuth.namesKnownKind_findings _ _
  · split
    · exact .nil
    · exact CircuitBreaker.namesKnownKind_findings _ _

theorem Webhook.namesKnownKind_findings (w : Webhook) :
    EveryProblem WiringProblem.NamesKnownKind w.findings := by
  refine .append ?_ (.flatMap (fun _ => .demand trivial _ _) _)
  unfold urlFindings
  split
  · exact .singleton trivial _
  · split
    · exact .nil
    · exact .singleton trivial _

theorem EventHandler.namesKnownKind_findings (ds : Declarations) (h : EventHandler) :
    EveryProblem WiringProblem.NamesKnownKind (h.findings ds) := by
  refine .append (.demand trivial _ _) ?_
  unfold actionFindings
  split
  case h_5 => exact .singleton trivial _
  all_goals exact .demand trivial _ _

theorem Stmt.namesKnownKind_wiringFindings (ds : Declarations) (s : Stmt) :
    EveryProblem WiringProblem.NamesKnownKind (s.wiringFindings ds) := by
  unfold wiringFindings
  split
  case h_1 e =>
    refine .append (.demand trivial _ _) (.eachAfter (fun earlier field => ?_) _ _)
    exact .append (.demand trivial _ _) (.demand trivial _ _)
  case h_2 h => exact h.namesKnownKind_findings ds
  case h_3 i => exact i.namesKnownKind_findings
  case h_4 w => exact w.namesKnownKind_findings
  case h_5 => exact .nil

theorem Diagnostic.isMembership_of_mem {mark : String} (h : mark ∈ membershipMarks)
    (pos : Position) (category : Category) (more : String) :
    (Diagnostic.mk pos category (mark ++ more)).isMembership = true := by
  refine List.any_eq_true.mpr ⟨mark, h, ?_⟩
  rw [String.toList_append, List.isPrefixOf_iff_prefix]
  exact List.prefix_append _ _

theorem EndpointProblem.exists_mark {problem : EndpointProblem}
    (h : problem.isMembership = true) :
    ∃ mark ∈ membershipMarks, ∃ more, problem.message = mark ++ more := by
  have hcite (before mark name : String) (hmark : before ++ "'" = mark) :
      before ++ cite name = mark ++ (name ++ "'") := by
    rw [cite, ← hmark]
    simp only [String.append_assoc]
  cases problem with
  | unknownAnnotationName name => exact ⟨"unknown annotation @", by simp [membershipMarks], name, rfl⟩
  | unknownMiddleware name =>
    exact ⟨"unknown middleware '", by simp [membershipMarks], _, hcite _ _ name (by decide)⟩
  | unknownAction name =>
    exact ⟨"unknown logic action '", by simp [membershipMarks], _, hcite _ _ name (by decide)⟩
  | _ => cases h

/-- Exactly the problems that depend on the registry are worded like membership errors. -/
theorem Program.isMembership_diagnostic {p : Program} {r : Registry} {x : Finding Problem}
    (h : x ∈ p.findings r) : x.diagnostic.isMembership = x.problem.isMembership := by
  obtain ⟨pos, problem⟩ := x
  cases problem with
  | duplicateName d => exact d.partsFrom_marks.isMembership_eq_false
  | scope problem => exact problem.partsFrom_marks.isMembership_eq_false
  | schema problem => exact problem.partsFrom_marks.isMembership_eq_false
  | flow problem => exact problem.partsFrom_marks.isMembership_eq_false
  | wiring problem =>
    have hmem : ⟨pos, problem⟩ ∈ p.wiringFindings := by
      obtain ⟨x, hx, hpos, hproblem⟩ :
          ∃ x ∈ p.wiringFindings, x.pos = pos ∧ x.problem = problem := by
        simpa [findings, Finding.map] using h
      rwa [← hpos, ← hproblem]
    have hkind : problem.NamesKnownKind :=
      EveryProblem.flatMap (Stmt.namesKnownKind_wiringFindings p.declarations) _ _ hmem
    exact (WiringProblem.partsFrom_marks hkind).isMembership_eq_false
  | endpoint problem =>
    change (Diagnostic.mk pos _ problem.message).isMembership = problem.isMembership
    cases hm : problem.isMembership with
    | false => exact (EndpointProblem.partsFrom_marks hm).isMembership_eq_false
    | true =>
      obtain ⟨mark, hmark, more, heq⟩ := EndpointProblem.exists_mark hm
      rw [heq]
      exact Diagnostic.isMembership_of_mem hmark pos _ more

/-! ## Reports under two registries -/

/-- Without its membership errors, the report under any registry is the report under the
unrestricted one, in the same order; and under a registry that knows more, some of the
diagnostics are missing and nothing else is changed. -/
theorem Program.diagnostics_registry (p : Program) (r : Registry) :
    (p.diagnostics r).filter (!·.isMembership) = p.diagnostics .unrestricted ∧
      ∀ r', r.Extends r' → (p.diagnostics r').Sublist (p.diagnostics r) := by
  constructor
  · unfold diagnostics
    rw [List.filter_map, ← p.filter_findings_isMembership r]
    congr 1
    refine List.filter_congr fun x hx => ?_
    rw [Function.comp_apply, isMembership_diagnostic hx]
  · intro r' h
    exact (p.findings_sublist_of_extends h).map _

/-- An endpoint with an annotation, a middleware and a step, and with a path that has to
start with a slash. -/
def guardedEndpoint : Endpoint :=
  ⟨⟨"", 1, 1, 0⟩, .get, "users", none, none, ["log"], none, [⟨⟨"", 2, 1, 9⟩, "cors", none⟩], none,
    none, [⟨⟨"", 3, 1, 20⟩, "fetch", none, [], []⟩]⟩

/-- A registry that comes to know the middleware and has no more list of actions. -/
theorem Program.diagnostics_registry_guardedEndpoint :
    let p : Program := ⟨⟨"", 1, 1, 0⟩, [.endpoint guardedEndpoint]⟩
    let r : Registry := ⟨some [], some [], some ["save"]⟩
    let r' : Registry := ⟨some ["log"], some [], none⟩
    ((p.diagnostics r).map (·.message) =
        ["path 'users' must start with '/'", "unknown annotation @cors",
          "unknown middleware 'log'", "unknown logic action 'fetch'"] ∧
      (p.diagnostics r').map (·.message) =
        ["path 'users' must start with '/'", "unknown annotation @cors"] ∧
      (p.diagnostics .unrestricted).map (·.message) = ["path 'users' must start with '/'"]) ∧
    r.Extends r' ∧
    (p.diagnostics r').Sublist (p.diagnostics r) := by
  intro p r r'
  have h : r.Extends r' :=
    ⟨fun _ _ => ⟨[], rfl, List.nil_subset _⟩, fun _ _ => ⟨[], rfl, List.nil_subset _⟩,
      fun _ h => nomatch h⟩
  exact ⟨by decide +kernel, h, (p.diagnostics_registry r).2 r' h⟩

end ServiceLang
