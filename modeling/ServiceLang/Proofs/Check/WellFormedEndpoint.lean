import ServiceLang.Check.Endpoint
import ServiceLang.Proofs.Check.Distinct
import ServiceLang.Proofs.Format.Name

/-!
What the endpoint pass accepts.

The pass says no more of an annotation or a middleware name that is there already, and no
more of a step whose action is not even an identifier.  A set of endpoints is well formed
(`Program.EndpointsFit`) if every part of every endpoint is, whatever else is wrong, and if
routes, annotation names, middleware names and path parameters are distinct.  The pass
finds nothing exactly in the well-formed sets (`Program.endpointFindings_eq_nil_iff`).
-/

namespace ServiceLang

/-! ## Declared names -/

/-- A statement of the program declares the name (`Program.declares_iff` lists the forms). -/
def Program.Declares (p : Program) (kind : DeclaredKind) (name : String) : Prop :=
  ∃ s ∈ p.statements, ∃ pos, s.declared? = some ⟨kind, name, pos⟩

theorem Stmt.declared?_eq_some_iff (s : Stmt) (d : Declared) :
    s.declared? = some d ↔
      match d.kind with
      | .role => ∃ r, s = .role r ∧ r.name = d.name ∧ r.pos = d.pos
      | .middleware => ∃ m, s = .middleware m ∧ m.name = d.name ∧ m.pos = d.pos
      | .event => ∃ e, s = .event e ∧ e.name = d.name ∧ e.pos = d.pos
      | .workflow => ∃ f, s = .workflow f ∧ f.name = d.name ∧ f.pos = d.pos
      | .job => ∃ j, s = .job j ∧ j.flow.name = d.name ∧ j.flow.pos = d.pos
      | .integration => ∃ i, s = .integration i ∧ i.name = d.name ∧ i.pos = d.pos
      | .webhook => ∃ w, s = .webhook w ∧ w.name = d.name ∧ w.pos = d.pos := by
  obtain ⟨kind, name, pos⟩ := d
  cases s <;> cases kind <;> simp [declared?]

/-- A name is declared if a statement of the form that belongs to its kind has that name. -/
theorem Program.declares_iff (p : Program) (kind : DeclaredKind) (name : String) :
    p.Declares kind name ↔
      match kind with
      | .role => ∃ r, .role r ∈ p.statements ∧ r.name = name
      | .middleware => ∃ m, .middleware m ∈ p.statements ∧ m.name = name
      | .event => ∃ e, .event e ∈ p.statements ∧ e.name = name
      | .workflow => ∃ f, .workflow f ∈ p.statements ∧ f.name = name
      | .job => ∃ j, .job j ∈ p.statements ∧ j.flow.name = name
      | .integration => ∃ i, .integration i ∈ p.statements ∧ i.name = name
      | .webhook => ∃ w, .webhook w ∈ p.statements ∧ w.name = name := by
  have stands {α : Type} (form : α → Stmt) (called : α → String) (placed : α → Position) :
      (∃ s ∈ p.statements, ∃ pos, ∃ a, s = form a ∧ called a = name ∧ placed a = pos) ↔
        ∃ a, form a ∈ p.statements ∧ called a = name := by
    constructor
    · rintro ⟨_, hs, _, a, rfl, ha, -⟩
      exact ⟨a, hs, ha⟩
    · rintro ⟨a, hs, ha⟩
      exact ⟨_, hs, _, a, rfl, ha, rfl⟩
  unfold Declares
  simp only [Stmt.declared?_eq_some_iff]
  cases kind <;> exact stands _ _ _

namespace Declarations

/-- The index has an entry for the name. -/
def Has (ds : Declarations) (kind : DeclaredKind) (name : String) : Prop :=
  ∃ d ∈ ds.entries, d.kind = kind ∧ d.name = name

theorem has_iff (ds : Declarations) (kind : DeclaredKind) (name : String) :
    ds.has kind name = true ↔ ds.Has kind name := by
  simp [has, find?, Has, List.find?_isSome]

/-- The index has a name more, even if the name was taken. -/
theorem has_add_iff (ds : Declarations) (d : Declared) (kind : DeclaredKind) (name : String) :
    (ds.add d).Has kind name ↔ ds.Has kind name ∨ (d.kind = kind ∧ d.name = name) := by
  unfold add
  split
  · next h =>
    rw [has_iff] at h
    refine ⟨.inl, ?_⟩
    rintro (h' | ⟨rfl, rfl⟩)
    · exact h'
    · exact h
  · simp [Has, or_and_right, exists_or]

theorem has_foldl_add_iff (declared : List Declared) (ds : Declarations) (kind : DeclaredKind)
    (name : String) :
    (declared.foldl add ds).Has kind name ↔
      ds.Has kind name ∨ ∃ d ∈ declared, d.kind = kind ∧ d.name = name := by
  induction declared generalizing ds with
  | nil => simp
  | cons d declared ih =>
    rw [List.foldl_cons, ih, has_add_iff, or_assoc]
    simp

end Declarations

/-- The index of a program has the names that its statements declare. -/
theorem Program.has_declarations_iff (p : Program) (kind : DeclaredKind) (name : String) :
    p.declarations.Has kind name ↔ p.Declares kind name := by
  unfold declarations
  rw [Declarations.has_foldl_add_iff]
  simp only [Declarations.Has, Declarations.empty, List.not_mem_nil, false_and, exists_false,
    false_or, declared, List.mem_filterMap, Declares]
  constructor
  · rintro ⟨⟨_, _, pos⟩, ⟨s, hs, hdeclared⟩, rfl, rfl⟩
    exact ⟨s, hs, pos, hdeclared⟩
  · rintro ⟨s, hs, pos, hdeclared⟩
    exact ⟨_, ⟨s, hs, hdeclared⟩, rfl, rfl⟩

/-! ## Well-formed endpoints -/

/-- The name is in the list, if there is one. -/
def Registry.Knows (names : Option (List String)) (name : String) : Prop :=
  ∀ known ∈ names, name ∈ known

theorem Registry.allows_iff (names : Option (List String)) (name : String) :
    allows names name = true ↔ Knows names name := by
  cases names <;> simp [allows, Knows]

/-- The annotation is known, and has the value that its name asks for. -/
structure AnnotationSpec.Fits (registry : Registry) (a : AnnotationSpec) : Prop where
  known : Registry.Knows registry.annotations a.name
  auth : a.name = "auth" → ∃ value ∈ a.value, value ≠ ""
  rateLimit : a.name = "rate_limit" → ∃ value ∈ a.value, Numeric value.toList
  version : a.name = "version" → ∃ value ∈ a.value, Version value.toList

/-- A word of a step: quoted, a dotted path of identifiers, or numeric. -/
def StepArg.Fits (a : StepArg) : Prop :=
  a.quoted = true ∨ Text.Joined '.' Word a.value.toList ∨ Numeric a.value.toList

/-- The action of a step is an identifier, and known; its words and options have their forms. -/
structure LogicStep.Fits (registry : Registry) (s : LogicStep) : Prop where
  action : Word s.action.toList
  known : Registry.Knows registry.actions s.action
  target : ∀ target ∈ s.target, target.Fits
  args : ∀ arg ∈ s.args, arg.Fits
  options : ∀ o ∈ s.options, Word o.key.toList ∧ o.value.Fits

/-- An endpoint of the program that is well formed on its own. -/
structure Endpoint.Fits (p : Program) (registry : Registry) (e : Endpoint) : Prop where
  rooted : ∃ rest, e.path.toList = '/' :: rest
  noEmptySegment : ¬['/', '/'] <:+: e.path.toList
  params : (pathParams e.path).Nodup
  annotationNames : (e.annotations.map AnnotationSpec.name).Nodup
  annotations : ∀ a ∈ e.annotations, a.Fits registry
  middlewareNames : e.middleware.Nodup
  middleware : ∀ known ∈ registry.middleware, ∀ name ∈ e.middleware,
    name ∈ known ∨ p.Declares .middleware name
  handler : ∀ handler ∈ e.handler, Word handler.toList
  role : ∀ role ∈ e.role, (∃ declared, p.Declares .role declared) → p.Declares .role role
  request : ∀ r ∈ e.request, isPascalCase r.typeName = true ∧
    (r.source = some .body → e.method ≠ .get ∧ e.method ≠ .delete)
  response : ∀ r ∈ e.response, isPascalCase r.typeName = true ∧ 100 ≤ r.status ∧ r.status ≤ 599
  logic : ∀ s ∈ e.logic, s.Fits registry

/-- The endpoints of a program are well formed, and so is their set. -/
structure Program.EndpointsFit (p : Program) (registry : Registry) : Prop where
  routes : (p.endpoints.map fun e => (e.method, e.path)).Nodup
  endpoints : ∀ e ∈ p.endpoints, e.Fits p registry

/-! ## Parts of endpoints -/

theorem AnnotationSpec.valueFindings_eq_nil_iff (a : AnnotationSpec) :
    a.valueFindings = [] ↔ (a.name = "auth" → ∃ value ∈ a.value, value ≠ "") ∧
      (a.name = "rate_limit" → ∃ value ∈ a.value, Numeric value.toList) ∧
      (a.name = "version" → ∃ value ∈ a.value, Version value.toList) := by
  simp only [← isNumeric_iff, ← isVersion_iff]
  unfold valueFindings
  split <;> simp_all [Option.any_eq_true]

theorem AnnotationSpec.findings_eq_nil_iff (registry : Registry) (earlier : List AnnotationSpec)
    (a : AnnotationSpec) :
    a.findings registry.annotations earlier = [] ↔
      a.name ∉ earlier.map AnnotationSpec.name ∧ a.Fits registry := by
  have htaken : earlier.any (·.name == a.name) = true ↔ a.name ∈ earlier.map AnnotationSpec.name := by
    simp
  unfold findings
  split
  · next h => simp [htaken.mp h]
  · next h =>
    rw [List.append_eq_nil_iff, demand_eq_nil_iff, Registry.allows_iff, valueFindings_eq_nil_iff,
      and_iff_right (mt htaken.mpr h)]
    exact ⟨fun ⟨hknown, hauth, hrate, hversion⟩ => ⟨hknown, hauth, hrate, hversion⟩,
      fun h => ⟨h.known, h.auth, h.rateLimit, h.version⟩⟩

theorem StepArg.isWord_iff (a : StepArg) : a.isWord = true ↔ a.Fits := by
  simp [isWord, Fits, isIdentifierPath_iff, isNumeric_iff, or_assoc]

theorem LogicStep.optionFindings_eq_nil_iff (s : LogicStep) (o : StepOption) :
    s.optionFindings o = [] ↔ Word o.key.toList ∧ o.value.Fits := by
  simp [optionFindings, isIdentifier_iff, StepArg.isWord_iff]

theorem LogicStep.findings_eq_nil_iff (registry : Registry) (s : LogicStep) :
    s.findings registry.actions = [] ↔ s.Fits registry := by
  unfold findings
  split
  · next h =>
    rw [Bool.not_eq_true', ← Bool.not_eq_true, isIdentifier_iff] at h
    simp only [List.cons_ne_nil, false_iff]
    exact fun hs => h hs.action
  · next h =>
    rw [Bool.not_eq_true, Bool.not_eq_false', isIdentifier_iff] at h
    simp only [List.append_eq_nil_iff, demand_eq_nil_iff, Registry.allows_iff,
      List.flatMap_eq_nil_iff, StepArg.isWord_iff, optionFindings_eq_nil_iff]
    constructor
    · rintro ⟨⟨⟨hknown, htarget⟩, hargs⟩, hoptions⟩
      refine ⟨h, hknown, fun target ht => ?_, hargs, hoptions⟩
      rw [Option.mem_def.mp ht] at htarget
      exact target.isWord_iff.mp ((demand_eq_nil_iff _ _ _).mp htarget)
    · intro hs
      refine ⟨⟨⟨hs.known, ?_⟩, hs.args⟩, hs.options⟩
      cases ht : s.target with
      | none => rfl
      | some target => exact (demand_eq_nil_iff _ _ _).mpr (target.isWord_iff.mpr (hs.target target ht))

theorem hasEmptySegment_iff (cs : List Char) : hasEmptySegment cs = true ↔ ['/', '/'] <:+: cs := by
  fun_induction hasEmptySegment cs with
  | case1 cs => simpa using (List.prefix_append ['/', '/'] cs).isInfix
  | case2 c cs hother ih =>
    rw [ih, List.infix_cons_iff, or_iff_right]
    rintro ⟨rest, heq⟩
    obtain ⟨rfl, rfl⟩ := List.cons.inj heq
    exact hother rest rfl rfl
  | case3 => simp

namespace Endpoint

variable (e : Endpoint)

theorem routeFindings_eq_nil_iff (earlier : List Endpoint) :
    e.routeFindings earlier = [] ↔
      (e.method, e.path) ∉ earlier.map fun e => (e.method, e.path) := by
  have hroute (b : Endpoint) : b.route = e.route ↔ (b.method, b.path) = (e.method, e.path) := by
    simp [route]
  unfold routeFindings
  cases hfind : earlier.find? (·.route == e.route) with
  | none =>
    have hnone := List.find?_eq_none.mp hfind
    simp only [beq_iff_eq, hroute] at hnone
    simp only [true_iff, List.mem_map, not_exists, not_and]
    exact hnone
  | some first =>
    have hfirst := List.find?_some hfind
    rw [beq_iff_eq, hroute] at hfirst
    simp only [List.cons_ne_nil, false_iff, not_not]
    exact List.mem_map.mpr ⟨first, List.mem_of_find?_eq_some hfind, hfirst⟩

theorem pathFindings_eq_nil_iff :
    e.pathFindings = [] ↔ (∃ rest, e.path.toList = '/' :: rest) ∧
      ¬['/', '/'] <:+: e.path.toList ∧ (pathParams e.path).Nodup := by
  have hrooted : e.path.toList.head? = some '/' ↔ ∃ rest, e.path.toList = '/' :: rest :=
    List.head?_eq_some_iff
  have hcheck (earlier : List String) (name : String) :
      demand (!earlier.contains name) e.pos (EndpointProblem.duplicateParam name e.path) = [] ↔
        id name ∉ earlier.map id := by simp
  have hparams := eachAfter_eq_nil_iff_nodup_map id hcheck (pathParams e.path)
  rw [List.map_id] at hparams
  unfold pathFindings
  rw [List.append_eq_nil_iff, List.append_eq_nil_iff, hparams, demand_eq_nil_iff, demand_eq_nil_iff,
    decide_eq_true_eq, hrooted, Bool.not_eq_true', ← Bool.not_eq_true, hasEmptySegment_iff, and_assoc]

theorem allows_knownMiddleware_iff (p : Program) (registry : Registry) (name : String) :
    Registry.allows (knownMiddleware registry p.declarations) name = true ↔
      ∀ known ∈ registry.middleware, name ∈ known ∨ p.Declares .middleware name := by
  rw [← p.has_declarations_iff]
  unfold knownMiddleware Declarations.Has
  cases registry.middleware with
  | none => simp [Registry.allows]
  | some names => simp [Registry.allows, or_comm, and_assoc]

theorem middlewareFindings_eq_nil_iff (p : Program) (registry : Registry) (earlier : List String)
    (name : String) :
    e.middlewareFindings (knownMiddleware registry p.declarations) earlier name = [] ↔
      name ∉ earlier ∧ ∀ known ∈ registry.middleware, name ∈ known ∨ p.Declares .middleware name := by
  unfold middlewareFindings
  split
  · next h => simp [List.contains_iff_mem.mp h]
  · next h =>
    rw [demand_eq_nil_iff, allows_knownMiddleware_iff, and_iff_right (mt List.contains_iff_mem.mpr h)]

theorem handlerFindings_eq_nil_iff :
    e.handlerFindings = [] ↔ ∀ handler ∈ e.handler, Word handler.toList := by
  unfold handlerFindings
  cases e.handler <;> simp [isIdentifier_iff]

theorem roleFindings_eq_nil_iff (p : Program) :
    e.roleFindings p.declarations = [] ↔
      ∀ role ∈ e.role, (∃ declared, p.Declares .role declared) → p.Declares .role role := by
  have hany : p.declarations.hasAny .role = true ↔ ∃ declared, p.Declares .role declared := by
    simp [← p.has_declarations_iff, Declarations.hasAny, Declarations.Has]
  have hrole (role : String) : p.declarations.has .role role = true ↔ p.Declares .role role := by
    rw [Declarations.has_iff, p.has_declarations_iff]
  unfold roleFindings
  cases e.role with
  | none => simp
  | some role =>
    simp only [demand_eq_nil_iff, Bool.or_eq_true, Bool.not_eq_true', ← Bool.not_eq_true, hany, hrole,
      Option.mem_def, Option.some.injEq, forall_eq']
    exact imp_iff_not_or.symm

theorem hasNoBody_iff (method : HttpMethod) :
    hasNoBody method = true ↔ method = .get ∨ method = .delete := by
  simp [hasNoBody]

theorem requestFindings_eq_nil_iff :
    e.requestFindings = [] ↔ ∀ r ∈ e.request, isPascalCase r.typeName = true ∧
      (r.source = some .body → e.method ≠ .get ∧ e.method ≠ .delete) := by
  unfold requestFindings
  cases e.request with
  | none => simp
  | some r =>
    simp only [List.append_eq_nil_iff, demand_eq_nil_iff, Bool.or_eq_true, decide_eq_true_eq,
      Bool.not_eq_true', ← Bool.not_eq_true, hasNoBody_iff, not_or, Option.mem_def, Option.some.injEq,
      forall_eq']
    exact and_congr_right fun _ => imp_iff_not_or.symm

theorem responseFindings_eq_nil_iff :
    e.responseFindings = [] ↔ ∀ r ∈ e.response,
      isPascalCase r.typeName = true ∧ 100 ≤ r.status ∧ r.status ≤ 599 := by
  unfold responseFindings
  cases e.response <;> simp

/-- An endpoint passes if its route is free and it is well formed on its own. -/
theorem findings_eq_nil_iff (p : Program) (registry : Registry) (earlier : List Endpoint) :
    e.findings registry p.declarations earlier = [] ↔
      ((e.method, e.path) ∉ earlier.map fun e => (e.method, e.path)) ∧ e.Fits p registry := by
  have hannotations := eachAfter_eq_nil_iff_nodup AnnotationSpec.name _
    (AnnotationSpec.findings_eq_nil_iff registry) e.annotations
  have hmiddleware := eachAfter_eq_nil_iff_nodup id _
    (fun earlier name => (e.middlewareFindings_eq_nil_iff p registry earlier name).trans
      (by rw [List.map_id, id])) e.middleware
  rw [List.map_id] at hmiddleware
  unfold findings
  simp only [List.append_eq_nil_iff, List.flatMap_eq_nil_iff, routeFindings_eq_nil_iff,
    pathFindings_eq_nil_iff, hannotations, hmiddleware, handlerFindings_eq_nil_iff,
    roleFindings_eq_nil_iff, requestFindings_eq_nil_iff, responseFindings_eq_nil_iff,
    LogicStep.findings_eq_nil_iff]
  constructor
  · rintro ⟨⟨⟨⟨⟨⟨⟨⟨hroute, hpath⟩, hannotations⟩, hmiddleware⟩, hhandler⟩, hrole⟩, hrequest⟩,
      hresponse⟩, hlogic⟩
    exact ⟨hroute, {
      rooted := hpath.1
      noEmptySegment := hpath.2.1
      params := hpath.2.2
      annotationNames := hannotations.1
      annotations := hannotations.2
      middlewareNames := hmiddleware.1
      middleware := fun known hknown name hname => hmiddleware.2 name hname known hknown
      handler := hhandler
      role := hrole
      request := hrequest
      response := hresponse
      logic := hlogic }⟩
  · rintro ⟨hroute, h⟩
    exact ⟨⟨⟨⟨⟨⟨⟨⟨hroute, h.rooted, h.noEmptySegment, h.params⟩, h.annotationNames,
      h.annotations⟩, h.middlewareNames, fun name hname known hknown =>
      h.middleware known hknown name hname⟩, h.handler⟩, h.role⟩, h.request⟩, h.response⟩, h.logic⟩

end Endpoint

/-- The endpoint pass finds nothing exactly in the programs whose endpoints are well formed. -/
theorem Program.endpointFindings_eq_nil_iff (p : Program) (registry : Registry) :
    p.endpointFindings registry = [] ↔ p.EndpointsFit registry := by
  unfold endpointFindings
  rw [eachAfter_eq_nil_iff_nodup (fun e => (e.method, e.path)) _ fun earlier e =>
    e.findings_eq_nil_iff p registry earlier]
  exact ⟨fun ⟨hroutes, h⟩ => ⟨hroutes, h⟩, fun h => ⟨h.routes, h.endpoints⟩⟩

end ServiceLang
