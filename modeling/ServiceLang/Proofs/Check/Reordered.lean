import Mathlib.Data.List.Nodup
import Mathlib.Data.List.Perm.Basic
import ServiceLang.Check.Program
import ServiceLang.Proofs.Check.LexicalScope

/-!
Findings of reordered programs.

Declarations may stand in any order.  If the names of a program are distinct, then a
reordering that keeps the order of its general statements has the same diagnostics, each
as often (`Program.diagnostics_perm`).  General statements see each other through the
frames of variables and functions, and no other statement reads or changes these.  All
other checks look back for repetitions only, and the names they look up are those of the
whole program.
-/

namespace ServiceLang

/-! ## Looking back for repetitions only -/

/-- Checks that find nothing else in view of unrelated items before them are made item by
item. -/
theorem eachAfter_eq_flatMap {α β : Type} {check : List α → α → List β} {apart : α → α → Prop}
    (alone : ∀ earlier a, (∀ b ∈ earlier, apart b a) → check earlier a = check [] a)
    {earlier as : List α} (hbefore : ∀ b ∈ earlier, ∀ a ∈ as, apart b a) (has : as.Pairwise apart) :
    eachAfter check earlier as = as.flatMap (check []) := by
  induction as generalizing earlier with
  | nil => rfl
  | cons a as ih =>
    obtain ⟨ha, has⟩ := List.pairwise_cons.mp has
    have hnext : ∀ b ∈ earlier ++ [a], ∀ x ∈ as, apart b x := by
      intro b hb x hx
      rcases List.mem_append.mp hb with hb | hb
      · exact hbefore b hb x (List.mem_cons_of_mem _ hx)
      · rw [List.mem_singleton.mp hb]
        exact ha x hx
    rw [eachAfter, List.flatMap_cons, ih hnext has,
      alone earlier a fun b hb => hbefore b hb a List.mem_cons_self]

/-- Distinct items are checked with the same outcomes in any order. -/
theorem eachAfter_perm {α β : Type} {check : List α → α → List β} {apart : α → α → Prop}
    (alone : ∀ earlier a, (∀ b ∈ earlier, apart b a) → check earlier a = check [] a)
    {as bs : List α} (has : as.Pairwise apart) (hbs : bs.Pairwise apart) (h : bs.Perm as) :
    (eachAfter check [] bs).Perm (eachAfter check [] as) := by
  have hnone (l : List α) : ∀ b ∈ ([] : List α), ∀ a ∈ l, apart b a :=
    fun _ hb => absurd hb List.not_mem_nil
  rw [eachAfter_eq_flatMap alone (hnone bs) hbs, eachAfter_eq_flatMap alone (hnone as) has]
  exact h.flatMap_right _

/-! ## General statements -/

/-- Statements that run in the order in which they stand. -/
def Stmt.isGeneral : Stmt → Bool
  | .varDecl _ _ _ | .assignment _ _ _ | .exprStmt _ _ | .ifStmt _ _ _ _ | .forLoop _ _ _ _
  | .function _ _ _ _ | .exec _ _ | .block _ | .returnStmt _ _ => true
  | _ => false

theorem Frames.isTop_declare (f : Frames) (symbol : Symbol) :
    (f.declare symbol).isTop = f.isTop := by
  unfold declare
  split <;> rfl

theorem Stmt.isTop_framesAfter (f : Frames) (s : Stmt) : (s.framesAfter f).isTop = f.isTop := by
  unfold framesAfter
  split
  case h_3 => rfl
  all_goals exact Frames.isTop_declare _ _

/-- Outside of all bodies, the other statements neither declare symbols nor use any. -/
theorem Stmt.lexical_of_not_isGeneral {f : Frames} (hf : f.isTop = true) {s : Stmt}
    (hs : s.isGeneral = false) : s.lexical f = [] ∧ s.framesAfter f = f := by
  cases s with
  | varDecl | assignment | exprStmt | ifStmt | forLoop | function | exec | block | returnStmt =>
    cases hs
  | _ => exact ⟨by simp only [lexical, demand_eq_nil_iff, hf], rfl⟩

theorem Stmt.lexicalAll_filter_isGeneral {f : Frames} (hf : f.isTop = true) (ss : List Stmt) :
    lexicalAll f (ss.filter isGeneral) = lexicalAll f ss := by
  induction ss generalizing f with
  | nil => rfl
  | cons s ss ih =>
    cases hs : s.isGeneral with
    | true =>
      rw [List.filter_cons_of_pos hs, lexicalAll, lexicalAll,
        ih ((s.isTop_framesAfter f).trans hf)]
    | false =>
      obtain ⟨hnone, hsame⟩ := lexical_of_not_isGeneral hf hs
      rw [List.filter_cons_of_neg (by simp [hs]), lexicalAll, hnone, hsame, List.nil_append, ih hf]

/-! ## Reorderings -/

def Stmt.schemaName? : Stmt → Option String
  | .model m | .collection m => some m.name
  | _ => none

namespace Program

/-- Names of declarations are distinct for each kind, models and collections together are
distinct over all database blocks, routes are distinct, and there is one configuration at
most. -/
structure HasDistinctNames (p : Program) : Prop where
  declared : (p.declared.map fun d => (d.kind, d.name)).Nodup
  schemas : (p.placed.filterMap (·.declaration.schemaName?)).Nodup
  routes : (p.endpoints.map Endpoint.route).Nodup
  configs : p.configs.length ≤ 1

/-- The same statements, with the general ones in the same order. -/
structure Reorders (q p : Program) : Prop where
  statements : q.statements.Perm p.statements
  general : q.statements.filter Stmt.isGeneral = p.statements.filter Stmt.isGeneral

variable {p q : Program}

namespace Reorders

variable (h : q.Reorders p)
include h

theorem declared : q.declared.Perm p.declared := h.statements.filterMap _

theorem placed : q.placed.Perm p.placed := (h.statements.filterMap _).flatMap_right _

theorem endpoints : q.endpoints.Perm p.endpoints := h.statements.filterMap _

theorem hasDistinctNames (hp : p.HasDistinctNames) : q.HasDistinctNames where
  declared := (h.declared.map _).nodup_iff.mpr hp.declared
  schemas := (h.placed.filterMap _).nodup_iff.mpr hp.schemas
  routes := (h.endpoints.map _).nodup_iff.mpr hp.routes
  configs := Nat.le_trans (Nat.le_of_eq (h.statements.filterMap _).length_eq) hp.configs

/-- There is one configuration at most, and so no order of them. -/
theorem configs_eq (hp : p.HasDistinctNames) : q.configs = p.configs := by
  have hperm : q.configs.Perm p.configs := h.statements.filterMap _
  have hlength := hp.configs
  match hc : p.configs with
  | [] => exact List.perm_nil.mp (hc ▸ hperm)
  | [c] => exact List.perm_singleton.mp (hc ▸ hperm)
  | c :: c' :: rest => simp [hc] at hlength

end Reorders

end Program

/-! ## Declared names -/

/-- Declarations add up if no name is taken. -/
theorem Declarations.foldl_add {entries ds : List Declared}
    (h : ((entries ++ ds).map fun d => (d.kind, d.name)).Nodup) :
    ds.foldl add ⟨entries⟩ = ⟨entries ++ ds⟩ := by
  induction ds generalizing entries with
  | nil => rw [List.foldl_nil, List.append_nil]
  | cons d ds ih =>
    have hfree : (Declarations.mk entries).has d.kind d.name = false := by
      rw [List.map_append, List.nodup_append] at h
      simp only [has, find?, Option.isSome_eq_false_iff, Option.isNone_iff_eq_none,
        List.find?_eq_none, Bool.and_eq_true, beq_iff_eq]
      rintro x hx ⟨hkind, hname⟩
      exact h.2.2 _ (List.mem_map_of_mem hx) (d.kind, d.name) (by simp) (by rw [hkind, hname])
    rw [List.foldl_cons, add, if_neg (by simp [hfree]), ih (by simpa using h)]
    simp

namespace Declarations

variable {ds ds' : Declarations} (h : ds.entries.Perm ds'.entries)
include h

theorem has_eq_of_perm (kind : DeclaredKind) (name : String) : ds.has kind name = ds'.has kind name := by
  simp only [has, find?, List.isSome_find?]
  exact h.any_eq

theorem hasAny_eq_of_perm (kind : DeclaredKind) : ds.hasAny kind = ds'.hasAny kind := h.any_eq

theorem allows_knownMiddleware_eq_of_perm (registry : Registry) (name : String) :
    Registry.allows (Endpoint.knownMiddleware registry ds) name =
      Registry.allows (Endpoint.knownMiddleware registry ds') name := by
  unfold Endpoint.knownMiddleware
  cases registry.middleware with
  | none => rfl
  | some names => exact (((h.filter _).map _).append_right names).contains_eq

end Declarations

namespace Endpoint

variable {ds ds' : Declarations}

/-- An endpoint is checked against the declared names whatever their order. -/
theorem findings_eq_of_perm (h : ds.entries.Perm ds'.entries) (registry : Registry)
    (earlier : List Endpoint) (e : Endpoint) :
    e.findings registry ds earlier = e.findings registry ds' earlier := by
  have hmiddleware (earlier : List String) (name : String) :
      e.middlewareFindings (knownMiddleware registry ds) earlier name =
        e.middlewareFindings (knownMiddleware registry ds') earlier name := by
    unfold middlewareFindings
    rw [Declarations.allows_knownMiddleware_eq_of_perm h]
  have hrole : e.roleFindings ds = e.roleFindings ds' := by
    unfold roleFindings
    simp only [Declarations.has_eq_of_perm h, Declarations.hasAny_eq_of_perm h]
  unfold findings
  rw [hrole, funext₂ hmiddleware]

end Endpoint

theorem Stmt.wiringFindings_eq_of_perm {ds ds' : Declarations} (h : ds.entries.Perm ds'.entries)
    (s : Stmt) : s.wiringFindings ds = s.wiringFindings ds' := by
  unfold wiringFindings EventHandler.findings EventHandler.actionFindings
    EventHandler.targetFindings
  simp only [Declarations.has_eq_of_perm h]

/-! ## Checks that look back -/

theorem Endpoint.findings_alone {registry : Registry} {ds : Declarations} {earlier : List Endpoint}
    {e : Endpoint} (h : ∀ b ∈ earlier, b.route ≠ e.route) :
    e.findings registry ds earlier = e.findings registry ds [] := by
  have hroute : routeFindings earlier e = [] := by
    have hnone : earlier.find? (·.route == e.route) = none := by
      simpa [List.find?_eq_none] using h
    unfold routeFindings
    rw [hnone]
  unfold findings
  rw [hroute]
  rfl

/-- The declarations are not schemas of one name. -/
def Placed.Apart (a b : Placed) : Prop :=
  ∀ name, a.declaration.schemaName? = some name → ∀ name', b.declaration.schemaName? = some name' →
    name ≠ name'

theorem Placed.schemaName?_of_schema? {p : Placed} {kind : SchemaKind} {m : Model}
    (h : p.schema? = some (kind, m)) : p.declaration.schemaName? = some m.name := by
  unfold schema? at h
  split at h
  case h_1 hmodel =>
    split at h <;> cases h
    rw [hmodel]
    rfl
  case h_2 hcollection =>
    split at h <;> cases h
    rw [hcollection]
    rfl
  case h_3 => cases h

theorem Placed.findings_alone {earlier : List Placed} {p : Placed} (h : ∀ b ∈ earlier, b.Apart p) :
    p.findings earlier = p.findings [] := by
  have hname {kind kind' : SchemaKind} {m : Model} (hm : p.schema? = some (kind', m)) :
      nameFindings earlier kind m = nameFindings [] kind m := by
    have hnone : (earlier.filterMap schema?).find? (·.2.name == m.name) = none := by
      rw [List.find?_eq_none]
      rintro ⟨kind₁, m₁⟩ hmem
      obtain ⟨b, hb, hschema⟩ := List.mem_filterMap.mp hmem
      simpa using
        h b hb _ (schemaName?_of_schema? hschema) _ (schemaName?_of_schema? hm)
    unfold nameFindings
    rw [hnone]
    rfl
  unfold findings
  split
  case h_1 m hm => rw [hname hm]
  case h_2 m hm => rw [hname hm]
  all_goals rfl

/-! ## Reports of reordered programs -/

namespace Program

variable {p q : Program}

theorem HasDistinctNames.declarations_eq (hp : p.HasDistinctNames) :
    p.declarations = ⟨p.declared⟩ :=
  show p.declared.foldl Declarations.add (.mk []) = .mk ([] ++ p.declared) from
    Declarations.foldl_add hp.declared

theorem HasDistinctNames.duplicateNames_eq (hp : p.HasDistinctNames) : p.duplicateNames = [] := by
  unfold duplicateNames
  rw [eachAfter_eq_nil_iff]
  intro before d after hsplit
  have hnone : (Declarations.mk before).find? d.kind d.name = none := by
    have hnodup := hp.declared
    rw [hsplit, List.map_append, List.map_cons, List.nodup_append] at hnodup
    simp only [Declarations.find?, List.find?_eq_none, Bool.and_eq_true, beq_iff_eq]
    rintro b hb ⟨hkind, hname⟩
    exact hnodup.2.2 _ (List.mem_map_of_mem hb) _ List.mem_cons_self (by rw [hkind, hname])
  rw [List.nil_append, hnone]

theorem scopeFindings_eq_filter (p : Program) :
    p.scopeFindings = Stmt.lexicalAll .global (p.statements.filter Stmt.isGeneral) := by
  have hlexical : p.scopeFindings = Stmt.lexicalAll .global p.statements :=
    (Stmt.follows_all p.statements .start .global .start).1
  rw [hlexical, Stmt.lexicalAll_filter_isGeneral rfl]

theorem HasDistinctNames.pairwise_placed (hp : p.HasDistinctNames) :
    p.placed.Pairwise Placed.Apart :=
  List.pairwise_filterMap.mp hp.schemas

theorem HasDistinctNames.pairwise_endpoints (hp : p.HasDistinctNames) :
    p.endpoints.Pairwise fun a b => a.route ≠ b.route :=
  List.pairwise_map.mp hp.routes

namespace Reorders

variable (h : q.Reorders p) (hp : p.HasDistinctNames)
include h

theorem scopeFindings_eq : q.scopeFindings = p.scopeFindings := by
  rw [scopeFindings_eq_filter, scopeFindings_eq_filter, h.general]

theorem flowFindings_perm : q.flowFindings.Perm p.flowFindings := by
  have hworkflows : q.workflows.Perm p.workflows := h.statements.filterMap _
  have hjobs : q.jobs.Perm p.jobs := h.statements.filterMap _
  exact (hworkflows.flatMap_right _).append (hjobs.flatMap_right _)

include hp

theorem entries_perm : q.declarations.entries.Perm p.declarations.entries := by
  rw [(h.hasDistinctNames hp).declarations_eq, hp.declarations_eq]
  exact h.declared

theorem schemaFindings_perm : q.schemaFindings.Perm p.schemaFindings := by
  have hconfigs := h.configs_eq hp
  have hconfig : q.configFindings = p.configFindings := by
    unfold configFindings
    rw [hconfigs]
  have hdatabases : q.databases.Perm p.databases := h.statements.filterMap _
  have hengine : q.engineFindings.Perm p.engineFindings := by
    unfold engineFindings engine
    rw [hconfigs, hdatabases.isEmpty_eq, hdatabases.any_eq]
    exact (hdatabases.flatMap_right _).append (.refl _)
  have hplaced : (eachAfter Placed.findings [] q.placed).Perm
      (eachAfter Placed.findings [] p.placed) :=
    eachAfter_perm (fun _ _ => Placed.findings_alone) hp.pairwise_placed
      (h.hasDistinctNames hp).pairwise_placed h.placed
  unfold schemaFindings
  rw [hconfig]
  exact (hengine.append_left _).append hplaced

theorem endpointFindings_perm (registry : Registry) :
    (q.endpointFindings registry).Perm (p.endpointFindings registry) := by
  have hsame (earlier : List Endpoint) (e : Endpoint) :
      e.findings registry q.declarations earlier = e.findings registry p.declarations earlier :=
    e.findings_eq_of_perm (h.entries_perm hp) registry earlier
  unfold endpointFindings
  rw [show Endpoint.findings registry q.declarations = Endpoint.findings registry p.declarations
    from funext₂ hsame]
  exact eachAfter_perm (fun _ _ => Endpoint.findings_alone) hp.pairwise_endpoints
    (h.hasDistinctNames hp).pairwise_endpoints h.endpoints

theorem wiringFindings_perm : q.wiringFindings.Perm p.wiringFindings := by
  unfold wiringFindings
  rw [show Stmt.wiringFindings q.declarations = Stmt.wiringFindings p.declarations
    from funext (Stmt.wiringFindings_eq_of_perm (h.entries_perm hp))]
  exact h.statements.flatMap_right _

end Reorders

/-- A reordering that keeps the order of the general statements has the same diagnostics,
each as often, if names are distinct. -/
theorem diagnostics_perm (hp : p.HasDistinctNames) (h : q.Reorders p) (registry : Registry) :
    (q.diagnostics registry).Perm (p.diagnostics registry) := by
  have hscope : (q.scopeFindings.map (·.map Problem.scope)).Perm
      (p.scopeFindings.map (·.map .scope)) := .of_eq (by rw [h.scopeFindings_eq])
  have hduplicates : (q.duplicateNames.map (·.map Problem.duplicateName)).Perm
      (p.duplicateNames.map (·.map .duplicateName)) :=
    .of_eq (by rw [(h.hasDistinctNames hp).duplicateNames_eq, hp.duplicateNames_eq])
  unfold diagnostics findings
  apply List.Perm.map
  apply List.Perm.append _ ((h.wiringFindings_perm hp).map _)
  apply List.Perm.append _ (h.flowFindings_perm.map _)
  apply List.Perm.append _ ((h.endpointFindings_perm hp registry).map _)
  exact (hduplicates.append hscope).append ((h.schemaFindings_perm hp).map _)

/-- A handler before and behind the event that it is for; its target is declared nowhere. -/
theorem diagnostics_perm_handler :
    let handler : Stmt := .eventHandler ⟨⟨"", 1, 1, 0⟩, "user.created", "webhook", "crm", false⟩
    let event : Stmt := .event ⟨⟨"", 2, 1, 33⟩, "user.created", none⟩
    let declaration : Stmt := .varDecl ⟨"", 3, 1, 52⟩ "x" none
    let assignment : Stmt := .assignment ⟨"", 4, 1, 58⟩ "x" (.ident ⟨"", 4, 5, 62⟩ "y")
    let p : Program := ⟨⟨"", 1, 1, 0⟩, [declaration, event, assignment, handler]⟩
    let q : Program := ⟨⟨"", 1, 1, 0⟩, [handler, declaration, assignment, event]⟩
    (q.diagnostics .unrestricted).map (·.message) =
        ["undefined variable 'y'", "handler target webhook 'crm' is not declared"] ∧
      p.HasDistinctNames ∧ q.Reorders p ∧
      (q.diagnostics .unrestricted).Perm (p.diagnostics .unrestricted) := by
  intro handler event declaration assignment p q
  have hp : p.HasDistinctNames :=
    ⟨List.nodup_singleton _, List.nodup_nil, List.nodup_nil, Nat.zero_le _⟩
  have hq : q.Reorders p := by
    refine ⟨?_, rfl⟩
    have hfront : ([handler] ++ [declaration, assignment, event]).Perm
        [declaration, assignment, event, handler] := List.perm_append_comm
    exact hfront.trans (.cons _ (.swap _ _ _))
  exact ⟨by decide +kernel, hp, hq, diagnostics_perm hp hq _⟩

end Program

end ServiceLang
