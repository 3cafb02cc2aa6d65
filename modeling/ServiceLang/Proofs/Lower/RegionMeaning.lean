import ServiceLang.Lower.Endpoint
import ServiceLang.Lower.Flow
import ServiceLang.Proofs.Lower.Documented
import ServiceLang.Proofs.Ast.Shaped
import ServiceLang.Proofs.Grammar.Identifier
import ServiceLang.Proofs.Peg.Shape

/-!
Every endpoint and every flow has a meaning.

A request has a type and at most a source behind it, so an endpoint is lowered unless the
source is unknown or the status of its response is not whole.

The kinds of triggers and the keys of retry settings are words of the grammar, and entries
have a key and a value.  So a flow is lowered unless a number is not whole, a retry setting
has a value of the other kind, or a workflow limits its concurrency.  Inputs are shaped, and
what a step calls and waits for are names.  Steps are flat, though their type has room for branches
below branches: a parallel step is given branches and nothing else, and each of these runs an
activity (`lowerStep_meets`, `lowerParallel_meets`).
-/

namespace ServiceLang.EndpointGrammar

open Peg

variable {place : Nat → Position} {t : ParseTree Rule}

/-- The words of a request are its type, and the source if it has one. -/
theorem stepWords_of_request (h : IsLeft grammar t) (hr : t.rule = .requestProp) :
    (∃ name, t.childrenOf .stepWord = [name]) ∨
      ∃ name source, t.childrenOf .stepWord = [name, source] := by
  have hleaves := h.leaves (by rw [hr]; decide) 0
  rw [hr] at hleaves
  obtain ⟨word, behind, hrules, hword, colon, rest, rfl, hcolon, name, last, rfl, hname, hlast⟩ := hleaves
  cases hcolon
  rw [hword (by decide), hname (by decide)] at hrules
  obtain ⟨w, ts, hchildren, hw, hrest⟩ := List.map_eq_cons_iff.1 hrules
  obtain ⟨n, ts, rfl, hn, hrest⟩ := List.map_eq_cons_iff.1 hrest
  rcases hlast with rfl | ⟨from', source, rfl, hfrom, hsource⟩
  · obtain rfl := List.map_eq_nil_iff.1 hrest
    left
    refine ⟨n, ?_⟩
    simp [ParseTree.childrenOf, hchildren, hw, hn]
  · rw [hfrom (by decide), hsource (by decide)] at hrest
    obtain ⟨f, ts, rfl, hf, hrest⟩ := List.map_eq_cons_iff.1 hrest
    obtain ⟨s, rfl, hs⟩ := List.map_eq_singleton_iff.1 hrest
    right
    refine ⟨n, s, ?_⟩
    simp [ParseTree.childrenOf, hchildren, hw, hn, hf, hs]

theorem lowerRequest_meets (h : IsLeft grammar t) (hr : t.rule = .requestProp) :
    (lowerRequest place t).Meets fun _ => True := by
  unfold lowerRequest
  rcases stepWords_of_request h hr with ⟨name, hwords⟩ | ⟨name, source, hwords⟩
  · rw [hwords]
    trivial
  · rw [hwords]
    refine Meets.map (P := fun _ => True) ?_ fun _ _ => trivial
    unfold lowerRequestSource
    split
    · trivial
    · next hunknown => exact hunknown

theorem lowerResponse_meets (t : ParseTree Rule) : (lowerResponse place t).Meets fun _ => True := by
  unfold lowerResponse
  split
  · trivial
  · dsimp only
    split <;> trivial

theorem addPart_meets (e : Endpoint) (h : IsLeft grammar t) :
    (addPart place e t).Meets fun _ => True := by
  unfold addPart
  split
  case h_9 hr => exact (lowerRequest_meets h hr).map fun _ _ => trivial
  case h_10 hr => exact (lowerResponse_meets t).map fun _ _ => trivial
  all_goals trivial

/-- The endpoint of a parsed region is lowered, or a documented check has failed. -/
theorem lowerRegion_meets {text : List Char} {trees : List (ParseTree Rule)}
    (h : grammar.parse .endpointFile text = .ok trees) :
    (lowerRegion place trees).Meets fun _ => True := by
  obtain ⟨d, hderives⟩ := derives_of_parse _ _ _ h
  obtain ⟨t, rfl, hr⟩ : ∃ t, trees = [t] ∧ t.rule = .endpointFile :=
    List.map_eq_singleton_iff.1 (hderives.leaves ⟨rfl, nofun⟩ 0 (by decide))
  have hleft := (hderives.isLeft (List.mem_singleton_self t)).1
  obtain ⟨u, hu, hrule⟩ := hleft.exists_child (by rw [hr]; decide) (· = .endpointDecl) 0
    (by rw [hr]; decide)
  obtain ⟨v, hfirst⟩ := ParseTree.exists_firstOf? hu
  rw [of_decide_eq_true hrule] at hfirst
  obtain ⟨hv, hdecl⟩ := ParseTree.of_firstOf? hfirst
  unfold lowerRegion
  rw [List.findSome?_cons, hfirst]
  exact Meets.foldlM trivial fun e _ w hw =>
    addPart_meets e ((hleft.child (by rw [hr]; rfl) hv).1.child (by rw [hdecl]; rfl) hw).1

end ServiceLang.EndpointGrammar

namespace ServiceLang.FlowGrammar

open Peg

variable {place : Nat → Position} {t : ParseTree Rule}

theorem wholeNumber_meets (setting : WholeSetting) (t : ParseTree Rule) :
    (wholeNumber setting t).Meets fun _ => True := by
  unfold wholeNumber
  dsimp only
  split <;> trivial

/-! ## Triggers and retries -/

/-- The kinds of triggers are the words of the grammar. -/
theorem ofName?_of_triggerKind (h : IsLeft grammar t) (hr : t.rule = .triggerKind) :
    (TriggerKind.ofName? t.string).isSome := by
  have kinds : ∃ ws, (grammar.definition .triggerKind).pattern.texts? = some ws ∧
      ws.all fun w => (TriggerKind.ofName? (String.ofList w)).isSome := ⟨_, rfl, by decide⟩
  obtain ⟨ws, hp, hall⟩ := kinds
  exact List.all_eq_true.1 hall t.text (h.text_mem (by rw [hr]; rfl) (by rw [hr]; exact hp))

theorem lowerTrigger_meets (h : IsLeft grammar t) (hr : t.rule = .triggerProp) :
    (lowerTrigger place t).Meets fun _ => True := by
  obtain ⟨u, hu, hrule⟩ := h.exists_child (by rw [hr]; decide) (· = .triggerKind) 0 (by rw [hr]; decide)
  obtain ⟨v, hfirst⟩ := ParseTree.exists_firstOf? hu
  rw [of_decide_eq_true hrule] at hfirst
  obtain ⟨hv, hkind⟩ := ParseTree.of_firstOf? hfirst
  obtain ⟨kind, hname⟩ := Option.isSome_iff_exists.1
    (ofName?_of_triggerKind (h.child (by rw [hr]; rfl) hv).1 hkind)
  unfold lowerTrigger ParseTree.textOf
  rw [hfirst]
  dsimp only
  rw [hname]
  trivial

def retryKeys : List String := ["max_attempts", "backoff_coefficient", "initial_interval", "max_interval"]

theorem mem_retryKeys (h : IsLeft grammar t) (hr : t.rule = .retryKey) : t.string ∈ retryKeys := by
  have keys : ∃ ws, (grammar.definition .retryKey).pattern.texts? = some ws ∧
      ws.all fun w => retryKeys.contains (String.ofList w) := ⟨_, rfl, by decide⟩
  obtain ⟨ws, hp, hall⟩ := keys
  have hmem := List.all_eq_true.1 hall t.text (h.text_mem (by rw [hr]; rfl) (by rw [hr]; exact hp))
  exact List.contains_iff_mem.1 hmem

/-- A retry setting has a key and a value. -/
theorem exists_retryEntry (h : IsLeft grammar t) (hr : t.rule = .retryEntry) :
    ∃ key offset value, retryEntry? t = some (key, offset, value) ∧ key ∈ retryKeys := by
  have two : ∃ key value, t.children = [key, value] ∧ key.rule = .retryKey := by
    have hleaves := h.leaves (by rw [hr]; decide) 0
    rw [hr] at hleaves
    obtain ⟨before, behind, hrules, hbefore, colon, last, rfl, hcolon, hlast⟩ := hleaves
    cases hcolon
    rw [hbefore (by decide)] at hrules
    obtain ⟨key, rest, hchildren, hkey, hrest⟩ := List.map_eq_cons_iff.1 hrules
    have hone : ∃ r, last = [r] := by
      rcases hlast with hlast | hlast
      · exact ⟨_, hlast (by decide)⟩
      · exact ⟨_, hlast (by decide)⟩
    obtain ⟨r, rfl⟩ := hone
    obtain ⟨value, rfl, -⟩ := List.map_eq_singleton_iff.1 hrest
    exact ⟨key, value, hchildren, hkey⟩
  obtain ⟨key, value, hchildren, hkey⟩ := two
  have hmem : key.string ∈ retryKeys :=
    mem_retryKeys (h.child (by rw [hr]; rfl) (by rw [hchildren]; exact List.mem_cons_self)).1 hkey
  unfold retryEntry?
  rw [hchildren]
  dsimp only
  split
  · exact ⟨_, _, _, rfl, hmem⟩
  · exact ⟨_, _, _, rfl, hmem⟩

theorem addRetryEntry_meets (r : RetryPolicy) (h : IsLeft grammar t) (hr : t.rule = .retryEntry) :
    (addRetryEntry r t).Meets fun _ => True := by
  obtain ⟨key, offset, value, hentry, hkey⟩ := exists_retryEntry h hr
  unfold addRetryEntry
  rw [hentry]
  dsimp only
  split
  · exact (wholeNumber_meets _ _).map fun _ _ => trivial
  · trivial
  · trivial
  · trivial
  · next hattempts hcoefficient =>
    show key = "initial_interval" ∨ key = "max_interval"
    unfold retryKeys at hkey
    simp_all
  · next hinitial hmax =>
    show key = "max_attempts" ∨ key = "backoff_coefficient"
    unfold retryKeys at hkey
    simp_all

theorem lowerRetry_meets (h : IsLeft grammar t) (hk : (grammar.definition t.rule).kind = .spaced) :
    (lowerRetry place t).Meets fun _ => True := by
  refine Meets.foldlM trivial fun r _ u hu => ?_
  obtain ⟨hleft, -, hr⟩ := h.of_mem_childrenOf hk hu
  exact addRetryEntry_meets r hleft hr

/-! ## Inputs -/

/-- Rules whose nodes are values. -/
def isValue : Rule → Bool
  | .lexeme .string | .signedNumber | .lexeme .boolLit | .lexeme .ident | .arrayValue => true
  | _ => false

mutual

theorem exists_lowerValue (place : Nat → Position) : (t : ParseTree Rule) → IsLeft grammar t →
    Named (.lexeme .ident) t → isValue t.rule →
    ∃ e, lowerValue place t = .ok e ∧ Shaped (.expr e)
  | .node rule start stop children, h, hn, hr => by
    have literal {e : Expr} (he : e.children = []) (hnames : (Node.expr e).names = []) :
        Shaped (.expr e) := .expr (by rw [hnames]; nofun) (by rw [he]; nofun)
    unfold lowerValue
    dsimp only
    split
    · exact ⟨_, rfl, literal rfl rfl⟩
    · exact ⟨_, rfl, literal rfl rfl⟩
    · exact ⟨_, rfl, literal rfl rfl⟩
    · refine ⟨_, rfl, .expr (fun name hname => ?_) nofun⟩
      rw [List.mem_singleton.1 hname]
      exact hn.isName rfl
    · obtain ⟨es, hes, hshaped⟩ := exists_lowerValues place children
        (fun u hu => (h.child rfl hu).1) (fun u hu => hn.child hu)
        (h.forall_children nofun isValue 1 rfl)
      rw [hes]
      refine ⟨_, rfl, .expr nofun fun m hm => ?_⟩
      obtain ⟨e, he, rfl⟩ := List.mem_map.1 hm
      exact hshaped e he
    · next hstring hnumber hbool hident harray =>
      exact absurd hr (by
        show ¬isValue rule
        unfold isValue
        split <;> simp_all)

theorem exists_lowerValues (place : Nat → Position) : (ts : List (ParseTree Rule)) →
    (∀ t ∈ ts, IsLeft grammar t) → (∀ t ∈ ts, Named (.lexeme .ident) t) →
    (∀ t ∈ ts, isValue t.rule) →
    ∃ es, lowerValues place ts = .ok es ∧ ∀ e ∈ es, Shaped (.expr e)
  | [], _, _, _ => ⟨[], by rw [lowerValues], nofun⟩
  | t :: ts, h, hn, hr => by
    obtain ⟨e, he, hshaped⟩ := exists_lowerValue place t (h t List.mem_cons_self)
      (hn t List.mem_cons_self) (hr t List.mem_cons_self)
    obtain ⟨es, hes, hall⟩ := exists_lowerValues place ts
      (fun u hu => h u (List.mem_cons_of_mem t hu)) (fun u hu => hn u (List.mem_cons_of_mem t hu))
      (fun u hu => hr u (List.mem_cons_of_mem t hu))
    rw [lowerValues, he, hes]
    refine ⟨e :: es, rfl, fun e' he' => ?_⟩
    rcases List.mem_cons.1 he' with rfl | he'
    · exact hshaped
    · exact hall e' he'

end

theorem lowerInput_meets (h : IsLeft grammar t) (hn : Named (.lexeme .ident) t)
    (hr : t.rule = .inputEntry) : (lowerInput place t).Meets fun p => Shaped (.expr p.value) := by
  have two : ∃ key value, t.children = [key, value] ∧ isValue value.rule := by
    have hleaves := h.leaves (by rw [hr]; decide) 1
    rw [hr] at hleaves
    obtain ⟨before, behind, hrules, hbefore, colon, last, rfl, hcolon, hlast⟩ := hleaves
    cases hcolon
    rw [hbefore.1 (by decide)] at hrules
    obtain ⟨key, rest, hchildren, -, hrest⟩ := List.map_eq_cons_iff.1 hrules
    have hone : ∃ r, last = [r] ∧ isValue r := by
      rcases hlast.2 rfl with h | h | h | h | h
      · exact ⟨_, h (by decide), rfl⟩
      · exact ⟨_, h (by decide), rfl⟩
      · exact ⟨_, h (by decide), rfl⟩
      · exact ⟨_, h (by decide), rfl⟩
      · exact ⟨_, h (by decide), rfl⟩
    obtain ⟨r, rfl, hvalue⟩ := hone
    obtain ⟨value, rfl, rfl⟩ := List.map_eq_singleton_iff.1 hrest
    exact ⟨key, value, hchildren, hvalue⟩
  obtain ⟨key, value, hchildren, hvalue⟩ := two
  have hmem : value ∈ t.children := by
    rw [hchildren]
    exact List.mem_cons_of_mem key List.mem_cons_self
  obtain ⟨e, he, hshaped⟩ := exists_lowerValue place value (h.child (by rw [hr]; rfl) hmem).1
    (hn.child hmem) hvalue
  unfold lowerInput
  rw [hchildren]
  dsimp only
  rw [he]
  exact hshaped

/-! ## Steps -/

/-- A step that runs an activity, with shaped inputs and names for what it calls and waits for. -/
structure ShapedActivity (s : Step) : Prop where
  kind : s.kind = .activity
  branches : s.branches = []
  inputs : ∀ p ∈ s.input, Shaped (.expr p.value)
  named : ∀ name ∈ s.ownReferences, isName name

/-- A step that has nothing but such branches. -/
structure ShapedParallel (s : Step) : Prop where
  kind : s.kind = .parallel
  bare : s.IsBare
  branches : ∀ b ∈ s.branches, ShapedActivity b

theorem addStepPart_meets {s : Step} (hs : ShapedActivity s) (h : IsLeft grammar t)
    (hn : Named (.lexeme .ident) t) : (addStepPart place s t).Meets ShapedActivity := by
  obtain ⟨hkind, hbranches, hinputs, hnamed⟩ := hs
  obtain ⟨hcalled, hawaited⟩ := List.forall_mem_append.1 hnamed
  unfold addStepPart
  split
  · exact ⟨hkind, hbranches, hinputs, hnamed⟩
  · exact ⟨hkind, hbranches, hinputs, hnamed⟩
  · refine ⟨hkind, hbranches, hinputs, List.forall_mem_append.2 ⟨fun name hname => ?_, hawaited⟩⟩
    obtain ⟨u, hu, rfl⟩ := Option.map_eq_some_iff.1 (Option.mem_toList.1 hname)
    obtain ⟨hmem, hident⟩ := ParseTree.of_firstOf? hu
    exact (hn.child hmem).isName hident
  · next hr =>
    refine Meets.map (P := fun inputs => ∀ p ∈ inputs, Shaped (.expr p.value)) ?_ fun inputs hnew =>
      ⟨hkind, hbranches, List.forall_mem_append.2 ⟨hinputs, hnew⟩, hnamed⟩
    refine Meets.mapM fun u hu => ?_
    obtain ⟨hleft, -, hrule⟩ := h.of_mem_childrenOf (by rw [hr]; rfl) hu
    exact lowerInput_meets hleft (hn.child (List.mem_filter.1 hu).1) hrule
  · exact ⟨hkind, hbranches, hinputs, hnamed⟩
  · next hr =>
    exact (lowerRetry_meets h (by rw [hr]; rfl)).map fun _ _ => ⟨hkind, hbranches, hinputs, hnamed⟩
  · refine ⟨hkind, hbranches, hinputs, List.forall_mem_append.2 ⟨hcalled, fun name hname => ?_⟩⟩
    obtain ⟨u, hu, rfl⟩ := List.mem_map.1 hname
    obtain ⟨hmem, hident⟩ := List.mem_filter.1 hu
    exact (hn.child hmem).isName (of_decide_eq_true hident)
  · exact ⟨hkind, hbranches, hinputs, hnamed⟩

theorem lowerStep_meets (h : IsLeft grammar t) (hn : Named (.lexeme .ident) t)
    (hk : (grammar.definition t.rule).kind = .spaced) : (lowerStep place t).Meets ShapedActivity :=
  Meets.foldlM ⟨rfl, rfl, nofun, nofun⟩ fun _ hs _ hu =>
    addStepPart_meets hs (h.child hk hu).1 (hn.child hu)

theorem addParallelPart_meets {s : Step} (hs : ShapedParallel s) (h : IsLeft grammar t)
    (hn : Named (.lexeme .ident) t) : (addParallelPart place s t).Meets ShapedParallel := by
  obtain ⟨hkind, ⟨hactivity, hinput, htimeout, hretry, hdepends⟩, hbranches⟩ := hs
  unfold addParallelPart
  split
  · exact ⟨hkind, ⟨hactivity, hinput, htimeout, hretry, hdepends⟩, hbranches⟩
  · exact ⟨hkind, ⟨hactivity, hinput, htimeout, hretry, hdepends⟩, hbranches⟩
  · next hr =>
    exact (lowerStep_meets h hn (by rw [hr]; rfl)).map fun b hb =>
      ⟨hkind, ⟨hactivity, hinput, htimeout, hretry, hdepends⟩,
        List.forall_mem_append.2 ⟨hbranches, List.forall_mem_singleton.2 hb⟩⟩
  · exact ⟨hkind, ⟨hactivity, hinput, htimeout, hretry, hdepends⟩, hbranches⟩

theorem lowerParallel_meets (h : IsLeft grammar t) (hn : Named (.lexeme .ident) t)
    (hk : (grammar.definition t.rule).kind = .spaced) : (lowerParallel place t).Meets ShapedParallel :=
  Meets.foldlM ⟨rfl, ⟨rfl, rfl, rfl, rfl, rfl⟩, nofun⟩ fun _ hs _ hu =>
    addParallelPart_meets hs (h.child hk hu).1 (hn.child hu)

/-- A flat step whose inputs are shaped, and whose references are names, at all depths. -/
structure ShapedStep (s : Step) : Prop where
  flat : s.IsFlat
  inputs : ∀ p ∈ s.inputs, Shaped (.expr p.value)
  named : ∀ name ∈ s.references, isName name

theorem ShapedActivity.shapedStep {s : Step} (h : ShapedActivity s) : ShapedStep s := by
  refine ⟨⟨fun _ => h.branches, fun hkind => ?_, fun b hb => ?_⟩, ?_, ?_⟩
  · rw [h.kind] at hkind
    cases hkind
  · rw [h.branches] at hb
    cases hb
  · rw [s.inputs_eq, h.branches, List.flatMap_nil, List.append_nil]
    exact h.inputs
  · rw [s.references_eq, h.branches, List.flatMap_nil, List.append_nil]
    exact h.named

theorem ShapedParallel.shapedStep {s : Step} (h : ShapedParallel s) : ShapedStep s := by
  have hbelow (b : Step) (hb : b ∈ s.branches) := (h.branches b hb).shapedStep
  refine ⟨⟨fun hkind => ?_, fun _ => h.bare, fun b hb => ⟨(h.branches b hb).kind, (h.branches b hb).branches⟩⟩,
    ?_, ?_⟩
  · rw [h.kind] at hkind
    cases hkind
  · rw [s.inputs_eq, h.bare.input, List.nil_append]
    exact List.forall_mem_flatMap.2 fun b hb => (hbelow b hb).inputs
  · rw [s.references_eq, Step.ownReferences, h.bare.activity, h.bare.dependsOn]
    exact List.forall_mem_flatMap.2 fun b hb => (hbelow b hb).named

/-! ## Flows -/

theorem addFlowPart_meets {isJob : Bool} {j : Job} (hj : ∀ s ∈ j.flow.steps, ShapedStep s)
    (h : IsLeft grammar t) (hn : Named (.lexeme .ident) t) :
    (addFlowPart place isJob j t).Meets fun j => ∀ s ∈ j.flow.steps, ShapedStep s := by
  have more {s : Step} (hs : ShapedStep s) : ∀ s' ∈ j.flow.steps ++ [s], ShapedStep s' := by
    intro s' hs'
    rcases List.mem_append.1 hs' with hs' | hs'
    · exact hj s' hs'
    · rw [List.mem_singleton.1 hs']
      exact hs
  unfold addFlowPart
  dsimp only
  split
  · exact hj
  · next hr => exact (lowerTrigger_meets h hr).map fun _ _ => hj
  · exact hj
  · exact hj
  · next hr =>
    split
    · trivial
    · obtain ⟨u, hu, hrule⟩ := h.exists_child (by rw [hr]; decide) (· = .signedNumber) 0
        (by rw [hr]; decide)
      obtain ⟨v, hfirst⟩ := ParseTree.exists_firstOf? hu
      rw [of_decide_eq_true hrule] at hfirst
      rw [hfirst]
      exact (wholeNumber_meets _ _).map fun _ _ => hj
  · next hr => exact (lowerRetry_meets h (by rw [hr]; rfl)).map fun _ _ => hj
  · next hr => exact (lowerStep_meets h hn (by rw [hr]; rfl)).map fun _ hs => more hs.shapedStep
  · next hr => exact (lowerParallel_meets h hn (by rw [hr]; rfl)).map fun _ hs => more hs.shapedStep
  · exact hj

theorem lowerParts_meets {isJob : Bool} (h : IsLeft grammar t) (hn : Named (.lexeme .ident) t)
    (hk : (grammar.definition t.rule).kind = .spaced) :
    (lowerParts place isJob t).Meets fun j => ∀ s ∈ j.flow.steps, ShapedStep s :=
  Meets.foldlM nofun fun _ hj _ hu => addFlowPart_meets hj (h.child hk hu).1 (hn.child hu)

theorem shaped_of_steps {s : Stmt} {steps : List Step}
    (hs : s.children = Property.nodes (steps.flatMap Step.inputs)) (hown : (Node.stmt s).steps = steps)
    (hinner : ∀ k : NodeKind, !k.isSchema && !k.isRegion → s.kind.mayHold k)
    (hnames : (Node.stmt s).names = steps.flatMap Step.references)
    (hindexes : (Node.stmt s).indexes = []) (hsteps : ∀ step ∈ steps, ShapedStep step) :
    Shaped (.stmt s) := by
  have hvalues : ∀ p ∈ steps.flatMap Step.inputs, Shaped (.expr p.value) := by
    intro p hp
    obtain ⟨step, hstep, hp⟩ := List.mem_flatMap.1 hp
    exact (hsteps step hstep).inputs p hp
  refine .of_inner hinner (fun name hname => ?_) (by rw [hindexes]; nofun) (fun step hstep => ?_)
    fun m hm => ?_
  · rw [hnames] at hname
    obtain ⟨step, hstep, hname⟩ := List.mem_flatMap.1 hname
    exact (hsteps step hstep).named name hname
  · rw [hown] at hstep
    exact (hsteps step hstep).flat
  · rw [hs] at hm
    exact Shaped.of_mem_nodes hvalues hm

theorem lowerFlow_meets (h : IsLeft grammar t) (hn : Named (.lexeme .ident) t)
    (hr : t.rule = .workflowDecl ∨ t.rule = .jobDecl) :
    (lowerFlow place t).Meets fun s => Shaped (.stmt s) ∧ !s.kind.isSchema := by
  unfold lowerFlow
  rcases hr with hr | hr
  · rw [hr]
    refine (lowerParts_meets h hn (by rw [hr]; rfl)).map fun j hj => ⟨?_, rfl⟩
    exact shaped_of_steps rfl rfl (fun _ hk => hk) rfl rfl hj
  · rw [hr]
    refine (lowerParts_meets h hn (by rw [hr]; rfl)).map fun j hj => ⟨?_, rfl⟩
    exact shaped_of_steps rfl rfl (fun _ hk => hk) rfl rfl hj

/-- The flow of a parsed region is shaped. -/
theorem lowerRegion_meets {text : List Char} {trees : List (ParseTree Rule)}
    (h : grammar.parse .workflowFile text = .ok trees) :
    (lowerRegion place trees).Meets fun s => Shaped (.stmt s) ∧ !s.kind.isSchema := by
  obtain ⟨d, hderives⟩ := derives_of_parse _ _ _ h
  have hnamed := named_of_parse h
  obtain ⟨t, rfl, hr⟩ : ∃ t, trees = [t] ∧ t.rule = .workflowFile :=
    List.map_eq_singleton_iff.1 (hderives.leaves ⟨rfl, nofun⟩ 0 (by decide))
  have hleft := (hderives.isLeft (List.mem_singleton_self t)).1
  have found : ∃ u, (t.firstOf? .workflowDecl).or (t.firstOf? .jobDecl) = some u ∧ u ∈ t.children ∧
      (u.rule = .workflowDecl ∨ u.rule = .jobDecl) := by
    cases hworkflow : t.firstOf? .workflowDecl with
    | some u =>
      obtain ⟨hu, hrule⟩ := ParseTree.of_firstOf? hworkflow
      exact ⟨u, rfl, hu, .inl hrule⟩
    | none =>
      obtain ⟨u, hu, hrule⟩ := hleft.exists_child (by rw [hr]; decide)
        (fun r => r = .workflowDecl || r = .jobDecl) 0 (by rw [hr]; decide)
      obtain ⟨v, hv⟩ := ParseTree.exists_firstOf? hu
      rcases Bool.or_eq_true_iff.1 hrule with hrule | hrule
      · rw [of_decide_eq_true hrule, hworkflow] at hv
        cases hv
      · rw [of_decide_eq_true hrule] at hv
        obtain ⟨hmem, hjob⟩ := ParseTree.of_firstOf? hv
        exact ⟨v, hv, hmem, .inr hjob⟩
  obtain ⟨u, hfound, hu, hrule⟩ := found
  unfold lowerRegion
  rw [List.findSome?_cons, hfound]
  exact lowerFlow_meets (hleft.child (by rw [hr]; rfl) hu).1
    ((hnamed t (List.mem_singleton_self t)).child hu) hrule

end ServiceLang.FlowGrammar
