import ServiceLang.Lower.Endpoint
import ServiceLang.Lower.Flow
import ServiceLang.Proofs.Ast.Same
import ServiceLang.Proofs.Decimal.Literal
import ServiceLang.Proofs.Lower.Carried
import ServiceLang.Proofs.Peg.Node

/-!
A region makes the same declaration wherever it stands.

Lowering the trees of a region reads positions only to put them into the declaration, and only
those of nodes (`PlacedBy`).  So if at every node of the declaration the position is replaced by its
image under `f`, both attempts fail or the second makes the declaration of the first with its
positions replaced (`EndpointGrammar.lowerRegion_carries`, `FlowGrammar.lowerRegion_carries`).
-/

namespace ServiceLang

open Peg

variable {f : Position → Position} {place place' : Nat → Position}

/-! ## Placed nodes -/

/-- At every node of the tree, the second placement is the image of the first. -/
def PlacedBy {R : Type} (f : Position → Position) (place place' : Nat → Position)
    (t : ParseTree R) : Prop :=
  ∀ u ∈ t.nodes, place' u.offset = f (place u.offset)

namespace PlacedBy

variable {R : Type} {t u : ParseTree R}

theorem place_eq (h : PlacedBy f place place' t) : place' t.offset = f (place t.offset) :=
  h t t.mem_nodes_self

theorem child (h : PlacedBy f place place' t) (hu : u ∈ t.children) : PlacedBy f place place' u :=
  fun _ hv => h _ (ParseTree.nodes_child hu hv)

theorem of_mem_childrenOf [DecidableEq R] {r : R} (h : PlacedBy f place place' t)
    (hu : u ∈ t.childrenOf r) : PlacedBy f place place' u :=
  h.child (List.mem_filter.1 hu).1

/-- What is carried by the fold of the parts of a node is carried where they are placed. -/
theorem foldlM {ε α : Type} {g : α → α} {P : α → Prop} {add add' : α → ParseTree R → Except ε α}
    {ts : List (ParseTree R)} (h : ∀ u ∈ ts, PlacedBy f place place' u)
    (hadd : ∀ a u, P a → PlacedBy f place place' u → Carries g P (add a u) (add' (g a) u)) {a : α}
    (ha : P a) : Carries g P (ts.foldlM add a) (ts.foldlM add' (g a)) := by
  refine Carries.foldlM (R := fun u v => u = v ∧ PlacedBy f place place' u)
    (List.forall₂_same.2 fun u hu => ⟨rfl, h u hu⟩) ?_ ha
  rintro a u _ ha ⟨rfl, hu⟩
  exact hadd a u ha hu

end PlacedBy

/-! ## Endpoints -/

namespace EndpointGrammar

variable {t : ParseTree Rule}

theorem lowerRequest_carries (h : PlacedBy f place place' t) :
    Carries (RequestSpec.relocate f) (fun _ => True) (lowerRequest place t)
      (lowerRequest place' t) := by
  unfold lowerRequest
  rw [h.place_eq]
  split
  · exact .ok trivial
  · exact (Carries.refl _).map fun _ _ => ⟨rfl, trivial⟩
  · exact .error _ _

theorem lowerResponse_carries (h : PlacedBy f place place' t) :
    Carries (ResponseSpec.relocate f) (fun _ => True) (lowerResponse place t)
      (lowerResponse place' t) := by
  unfold lowerResponse
  rw [h.place_eq]
  split
  · exact .ok trivial
  · dsimp only
    split
    · exact .ok trivial
    · exact .error _ _

theorem lowerAnnotationSpec_placedBy (h : PlacedBy f place place' t) :
    lowerAnnotationSpec place' t = (lowerAnnotationSpec place t).relocate f := by
  unfold lowerAnnotationSpec
  rw [h.place_eq]
  rfl

theorem lowerLogicStep_placedBy (h : PlacedBy f place place' t) :
    lowerLogicStep place' t = (lowerLogicStep place t).relocate f := by
  unfold lowerLogicStep
  rw [h.place_eq]
  rfl

theorem addPart_carries (e : Endpoint) (h : PlacedBy f place place' t) :
    Carries (Endpoint.relocate f) (fun _ => True) (addPart place e t)
      (addPart place' (e.relocate f) t) := by
  unfold addPart
  split
  case h_1 =>
    have hannotations : (e.relocate f).annotations ++ [lowerAnnotationSpec place' t] =
        (e.annotations ++ [lowerAnnotationSpec place t]).map (AnnotationSpec.relocate f) := by
      rw [List.map_append, lowerAnnotationSpec_placedBy h]
      rfl
    rw [hannotations]
    exact .ok trivial
  case h_2 =>
    rw [h.place_eq]
    exact .ok trivial
  case h_9 => exact (lowerRequest_carries h).map fun _ _ => ⟨rfl, trivial⟩
  case h_10 => exact (lowerResponse_carries h).map fun _ _ => ⟨rfl, trivial⟩
  case h_11 =>
    have hsteps : (t.childrenOf .logicStep).map (lowerLogicStep place') =
        ((t.childrenOf .logicStep).map (lowerLogicStep place)).map (LogicStep.relocate f) := by
      rw [List.map_map]
      exact List.map_congr_left fun u hu => lowerLogicStep_placedBy (h.of_mem_childrenOf hu)
    rw [hsteps]
    exact .ok trivial
  all_goals exact .ok trivial

/-- The trees of a region make the same endpoint, elsewhere. -/
theorem lowerRegion_carries {trees : List (ParseTree Rule)}
    (h : ∀ t ∈ trees, ∀ u ∈ t.children, u.rule ≠ .lexeme .endOfInput → PlacedBy f place place' u) :
    Carries (Endpoint.relocate f) (fun _ => True) (lowerRegion place trees)
      (lowerRegion place' trees) := by
  unfold lowerRegion
  split
  · next u hfound =>
    obtain ⟨t, ht, hfirst⟩ := List.exists_of_findSome?_eq_some hfound
    obtain ⟨hu, hrule⟩ := ParseTree.of_firstOf? hfirst
    have hplaced := h t ht u hu (by rw [hrule]; decide)
    unfold lowerEndpoint
    rw [hplaced.place_eq]
    exact PlacedBy.foldlM (fun v hv => hplaced.child hv) (fun e _ _ hv => addPart_carries e hv) trivial
  · exact .error _ _

end EndpointGrammar

/-! ## Flows -/

namespace FlowGrammar

variable {t : ParseTree Rule}

theorem lowerTrigger_carries (h : PlacedBy f place place' t) :
    Carries (Trigger.relocate f) (fun _ => True) (lowerTrigger place t)
      (lowerTrigger place' t) := by
  unfold lowerTrigger
  rw [h.place_eq]
  split
  · exact .ok trivial
  · exact .error _ _

theorem addRetryEntry_carries {r : RetryPolicy} (hr : r.same r = true) (t : ParseTree Rule) :
    Carries (RetryPolicy.relocate f) (fun r => r.same r = true) (addRetryEntry r t)
      (addRetryEntry (r.relocate f) t) := by
  have hbackoff := (RetryPolicy.same_self_iff r).1 hr
  unfold addRetryEntry
  split
  · exact .error _ _
  split
  · exact (Carries.refl _).map fun _ _ => ⟨rfl, (RetryPolicy.same_self_iff _).2 hbackoff⟩
  · next n _ =>
    exact .ok ((RetryPolicy.same_self_iff _).2 (Decimal.ofLiteral_beq_self n.text))
  · exact .ok ((RetryPolicy.same_self_iff _).2 hbackoff)
  · exact .ok ((RetryPolicy.same_self_iff _).2 hbackoff)
  · exact .error _ _
  · exact .error _ _

theorem lowerRetry_carries (h : PlacedBy f place place' t) :
    Carries (RetryPolicy.relocate f) (fun r => r.same r = true) (lowerRetry place t)
      (lowerRetry place' t) := by
  unfold lowerRetry
  rw [h.place_eq]
  exact PlacedBy.foldlM (fun u hu => h.of_mem_childrenOf hu)
    (fun _ u hr _ => addRetryEntry_carries hr u) rfl

mutual

theorem lowerValue_carries : ∀ t : ParseTree Rule, PlacedBy f place place' t →
    Carries (Expr.relocate f) (fun e => e.same e = true) (lowerValue place t)
      (lowerValue place' t)
  | .node rule start stop children, h => by
    have hplace : place' start.offset = f (place start.offset) := h.place_eq
    unfold lowerValue
    dsimp only
    rw [hplace]
    split
    · exact .ok (by simp [Expr.same])
    · exact .ok (Decimal.ofLiteral_beq_self _)
    · exact .ok (by simp [Expr.same])
    · exact .ok (by simp [Expr.same])
    · refine (lowerValues_carries children fun u hu => h.child hu).map fun es hes => ⟨?_, ?_⟩
      · rw [Expr.relocate, Expr.relocateAll_eq_map]
      · exact (Expr.sameAll_self_iff es).2 hes
    · exact .error _ _

theorem lowerValues_carries : ∀ ts : List (ParseTree Rule),
    (∀ t ∈ ts, PlacedBy f place place' t) →
    Carries (List.map (Expr.relocate f)) (fun es => ∀ e ∈ es, e.same e = true)
      (lowerValues place ts) (lowerValues place' ts)
  | [], _ => .ok nofun
  | t :: ts, h => by
    obtain ⟨ht, hts⟩ := List.forall_mem_cons.1 h
    have hvalue := lowerValue_carries t ht
    unfold lowerValues
    generalize lowerValue place t = x at hvalue ⊢
    generalize lowerValue place' t = x' at hvalue ⊢
    cases hvalue with
    | error e e' => exact .error e e'
    | ok he =>
      exact (lowerValues_carries ts hts).map fun es hes =>
        ⟨rfl, List.forall_mem_cons.2 ⟨he, hes⟩⟩

end

theorem lowerInput_carries (h : PlacedBy f place place' t) :
    Carries (Property.relocate f) (fun p => p.same p = true) (lowerInput place t)
      (lowerInput place' t) := by
  unfold lowerInput
  rw [h.place_eq]
  split
  · next key value hchildren =>
    have hvalue : PlacedBy f place place' value := h.child (by simp [hchildren])
    refine (lowerValue_carries value hvalue).map fun e he => ⟨rfl, ?_⟩
    simp [Property.same, he]
  · exact .error _ _

theorem addStepPart_carries {s : Step} (hs : s.same s = true) (h : PlacedBy f place place' t) :
    Carries (Step.relocate f) (fun s => s.same s = true) (addStepPart place s t)
      (addStepPart place' (s.relocate f) t) := by
  obtain ⟨hinput, hretry, hbranches⟩ := s.same_self_iff.1 hs
  cases s
  unfold addStepPart
  split
  case h_4 =>
    have hinputs : Carries (List.map (Property.relocate f)) (fun ps => ∀ p ∈ ps, p.same p = true)
        ((t.childrenOf .inputEntry).mapM (lowerInput place))
        ((t.childrenOf .inputEntry).mapM (lowerInput place')) :=
      .mapM (List.forall₂_same.2 fun u hu => lowerInput_carries (h.of_mem_childrenOf hu))
    refine hinputs.map fun ps hps => ⟨?_, ?_⟩
    · simp [Step.relocate, relocateProperties]
    · refine (Step.same_self_iff _).2 ⟨(sameList_self_iff _).2 fun p hp => ?_, hretry, hbranches⟩
      exact (List.mem_append.1 hp).elim ((sameList_self_iff _).1 hinput p) (hps p)
  case h_6 =>
    exact (lowerRetry_carries h).map fun r hr =>
      ⟨rfl, (Step.same_self_iff _).2 ⟨hinput, hr, hbranches⟩⟩
  all_goals exact .ok ((Step.same_self_iff _).2 ⟨hinput, hretry, hbranches⟩)

theorem lowerStep_carries (h : PlacedBy f place place' t) :
    Carries (Step.relocate f) (fun s => s.same s = true) (lowerStep place t) (lowerStep place' t) := by
  unfold lowerStep
  rw [h.place_eq]
  exact PlacedBy.foldlM (fun u hu => h.child hu) (fun _ _ hs hu => addStepPart_carries hs hu)
    ((Step.same_self_iff _).2 ⟨rfl, rfl, rfl⟩)

theorem addParallelPart_carries {s : Step} (hs : s.same s = true) (h : PlacedBy f place place' t) :
    Carries (Step.relocate f) (fun s => s.same s = true) (addParallelPart place s t)
      (addParallelPart place' (s.relocate f) t) := by
  obtain ⟨hinput, hretry, hbranches⟩ := s.same_self_iff.1 hs
  cases s
  unfold addParallelPart
  split
  · exact .ok ((Step.same_self_iff _).2 ⟨hinput, hretry, hbranches⟩)
  · exact .ok ((Step.same_self_iff _).2 ⟨hinput, hretry, hbranches⟩)
  · refine (lowerStep_carries h).map fun b hb => ⟨?_, ?_⟩
    · simp [Step.relocate, Step.relocateAll_eq_map]
    · exact (Step.same_self_iff _).2 ⟨hinput, hretry, sameList_append_self hbranches hb⟩
  · exact .ok hs

theorem lowerParallel_carries (h : PlacedBy f place place' t) :
    Carries (Step.relocate f) (fun s => s.same s = true) (lowerParallel place t)
      (lowerParallel place' t) := by
  unfold lowerParallel
  rw [h.place_eq]
  exact PlacedBy.foldlM (fun u hu => h.child hu) (fun _ _ hs hu => addParallelPart_carries hs hu)
    ((Step.same_self_iff _).2 ⟨rfl, rfl, rfl⟩)

theorem addFlowPart_carries (isJob : Bool) {j : Job} (hj : j.same j = true)
    (h : PlacedBy f place place' t) :
    Carries (Job.relocate f) (fun j => j.same j = true) (addFlowPart place isJob j t)
      (addFlowPart place' isJob (j.relocate f) t) := by
  have hflow : j.flow.same j.flow = true := (Bool.and_eq_true_iff.1 hj).1
  obtain ⟨hsteps, hretry⟩ := (Flow.same_self_iff j.flow).1 hflow
  have same_of {x : Flow} (c : Option Int) (hx : x.same x = true) :
      (Job.mk x c).same (Job.mk x c) = true := by
    simp [Job.same, hx]
  have add (s : Step) : { j.relocate f with
      flow := { (j.relocate f).flow with steps := (j.relocate f).flow.steps ++ [s.relocate f] } } =
      Job.relocate f { j with flow := { j.flow with steps := j.flow.steps ++ [s] } } := by
    simp [Job.relocate, Flow.relocate, Step.relocateAll_eq_map]
  have same_add {s : Step} (hs : s.same s = true) :
      Job.same { j with flow := { j.flow with steps := j.flow.steps ++ [s] } }
        { j with flow := { j.flow with steps := j.flow.steps ++ [s] } } = true :=
    same_of _ ((Flow.same_self_iff _).2 ⟨sameList_append_self hsteps hs, hretry⟩)
  unfold addFlowPart
  dsimp only
  rw [h.place_eq]
  split
  · exact .ok (same_of _ ((Flow.same_self_iff _).2 ⟨hsteps, hretry⟩))
  · exact (lowerTrigger_carries h).map fun trigger _ =>
      ⟨rfl, same_of _ ((Flow.same_self_iff _).2 ⟨hsteps, hretry⟩)⟩
  · exact .ok (same_of _ ((Flow.same_self_iff _).2 ⟨hsteps, hretry⟩))
  · exact .ok (same_of _ ((Flow.same_self_iff _).2 ⟨hsteps, hretry⟩))
  · split
    · exact .error _ _
    split
    · exact (Carries.refl _).map fun value _ => ⟨rfl, same_of (some value) hflow⟩
    · exact .error _ _
  · exact (lowerRetry_carries h).map fun r hr =>
      ⟨rfl, same_of _ ((Flow.same_self_iff _).2 ⟨hsteps, hr⟩)⟩
  · exact (lowerStep_carries h).map fun s hs => ⟨add s, same_add hs⟩
  · exact (lowerParallel_carries h).map fun s hs => ⟨add s, same_add hs⟩
  · exact .ok hj

theorem lowerParts_carries (isJob : Bool) (h : PlacedBy f place place' t) :
    Carries (Job.relocate f) (fun j => j.same j = true) (lowerParts place isJob t)
      (lowerParts place' isJob t) := by
  unfold lowerParts
  rw [h.place_eq]
  exact PlacedBy.foldlM (fun u hu => h.child hu) (fun _ _ hj hu => addFlowPart_carries isJob hj hu)
    (Bool.and_eq_true_iff.2 ⟨(Flow.same_self_iff _).2 ⟨rfl, rfl⟩, rfl⟩)

/-- The trees of a region make the same workflow or job, elsewhere. -/
theorem lowerRegion_carries {trees : List (ParseTree Rule)}
    (h : ∀ t ∈ trees, ∀ u ∈ t.children, u.rule ≠ .lexeme .endOfInput → PlacedBy f place place' u) :
    Carries (Stmt.relocate f) (fun s => s.same s = true) (lowerRegion place trees)
      (lowerRegion place' trees) := by
  unfold lowerRegion
  split
  · next u hfound =>
    obtain ⟨t, ht, hfirst⟩ := List.exists_of_findSome?_eq_some hfound
    have hplaced : PlacedBy f place place' u := by
      rcases Option.or_eq_some_iff.1 hfirst with hfirst | ⟨-, hfirst⟩
      all_goals
        obtain ⟨hu, hrule⟩ := ParseTree.of_firstOf? hfirst
        exact h t ht u hu (by rw [hrule]; decide)
    unfold lowerFlow
    split
    · refine (lowerParts_carries false hplaced).map fun j hj => ⟨rfl, ?_⟩
      exact (Bool.and_eq_true_iff.1 hj).1
    · exact (lowerParts_carries true hplaced).map fun j hj => ⟨rfl, hj⟩
    · exact .error _ _
  · exact .error _ _

end FlowGrammar

end ServiceLang
