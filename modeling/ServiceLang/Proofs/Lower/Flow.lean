import ServiceLang.Proofs.Grammar.Lexeme
import ServiceLang.Proofs.Lower.Place
import ServiceLang.Proofs.Lower.Stands

/-!
Where lowered flows and endpoints stand.

The nodes below a flow are the values of the inputs of its steps.  They are gathered
part by part, and each part brings values that stand behind the start of the flow
(`addFlowPart_inputs`).  An endpoint has no nodes below it; it stands at its keyword,
behind its annotations.
-/

namespace ServiceLang

open Peg

namespace FlowGrammar

variable {place : Nat → Position} {t : ParseTree Rule}

/-! ## Values -/

/-- A number begins with a digit or a minus sign. -/
theorem head_of_signedNumber (h : IsLeft grammar t) (hr : t.rule = .signedNumber) :
    ∃ x, (x.isDigit ∨ x = '-') ∧ [x] <+: t.start.rest := by
  obtain ⟨f, -, hd⟩ := h.exists_passes
  rw [hr] at hd
  obtain ⟨_, d, _, -, hsign, hnumber⟩ := hd.of_tight (by decide)
  cases hsign with
  | without =>
    obtain ⟨x, hx, hprefix⟩ := head_of_unsignedNumber hnumber
    exact ⟨x, .inl hx, hprefix⟩
  | «with» hsign => exact ⟨'-', .inr rfl, hsign.begins ['-'] 1 (by decide)⟩

mutual

theorem stands_of_lowerValue : (t : ParseTree Rule) → IsLeft grammar t → {e : Expr} →
    lowerValue place t = .ok e → Stands place t.start (.expr e)
  | .node rule start stop children, hleft, e, h => by
    unfold lowerValue at h
    split at h
    · cases h
      exact .leaf rfl (by decide) rfl (hleft.begins ['"'] 1 rfl) rfl
    · cases h
      obtain ⟨x, hx, hprefix⟩ := head_of_signedNumber hleft rfl
      refine .leaf rfl ⟨List.cons_ne_nil x [], fun y hy => ?_⟩ ⟨x, rfl, hx⟩ hprefix rfl
      rw [List.mem_singleton.1 hy]
      rcases hx with hx | rfl
      · exact isBlank_eq_false_of_isWordChar x (isWordChar_of_contains .digit (by decide) hx)
      · decide
    · cases h
      rcases text_of_boolLit (fun _ => rfl) hleft rfl with ht | ht
      · exact .leaf rfl (by decide) (by simp [Expr.BeginsWith, ht, boolText]) (ht ▸ hleft.text_prefix) rfl
      · exact .leaf rfl (by decide) (by simp [Expr.BeginsWith, ht, boolText]) (ht ▸ hleft.text_prefix) rfl
    · cases h
      obtain ⟨hne, hword⟩ := text_of_ident (fun _ => rfl) hleft rfl
      refine .leaf rfl (isToken_of_word hne hword) ?_ hleft.text_prefix rfl
      rw [Expr.BeginsWith, ParseTree.string, String.toList_ofList]
    · obtain ⟨es, hes, rfl⟩ := map_eq_ok h
      have values := stands_of_lowerValues children (fun u hu => (hleft.child rfl hu).1) hes
      refine .of_children ⟨rfl, ⟨['['], by decide, rfl, hleft.begins ['['] 1 rfl⟩, nofun⟩
        fun m hm => ?_
      obtain ⟨e, he, rfl⟩ := List.mem_map.1 hm
      obtain ⟨u, hu, hstands⟩ := exists_partner values he
      exact ⟨u.start, (hleft.child rfl hu).2, hstands⟩
    · cases h

/-- The values of an array stand where their nodes start. -/
theorem stands_of_lowerValues : (ts : List (ParseTree Rule)) → (∀ t ∈ ts, IsLeft grammar t) →
    {es : List Expr} → lowerValues place ts = .ok es →
    List.Forall₂ (fun t e => Stands place t.start (.expr e)) ts es
  | [], _, es, h => by
    cases h
    exact .nil
  | t :: ts, hleft, es, h => by
    rw [lowerValues] at h
    split at h
    · cases h
    next e he =>
    obtain ⟨rest, hrest, rfl⟩ := map_eq_ok h
    exact .cons (stands_of_lowerValue t (hleft t List.mem_cons_self) he)
      (stands_of_lowerValues ts (fun u hu => hleft u (List.mem_cons_of_mem t hu)) hrest)

end

theorem behind_of_lowerInput {p : Property} (h : IsLeft grammar t)
    (hk : (grammar.definition t.rule).kind = .spaced) (hp : lowerInput place t = .ok p) :
    Behind place t.start (.expr p.value) := by
  unfold lowerInput at hp
  split at hp
  · next key value hchildren =>
    obtain ⟨e, he, rfl⟩ := map_eq_ok hp
    obtain ⟨hleft, hreach⟩ := h.child hk (u := value) (by rw [hchildren]; simp)
    exact ⟨value.start, hreach, stands_of_lowerValue value hleft he⟩
  · cases hp

/-! ## Steps -/

theorem addStepPart_inputs {s s' : Step} {u : ParseTree Rule} {c : Cursor} (h : IsLeft grammar u)
    (hs' : addStepPart place s u = .ok s') (hc : c.Reaches u.start) (hs : ValuesBehind place c s.inputs) :
    ValuesBehind place c s'.inputs := by
  rw [Step.inputs_eq] at hs ⊢
  unfold addStepPart at hs'
  split at hs'
  · cases hs'; exact hs
  · cases hs'; exact hs
  · cases hs'; exact hs
  · next hr =>
    obtain ⟨inputs, hinputs, rfl⟩ := map_eq_ok hs'
    have hnew : ValuesBehind place c inputs := fun p hp => by
      obtain ⟨v, hv, hlower⟩ := exists_partner (forall₂_of_mapM hinputs) hp
      obtain ⟨hleft, hreach, hvr⟩ := h.of_mem_childrenOf (by rw [hr]; rfl) hv
      exact (behind_of_lowerInput hleft (by rw [hvr]; rfl) hlower).of_reaches (hc.trans hreach)
    rw [ValuesBehind, List.forall_mem_append] at hs ⊢
    exact ⟨List.forall_mem_append.2 ⟨hs.1, hnew⟩, hs.2⟩
  · cases hs'; exact hs
  · obtain ⟨r, -, rfl⟩ := map_eq_ok hs'
    exact hs
  · cases hs'; exact hs
  · cases hs'; exact hs

theorem lowerStep_inputs {s : Step} (h : IsLeft grammar t) (hr : t.rule = .stepDecl)
    (hs : lowerStep place t = .ok s) : ValuesBehind place t.start s.inputs := by
  have hk : (grammar.definition t.rule).kind = .spaced := by rw [hr]; rfl
  exact Lowered.foldlM_keeps (fun s => ValuesBehind place t.start s.inputs) _ _ _ s
    (fun _ u hu _ hs' hs => addStepPart_inputs (h.child hk hu).1 hs' (h.child hk hu).2 hs) hs nofun

/-- Steps are added one by one, each with inputs that stand behind its own start. -/
theorem valuesBehind_concat {steps : List Step} {s : Step} {c d : Cursor} (hc : c.Reaches d)
    (hsteps : ValuesBehind place c (steps.flatMap Step.inputs)) (hs : ValuesBehind place d s.inputs) :
    ValuesBehind place c ((steps ++ [s]).flatMap Step.inputs) := by
  rw [List.flatMap_append, List.flatMap_singleton]
  exact List.forall_mem_append.2 ⟨hsteps, fun p hp => (hs p hp).of_reaches hc⟩

theorem addParallelPart_inputs {s s' : Step} {u : ParseTree Rule} {c : Cursor} (h : IsLeft grammar u)
    (hs' : addParallelPart place s u = .ok s') (hc : c.Reaches u.start)
    (hs : ValuesBehind place c s.inputs) : ValuesBehind place c s'.inputs := by
  rw [Step.inputs_eq] at hs ⊢
  unfold addParallelPart at hs'
  split at hs'
  · cases hs'; exact hs
  · cases hs'; exact hs
  · next hr =>
    obtain ⟨b, hb, rfl⟩ := map_eq_ok hs'
    rw [ValuesBehind, List.forall_mem_append] at hs ⊢
    exact ⟨hs.1, valuesBehind_concat hc hs.2 (lowerStep_inputs h hr hb)⟩
  · cases hs'; exact hs

theorem lowerParallel_inputs {s : Step} (h : IsLeft grammar t) (hr : t.rule = .parallelStep)
    (hs : lowerParallel place t = .ok s) : ValuesBehind place t.start s.inputs := by
  have hk : (grammar.definition t.rule).kind = .spaced := by rw [hr]; rfl
  exact Lowered.foldlM_keeps (fun s => ValuesBehind place t.start s.inputs) _ _ _ s
    (fun _ u hu _ hs' hs => addParallelPart_inputs (h.child hk hu).1 hs' (h.child hk hu).2 hs) hs nofun

/-! ## Flows -/

/-- A part of a flow keeps the steps, or adds one whose inputs stand where it does. -/
theorem addFlowPart_inputs {isJob : Bool} {j k : Job} {u : ParseTree Rule} {c : Cursor}
    (h : IsLeft grammar u) (hk : addFlowPart place isJob j u = .ok k) (hc : c.Reaches u.start)
    (hj : ValuesBehind place c (j.flow.steps.flatMap Step.inputs)) :
    ValuesBehind place c (k.flow.steps.flatMap Step.inputs) := by
  unfold addFlowPart at hk
  dsimp only at hk
  split at hk
  · cases hk; exact hj
  · obtain ⟨trigger, -, rfl⟩ := map_eq_ok hk
    exact hj
  · cases hk; exact hj
  · cases hk; exact hj
  · split at hk
    · cases hk
    split at hk
    · obtain ⟨n, -, rfl⟩ := map_eq_ok hk
      exact hj
    · cases hk
  · obtain ⟨r, -, rfl⟩ := map_eq_ok hk
    exact hj
  · next hr =>
    obtain ⟨s, hs, rfl⟩ := map_eq_ok hk
    exact valuesBehind_concat hc hj (lowerStep_inputs h hr hs)
  · next hr =>
    obtain ⟨s, hs, rfl⟩ := map_eq_ok hk
    exact valuesBehind_concat hc hj (lowerParallel_inputs h hr hs)
  · cases hk; exact hj

theorem lowerParts_inputs {isJob : Bool} {j : Job} (h : IsLeft grammar t)
    (hk : (grammar.definition t.rule).kind = .spaced) (hj : lowerParts place isJob t = .ok j) :
    ValuesBehind place t.start (j.flow.steps.flatMap Step.inputs) :=
  Lowered.foldlM_keeps (fun j => ValuesBehind place t.start (j.flow.steps.flatMap Step.inputs)) _ _ _ j
    (fun _ _ hu _ hj' hj => addFlowPart_inputs (h.child hk hu).1 hj' (h.child hk hu).2 hj) hj nofun

/-- A flow stands where its declaration starts. -/
theorem stands_of_lowerFlow {s : Stmt} (h : IsLeft grammar t) (hs : lowerFlow place t = .ok s) :
    Stands place t.start (.stmt s) := by
  have hpos : s.pos = place t.start.offset := by rw [(lowerFlow_pos hs).1, t.offset_eq]
  unfold lowerFlow at hs
  split at hs
  · next hr =>
    obtain ⟨j, hj, rfl⟩ := map_eq_ok hs
    exact .of_keyword "workflow".toList h hpos (by decide) rfl (by rw [hr]; decide) nofun
      (lowerParts_inputs h (by rw [hr]; rfl) hj).nodes
  · next hr =>
    obtain ⟨j, hj, rfl⟩ := map_eq_ok hs
    exact .of_keyword "job".toList h hpos (by decide) rfl (by rw [hr]; decide) nofun
      (lowerParts_inputs h (by rw [hr]; rfl) hj).nodes
  · cases hs

theorem behind_of_lowerRegion {text : List Char} {trees : List (ParseTree Rule)} {s : Stmt}
    (h : grammar.parse .workflowFile text = .ok trees) (hs : lowerRegion place trees = .ok s) :
    Behind place (.start text) (.stmt s) := by
  obtain ⟨d, hd⟩ := derives_of_parse .workflowFile text trees h
  unfold lowerRegion at hs
  split at hs
  · next t ht =>
    obtain ⟨u, hu, hut⟩ := List.exists_of_findSome?_eq_some ht
    have htu : t ∈ u.children := by
      rcases Option.or_eq_some_iff.1 hut with hw | ⟨-, hj⟩
      · exact List.mem_of_find?_eq_some hw
      · exact List.mem_of_find?_eq_some hj
    obtain ⟨inner, rfl, -⟩ := hd.of_spaced rfl
    rw [List.mem_singleton.1 hu] at htu
    obtain ⟨hleft, hreach⟩ := hd.isLeft (List.mem_singleton_self _)
    obtain ⟨hleft, hreach'⟩ := hleft.child rfl htu
    exact ⟨t.start, hreach.trans hreach', stands_of_lowerFlow hleft hs⟩
  · cases hs

end FlowGrammar

namespace EndpointGrammar

variable {place : Nat → Position} {t : ParseTree Rule}

theorem lowerEndpoint_pos_keyword {e : Endpoint} {u : ParseTree Rule} (h : lowerEndpoint place t = .ok e)
    (hu : u ∈ t.children) (hr : u.rule = .word .endpoint) :
    ∃ v ∈ t.children, v.rule = .word .endpoint ∧ e.pos = place v.offset := by
  obtain ⟨before, behind, hsplit⟩ := List.append_of_mem hu
  have mem : ∀ v ∈ behind, v ∈ t.children := fun v hv => by
    rw [hsplit]
    exact List.mem_append_right _ (List.mem_cons_of_mem u hv)
  unfold lowerEndpoint at h
  rw [hsplit, List.foldlM_append] at h
  obtain ⟨e₁, -, h⟩ := Lowered.bind_eq_ok h
  rw [List.foldlM_cons] at h
  obtain ⟨e₂, he₂, h⟩ := Lowered.bind_eq_ok h
  refine Lowered.foldlM_keeps (fun e => ∃ v ∈ t.children, v.rule = .word .endpoint ∧
    e.pos = place v.offset) _ _ _ e (fun e v hv f hf he => ?_) h ⟨u, hu, hr, ?_⟩
  · rcases addPart_pos hf with hpos | ⟨hvr, hpos⟩
    · rwa [hpos]
    · exact ⟨v, mem v hv, hvr, hpos⟩
  · unfold addPart at he₂
    rw [hr] at he₂
    cases he₂
    rfl

/-- The endpoint of a region stands at its keyword. -/
theorem behind_of_lowerRegion {text : List Char} {trees : List (ParseTree Rule)} {e : Endpoint}
    (h : grammar.parse .endpointFile text = .ok trees) (he : lowerRegion place trees = .ok e) :
    Behind place (.start text) (.stmt (.endpoint e)) := by
  obtain ⟨d, hd⟩ := derives_of_parse .endpointFile text trees h
  unfold lowerRegion at he
  split at he
  · next t ht =>
    obtain ⟨u, hu, hut⟩ := List.exists_of_findSome?_eq_some ht
    have htr : t.rule = .endpointDecl := by simpa using List.find?_some hut
    obtain ⟨inner, rfl, -⟩ := hd.of_spaced rfl
    rw [List.mem_singleton.1 hu] at hut
    obtain ⟨hleft, hreach⟩ := hd.isLeft (List.mem_singleton_self _)
    obtain ⟨hleft, hreach'⟩ := hleft.child rfl (List.mem_of_find?_eq_some hut)
    have hk : (grammar.definition t.rule).kind = .spaced := by rw [htr]; rfl
    have keyword : ∃ k ∈ t.children, k.rule = .word .endpoint := by
      obtain ⟨f, hd⟩ := hleft.spaced hk
      rw [htr] at hd
      obtain ⟨_, _, _, hchildren, -, hd⟩ := hd.of_andThen
      obtain ⟨k, more, rfl, hkr, -⟩ := hd.exists_first_node rfl (by decide)
      exact ⟨k, by rw [hchildren]; simp, hkr⟩
    obtain ⟨k, hk', hkr⟩ := keyword
    obtain ⟨k, hk', hkr, hpos⟩ := lowerEndpoint_pos_keyword he hk' hkr
    obtain ⟨hkleft, hkreach⟩ := hleft.child hk hk'
    refine ⟨k.start, (hreach.trans hreach').trans hkreach, ?_⟩
    exact .of_keyword "endpoint".toList hkleft (by rw [← k.offset_eq]; exact hpos) (by decide) rfl
      (by rw [hkr]; decide) nofun nofun
  · cases he

end EndpointGrammar

end ServiceLang
