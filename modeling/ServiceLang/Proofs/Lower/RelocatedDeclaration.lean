import ServiceLang.Lower.Declaration
import ServiceLang.Proofs.Lower.RelocatedExpr

/-!
Alike trees make the same declarations, elsewhere.

One lemma for each declaration of main text.  What is lowered without a check is the same
declaration with its positions replaced; what a check may refuse is refused of both trees or
of neither.
-/

namespace ServiceLang.MainGrammar

open Peg

variable {f : Position → Position} {place place' : Nat → Position} {t t' : ParseTree Rule}

/-! ## Properties -/

theorem stringIn?_alike (h : AlikeTrees f place place' t t') : stringIn? t' = stringIn? t := by
  have hfirst := h.firstOf? (.lexeme .string)
  unfold stringIn?
  generalize t.firstOf? (.lexeme .string) = o at hfirst
  generalize t'.firstOf? (.lexeme .string) = o' at hfirst
  cases hfirst with
  | none => rfl
  | some hu =>
    rw [Option.map_some, Option.map_some, hu.2.text_eq (hu.1 ▸ by decide)]

theorem exprIn_carries (h : AlikeTrees f place place' t t') :
    Carries (Expr.relocate f) (fun e => e.same e = true) (exprIn place t) (exprIn place' t') := by
  have hfirst := h.firstOf? .expr
  unfold exprIn
  generalize t.firstOf? .expr = o at hfirst
  generalize t'.firstOf? .expr = o' at hfirst
  cases hfirst with
  | none => exact .error _ _
  | some hu => exact lowerExpr_carries hu.2

theorem lowerProperty_carries (h : AlikeTrees f place place' t t') :
    Carries (Property.relocate f) (fun p => p.same p = true) (lowerProperty place t)
      (lowerProperty place' t') := by
  unfold lowerProperty
  refine (exprIn_carries h).bind fun e he => ?_
  rw [h.place_eq, ← h.textOf_eq (by decide)]
  exact Carries.ok (show Property.same _ _ = true by simp [Property.same, he])

theorem propertiesIn_carries (h : AlikeTrees f place place' t t') :
    Carries (relocateProperties f) (fun ps => sameProperties ps ps = true) (propertiesIn place t)
      (propertiesIn place' t') := by
  have hall : Carries (List.map (Property.relocate f)) (fun ps => ∀ p ∈ ps, p.same p = true)
      ((t.childrenOf .property).mapM (lowerProperty place))
      ((t'.childrenOf .property).mapM (lowerProperty place')) :=
    .mapM (List.Forall₂.imp (fun _ _ hu => lowerProperty_carries hu.2) (h.childrenOf .property))
  unfold propertiesIn
  generalize (t.childrenOf .property).mapM (lowerProperty place) = x at hall
  generalize (t'.childrenOf .property).mapM (lowerProperty place') = x' at hall
  cases hall with
  | error e e' => exact .error e e'
  | ok hps => exact .ok ((sameList_self_iff _).2 hps)

theorem identIn_alike (h : AlikeTrees f place place' t t') : identIn t' = identIn t :=
  (h.textOf_eq (by decide)).symm

theorem lowerPropertyBlock_carries (h : AlikeTrees f place place' t t') :
    Carries (PropertyBlock.relocate f) (fun b => b.same b = true) (lowerPropertyBlock place t)
      (lowerPropertyBlock place' t') := by
  unfold lowerPropertyBlock
  refine (propertiesIn_carries h).bind fun ps hps => ?_
  rw [h.place_eq, identIn_alike h]
  exact Carries.ok (show PropertyBlock.same _ _ = true by simp [PropertyBlock.same, hps])

/-! ## Configuration and schemas -/

theorem lowerConfig_carries (h : AlikeTrees f place place' t t') :
    Carries (Config.relocate f) (fun c => c.same c = true) (lowerConfig place t)
      (lowerConfig place' t') := by
  unfold lowerConfig
  refine (propertiesIn_carries h).bind fun ps hps => ?_
  rw [h.place_eq, Property.string?_relocate]
  exact Carries.ok (show Config.same _ _ = true by simp [Config.same, hps])

theorem lowerModifier_alike (h : AlikeTrees f place place' t t') :
    lowerModifier place' t' = (lowerModifier place t).relocate f := by
  have hbare := h.find? fun r => r = .lexeme .number || r = .lexeme .boolLit || r = .fieldPath
  have hstring : (t'.children.find? fun c =>
      c.rule = .lexeme .number || c.rule = .lexeme .boolLit || c.rule = .fieldPath).map
        ParseTree.string = (t.children.find? fun c =>
      c.rule = .lexeme .number || c.rule = .lexeme .boolLit || c.rule = .fieldPath).map
        ParseTree.string := by
    generalize t.children.find? _ = o at hbare ⊢
    generalize t'.children.find? _ = o' at hbare ⊢
    cases hbare with
    | none => rfl
    | @some u u' hu =>
      have hread : isRead u.rule := by
        obtain hr | hr | hr : u.rule = .lexeme .number ∨ u.rule = .lexeme .boolLit ∨
          u.rule = .fieldPath := by simpa [or_assoc] using hu.1
        all_goals rw [hr]; decide
      rw [Option.map_some, Option.map_some, hu.2.string_eq hread]
  unfold lowerModifier
  dsimp only
  rw [h.place_eq, ← h.textOf_eq (by decide), stringIn?_alike h, hstring]
  rfl

mutual

theorem lowerField_alike {t t' : ParseTree Rule} (h : AlikeTrees f place place' t t') :
    lowerField place' t' = (lowerField place t).relocate f := by
  obtain ⟨rule, start, stop, children⟩ := t
  obtain ⟨rule', start', stop', children'⟩ := t'
  have hplace : place' start'.offset = f (place start.offset) := h.place_eq
  have hfields : lowerFields place' children' = Field.relocateAll f (lowerFields place children) :=
    lowerFields_alike h.children
  unfold lowerField Field.relocate
  dsimp only
  rw [hplace, ← h.textOf_eq (r := .fieldName) (by decide), ← h.textOf_eq (r := .typeName) (by decide),
    h.map_childrenOf .modifier fun _ _ _ hu => lowerModifier_alike hu, hfields]

theorem lowerFields_alike {ts ts' : List (ParseTree Rule)}
    (h : List.Forall₂ (AlikeTrees f place place') ts ts') :
    lowerFields place' ts' = Field.relocateAll f (lowerFields place ts) := by
  cases h with
  | nil => rfl
  | @cons t t' ts ts' ht hts =>
    unfold lowerFields
    rw [← AlikeTrees.rule_eq ht, lowerFields_alike hts]
    split
    · rw [lowerField_alike ht, Field.relocateAll]
    · rfl

end

theorem lowerIndex_alike (h : AlikeTrees f place place' t t') :
    lowerIndex place' t' = (lowerIndex place t).relocate f := by
  unfold lowerIndex
  rw [h.place_eq, h.textsOf_eq (by decide), ← h.has_eq]
  rfl

theorem lowerModel_alike (h : AlikeTrees f place place' t t') :
    lowerModel place' t' = (lowerModel place t).relocate f := by
  unfold lowerModel
  rw [h.place_eq, identIn_alike h, stringIn?_alike h, lowerFields_alike h.children,
    h.map_childrenOf .indexDecl fun _ _ _ hu => lowerIndex_alike hu]
  rfl

theorem lowerModels_alike {ts ts' : List (ParseTree Rule)}
    (h : List.Forall₂ (AlikeTrees f place place') ts ts') :
    lowerModels place' ts' = Stmt.relocateAll f (lowerModels place ts) := by
  unfold lowerModels
  induction h with
  | nil => rfl
  | @cons t t' ts ts' ht hts ih =>
    rw [List.filterMap_cons, List.filterMap_cons, ← AlikeTrees.rule_eq ht, ih,
      lowerModel_alike ht]
    cases t.rule <;> rfl

theorem same_lowerModels (ts : List (ParseTree Rule)) :
    Stmt.sameAll (lowerModels place ts) (lowerModels place ts) = true := by
  refine (Stmt.sameAll_self_iff _).2 fun s hs => ?_
  obtain ⟨t, -, ht⟩ := List.mem_filterMap.1 hs
  split at ht
  · exact Option.some.inj ht ▸ Model.same_self _
  · exact Option.some.inj ht ▸ Model.same_self _
  · cases ht

theorem lowerDatabase_alike (h : AlikeTrees f place place' t t') :
    lowerDatabase place' t' = (lowerDatabase place t).relocate f := by
  unfold lowerDatabase
  rw [h.place_eq, ← h.textOf_eq (by decide), lowerModels_alike h.children]
  rfl

/-! ## Access control -/

theorem map_string_firstOf? (h : AlikeTrees f place place' t t') {r : Rule} (hr : isRead r) :
    (t'.firstOf? r).map ParseTree.string = (t.firstOf? r).map ParseTree.string := by
  have hfirst := h.firstOf? r
  generalize t.firstOf? r = o at hfirst ⊢
  generalize t'.firstOf? r = o' at hfirst ⊢
  cases hfirst with
  | none => rfl
  | some hu => rw [Option.map_some, Option.map_some, hu.2.string_eq (hu.1 ▸ hr)]

theorem lowerAuth_carries (h : AlikeTrees f place place' t t') :
    Carries (Auth.relocate f) (fun a => a.same a = true) (lowerAuth place t)
      (lowerAuth place' t') := by
  unfold lowerAuth
  refine (propertiesIn_carries h).bind fun ps hps => ?_
  rw [h.place_eq, map_string_firstOf? h (by decide)]
  exact Carries.ok (show Auth.same _ _ = true by simp [Auth.same, hps])

/-! ## Events -/

theorem lowerEventField_alike (h : AlikeTrees f place place' t t') :
    lowerEventField place' t' = (lowerEventField place t).relocate f := by
  unfold lowerEventField
  rw [h.place_eq, ← h.textOf_eq (r := .fieldName) (by decide),
    ← h.textOf_eq (r := .typeName) (by decide), ← h.has_eq]
  rfl

theorem lowerEvent_alike (h : AlikeTrees f place place' t t') :
    lowerEvent place' t' = (lowerEvent place t).relocate f := by
  unfold lowerEvent
  dsimp only
  rw [h.place_eq, ← h.textOf_eq (by decide), ← h.rel.last_eq,
    h.map_childrenOf .schemaField fun _ _ _ hu => lowerEventField_alike hu]
  split <;> rfl

theorem lowerEventHandler_alike (h : AlikeTrees f place place' t t') :
    lowerEventHandler place' t' = (lowerEventHandler place t).relocate f := by
  unfold lowerEventHandler
  rw [h.place_eq, h.textsOf_eq (by decide), ← h.textOf_eq (by decide), ← h.has_eq]
  rfl

/-! ## Integrations and webhooks -/

theorem signedNumber?_relocate (e : Expr) : signedNumber? (e.relocate f) = signedNumber? e := by
  cases e with
  | unary _ op operand => cases op <;> simp [Expr.relocate, signedNumber?]
  | _ => rfl

theorem breakerLimit_carries (offset offset' : Nat) (p : Property) :
    Carries id (fun _ => True) (breakerLimit offset p) (breakerLimit offset' (p.relocate f)) := by
  unfold breakerLimit
  rw [show (p.relocate f).value = p.value.relocate f from rfl, signedNumber?_relocate]
  cases signedNumber? p.value with
  | none => exact .error _ _
  | some value =>
    dsimp only
    split
    · exact .ok trivial
    · exact .error _ _

theorem addBreakerProperty_carries (breaker : CircuitBreaker) (h : AlikeTrees f place place' t t') :
    Carries (CircuitBreaker.relocate f) (fun _ => True) (addBreakerProperty place breaker t)
      (addBreakerProperty place' (breaker.relocate f) t') := by
  unfold addBreakerProperty
  refine (lowerProperty_carries h).bind fun p _ => ?_
  have hlimit := breakerLimit_carries (f := f) t.offset t'.offset p
  have hstring : (p.relocate f).value.string? = p.value.string? := Expr.string?_relocate f p.value
  rw [show (p.relocate f).key = p.key from rfl]
  split
  · exact hlimit.bind fun n _ => .ok trivial
  · exact hlimit.bind fun n _ => .ok trivial
  · rw [hstring]
    exact .ok trivial
  · exact .ok trivial

theorem lowerCircuitBreaker_carries (h : AlikeTrees f place place' t t') :
    Carries (CircuitBreaker.relocate f) (fun _ => True) (lowerCircuitBreaker place t)
      (lowerCircuitBreaker place' t') := by
  unfold lowerCircuitBreaker
  rw [h.place_eq]
  exact Carries.foldlM (h.childrenOf .property) (fun b _ _ _ hu => addBreakerProperty_carries b hu.2)
    trivial

theorem lowerIntegrationAuth_carries (h : AlikeTrees f place place' t t') :
    Carries (IntegrationAuth.relocate f) (fun a => a.same a = true) (lowerIntegrationAuth place t)
      (lowerIntegrationAuth place' t') := by
  unfold lowerIntegrationAuth
  refine (propertiesIn_carries h).bind fun ps hps => ?_
  rw [h.place_eq, identIn_alike h]
  exact Carries.ok (show IntegrationAuth.same _ _ = true by simp [IntegrationAuth.same, hps])

theorem addIntegrationPart_carries {i : Integration} (hi : i.same i = true)
    (h : AlikeTrees f place place' t t') :
    Carries (Integration.relocate f) (fun i => i.same i = true) (addIntegrationPart place i t)
      (addIntegrationPart place' (i.relocate f) t') := by
  simp only [Integration.same, Bool.and_eq_true] at hi
  obtain ⟨⟨⟨⟨hname, hurl⟩, hauth⟩, hbreaker⟩, hps⟩ := hi
  unfold addIntegrationPart
  rw [← h.rule_eq]
  split
  · refine (lowerIntegrationAuth_carries h).bind fun a ha => ?_
    refine Carries.ok (show Integration.same _ _ = true from ?_)
    simp [Integration.same, ha, hbreaker, hps]
  · refine (lowerCircuitBreaker_carries h).bind fun b _ => ?_
    refine Carries.ok (show Integration.same _ _ = true from ?_)
    simp [Integration.same, hauth, b.same_self, hps]
  · refine (lowerProperty_carries h).bind fun p hp => ?_
    rw [show (p.relocate f).key = p.key from rfl]
    split
    · rw [show (p.relocate f).value.string? = _ from Expr.string?_relocate f p.value]
      refine Carries.ok (show Integration.same _ _ = true from ?_)
      simp [Integration.same, hauth, hbreaker, hps]
    · have hall : sameProperties (i.properties ++ [p]) (i.properties ++ [p]) = true :=
        sameList_append_self hps hp
      have hrelocated : (i.relocate f).properties ++ [p.relocate f] =
          relocateProperties f (i.properties ++ [p]) := by simp [relocateProperties, Integration.relocate]
      rw [hrelocated]
      refine Carries.ok (show Integration.same _ _ = true from ?_)
      simp [Integration.same, hauth, hbreaker, hall]
  · refine Carries.ok (show Integration.same _ _ = true from ?_)
    simp [Integration.same, hauth, hbreaker, hps]

theorem lowerIntegration_carries (h : AlikeTrees f place place' t t') :
    Carries (Integration.relocate f) (fun i => i.same i = true) (lowerIntegration place t)
      (lowerIntegration place' t') := by
  unfold lowerIntegration
  rw [h.place_eq, identIn_alike h]
  exact Carries.foldlM h.children (fun _ _ _ hi hu => addIntegrationPart_carries hi hu)
    (by simp [Integration.same, sameProperties, sameList])

theorem listedEvent_relocate (e : Expr) : listedEvent (e.relocate f) = listedEvent e := by
  cases e with
  | ident | string => rfl
  | _ => exact Expr.display_relocate f _

theorem addWebhookProperty_relocate (w : Webhook) (p : Property) :
    addWebhookProperty (w.relocate f) (p.relocate f) = (addWebhookProperty w p).relocate f := by
  unfold addWebhookProperty
  rw [show (p.relocate f).key = p.key from rfl,
    show (p.relocate f).value = p.value.relocate f from rfl, Expr.string?_relocate]
  split
  · rfl
  · rfl
  · cases hvalue : p.value with
    | array pos es =>
      have hnames : (Expr.relocateAll f es).map listedEvent = es.map listedEvent := by
        rw [Expr.relocateAll_eq_map, List.map_map]
        exact List.map_congr_left fun e _ => listedEvent_relocate e
      rw [Expr.relocate]
      dsimp only
      rw [hnames]
      rfl
    | _ => rfl
  · simp [Webhook.relocate, relocateProperties]

theorem same_addWebhookProperty {w : Webhook} {p : Property} (hw : w.same w = true)
    (hp : p.same p = true) : (addWebhookProperty w p).same (addWebhookProperty w p) = true := by
  have hps : sameProperties w.properties w.properties = true := (Bool.and_eq_true_iff.1 hw).2
  have hall : sameProperties (w.properties ++ [p]) (w.properties ++ [p]) = true :=
    sameList_append_self hps hp
  unfold addWebhookProperty
  split
  case h_3 => split <;> simp [Webhook.same, hps]
  all_goals simp [Webhook.same, hps, hall]

theorem foldl_addWebhookProperty_relocate (ps : List Property) (w : Webhook) :
    (relocateProperties f ps).foldl addWebhookProperty (w.relocate f) =
      (ps.foldl addWebhookProperty w).relocate f := by
  induction ps generalizing w with
  | nil => rfl
  | cons p ps ih =>
    rw [relocateProperties, List.map_cons, List.foldl_cons, addWebhookProperty_relocate]
    exact ih _

theorem same_foldl_addWebhookProperty {ps : List Property} (hps : ∀ p ∈ ps, p.same p = true)
    {w : Webhook} (hw : w.same w = true) :
    (ps.foldl addWebhookProperty w).same (ps.foldl addWebhookProperty w) = true := by
  induction ps generalizing w with
  | nil => exact hw
  | cons p ps ih =>
    exact ih (fun q hq => hps q (List.mem_cons_of_mem _ hq))
      (same_addWebhookProperty hw (hps p List.mem_cons_self))

theorem lowerWebhook_carries (h : AlikeTrees f place place' t t') :
    Carries (Webhook.relocate f) (fun w => w.same w = true) (lowerWebhook place t)
      (lowerWebhook place' t') := by
  unfold lowerWebhook
  refine (propertiesIn_carries h).bind fun ps hps => ?_
  rw [h.place_eq, identIn_alike h]
  have heq := foldl_addWebhookProperty_relocate (f := f) ps
    ⟨place t.offset, identIn t, none, [], none, []⟩
  exact heq ▸ Carries.ok (same_foldl_addWebhookProperty ((sameList_self_iff _).1 hps)
    (by simp [Webhook.same, sameProperties, sameList]))

/-! ## Declarations -/

/-- Alike nodes are both no declarations, or make the same one, elsewhere. -/
theorem lowerDeclaration?_alike (h : AlikeTrees f place place' t t') :
    Option.Rel (Carries (Stmt.relocate f) fun s => s.same s = true) (lowerDeclaration? place t)
      (lowerDeclaration? place' t') := by
  unfold lowerDeclaration?
  rw [← h.rule_eq]
  split
  · exact .some ((lowerConfig_carries h).map fun _ hc => ⟨rfl, hc⟩)
  · rw [lowerDatabase_alike h]
    exact .some (.ok (by simp [lowerDatabase, Stmt.same, same_lowerModels]))
  · exact .some ((lowerAuth_carries h).map fun _ ha => ⟨rfl, ha⟩)
  · exact .some ((lowerPropertyBlock_carries h).map fun _ hb => ⟨rfl, hb⟩)
  · exact .some ((lowerPropertyBlock_carries h).map fun _ hb => ⟨rfl, hb⟩)
  · rw [lowerEvent_alike h]
    exact .some (Carries.ok (show Stmt.same (.event _) _ = true from Event.same_self _))
  · rw [lowerEventHandler_alike h]
    exact .some (Carries.ok (show Stmt.same (.eventHandler _) _ = true from EventHandler.same_self _))
  · exact .some ((lowerIntegration_carries h).map fun _ hi => ⟨rfl, hi⟩)
  · exact .some ((lowerWebhook_carries h).map fun _ hw => ⟨rfl, hw⟩)
  · exact .none

end ServiceLang.MainGrammar
