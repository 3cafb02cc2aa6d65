import ServiceLang.Proofs.Lower.Operand
import ServiceLang.Proofs.Lower.Place

/-!
Where lowered statements stand.

A statement stands where its node starts, with the word or the name it begins with
ahead (`stands_of_lowerStmt`).  Declarations keep what is below them in properties;
the parts of general statements are expressions and statements that stand behind the
start of the node.  The block that an `else if` makes stands where the `if` does.
-/

namespace ServiceLang.MainGrammar

open Peg

variable {place : Nat → Position} {t : ParseTree Rule}

/-! ## Properties -/

theorem behind_of_lowerProperty {p : Property} (h : IsLeft grammar t)
    (hk : (grammar.definition t.rule).kind = .spaced) (hp : lowerProperty place t = .ok p) :
    Behind place t.start (.expr p.value) := by
  obtain ⟨e, he, hp⟩ := Lowered.bind_eq_ok hp
  cases hp
  unfold exprIn at he
  split at he
  · next u hu =>
    obtain ⟨hleft, hreach⟩ := h.child hk (List.mem_of_find?_eq_some hu)
    exact (operand_of_lowerExpr u hleft he).behind.of_reaches hreach
  · cases he

theorem valuesBehind_of_propertiesIn {properties : List Property} (h : IsLeft grammar t)
    (hk : (grammar.definition t.rule).kind = .spaced)
    (hp : propertiesIn place t = .ok properties) : ValuesBehind place t.start properties := by
  intro p hmem
  obtain ⟨u, hu, hlower⟩ := exists_partner (forall₂_of_mapM hp) hmem
  obtain ⟨hleft, hreach, hr⟩ := h.of_mem_childrenOf hk hu
  exact (behind_of_lowerProperty hleft (by rw [hr]; rfl) hlower).of_reaches hreach

/-! ## Declarations -/

theorem lowerPropertyBlock_properties {b : PropertyBlock} (h : IsLeft grammar t)
    (hk : (grammar.definition t.rule).kind = .spaced) (hb : lowerPropertyBlock place t = .ok b) :
    ValuesBehind place t.start b.properties := by
  obtain ⟨properties, hp, hb⟩ := Lowered.bind_eq_ok hb
  cases hb
  exact valuesBehind_of_propertiesIn h hk hp

theorem lowerAuth_properties {a : Auth} (h : IsLeft grammar t)
    (hk : (grammar.definition t.rule).kind = .spaced) (ha : lowerAuth place t = .ok a) :
    ValuesBehind place t.start a.properties := by
  obtain ⟨properties, hp, ha⟩ := Lowered.bind_eq_ok ha
  cases ha
  exact valuesBehind_of_propertiesIn h hk hp

theorem lowerConfig_properties {c : Config} (h : IsLeft grammar t)
    (hk : (grammar.definition t.rule).kind = .spaced) (hc : lowerConfig place t = .ok c) :
    ValuesBehind place t.start c.properties := by
  obtain ⟨properties, hp, hc⟩ := Lowered.bind_eq_ok hc
  cases hc
  exact valuesBehind_of_propertiesIn h hk hp

/-- A part of an integration brings its own properties. -/
theorem addIntegrationPart_properties {i j : Integration} {u : ParseTree Rule}
    (h : IsLeft grammar u) (hj : addIntegrationPart place i u = .ok j) {c : Cursor}
    (hc : c.Reaches u.start) (hi : ValuesBehind place c i.allProperties) :
    ValuesBehind place c j.allProperties := by
  have own : ∀ p ∈ i.properties, Behind place c (.expr p.value) :=
    fun p hp => hi p (List.mem_append_right _ hp)
  unfold addIntegrationPart at hj
  split at hj
  · next hr =>
    obtain ⟨a, ha, hj⟩ := Lowered.bind_eq_ok hj
    cases hj
    obtain ⟨properties, hp, ha⟩ := Lowered.bind_eq_ok ha
    cases ha
    intro p hmem
    rcases List.mem_append.1 hmem with hmem | hmem
    · exact (valuesBehind_of_propertiesIn h (by rw [hr]; rfl) hp p hmem).of_reaches hc
    · exact own p hmem
  · obtain ⟨b, -, hj⟩ := Lowered.bind_eq_ok hj
    cases hj
    exact hi
  · next hr =>
    obtain ⟨q, hq, hj⟩ := Lowered.bind_eq_ok hj
    have behind := (behind_of_lowerProperty h (by rw [hr]; rfl) hq).of_reaches hc
    split at hj
    · cases hj
      exact hi
    · cases hj
      intro p hmem
      rcases List.mem_append.1 hmem with hmem | hmem
      · exact hi p (List.mem_append_left _ hmem)
      rcases List.mem_append.1 hmem with hmem | hmem
      · exact own p hmem
      · rw [List.mem_singleton.1 hmem]
        exact behind
  · cases hj
    exact hi

theorem lowerIntegration_properties {i : Integration} (h : IsLeft grammar t)
    (hk : (grammar.definition t.rule).kind = .spaced) (hi : lowerIntegration place t = .ok i) :
    ValuesBehind place t.start i.allProperties :=
  Lowered.foldlM_keeps (fun i => ValuesBehind place t.start i.allProperties) _ _ _ i
    (fun _ u hu _ hj hi => addIntegrationPart_properties (h.child hk hu).1 hj (h.child hk hu).2 hi) hi
    (fun p hp => by cases hp)

theorem addWebhookProperty_properties (w : Webhook) (p : Property) {q : Property}
    (hq : q ∈ (addWebhookProperty w p).properties) : q ∈ w.properties ∨ q = p := by
  unfold addWebhookProperty at hq
  split at hq
  · exact .inl hq
  · exact .inl hq
  · split at hq <;> exact .inl hq
  · simpa using hq

theorem lowerWebhook_properties {w : Webhook} (h : IsLeft grammar t)
    (hk : (grammar.definition t.rule).kind = .spaced) (hw : lowerWebhook place t = .ok w) :
    ValuesBehind place t.start w.properties := by
  have kept (properties : List Property) (w : Webhook)
      (hp : ∀ p ∈ properties, Behind place t.start (.expr p.value))
      (hw : ValuesBehind place t.start w.properties) :
      ValuesBehind place t.start (properties.foldl addWebhookProperty w).properties := by
    induction properties generalizing w with
    | nil => exact hw
    | cons p properties ih =>
      rw [List.foldl_cons]
      refine ih _ (fun q hq => hp q (List.mem_cons_of_mem p hq)) fun q hq => ?_
      rcases addWebhookProperty_properties w p hq with hq | rfl
      · exact hw q hq
      · exact hp _ List.mem_cons_self
  obtain ⟨properties, hp, hw⟩ := Lowered.bind_eq_ok hw
  cases hw
  exact kept properties _ (valuesBehind_of_propertiesIn h hk hp) fun q hq => by cases hq

/-- The models and collections of a database stand where their nodes start. -/
theorem behind_of_lowerModels (h : IsLeft grammar t)
    (hk : (grammar.definition t.rule).kind = .spaced) {s : Stmt}
    (hs : s ∈ lowerModels place t.children) : Behind place t.start (.stmt s) := by
  obtain ⟨u, hu, hs⟩ := List.mem_filterMap.1 hs
  obtain ⟨hleft, hreach⟩ := h.child hk hu
  refine ⟨u.start, hreach, ?_⟩
  split at hs
  · next hr =>
    cases hs
    exact Stands.of_keyword "model".toList hleft (congrArg place (u.offset_eq)) (by decide) rfl
      (by rw [hr]; decide) nofun (fun m hm => by cases hm)
  · next hr =>
    cases hs
    exact Stands.of_keyword "collection".toList hleft (congrArg place (u.offset_eq)) (by decide) rfl
      (by rw [hr]; decide) nofun (fun m hm => by cases hm)
  · cases hs

/-- A declaration stands where its node starts. -/
theorem stands_of_declaration {s : Stmt} (h : IsLeft grammar t)
    (hd : lowerDeclaration? place t = some (.ok s)) : Stands place t.start (.stmt s) := by
  have map {α : Type} {f : α → Stmt} {x : Lowered α} (h : some (f <$> x) = some (.ok s)) :
      ∃ a, x = .ok a ∧ f a = s := map_eq_ok (Option.some.inj h)
  have hpos : s.pos = place t.start.offset := by
    rw [(standsAt_of_declaration hd).1, t.offset_eq]
  unfold lowerDeclaration? at hd
  split at hd
  · next hr =>
    obtain ⟨c, hc, rfl⟩ := map hd
    exact Stands.of_keyword "config".toList h hpos (by decide) rfl (by rw [hr]; decide) nofun
      (lowerConfig_properties h (by rw [hr]; rfl) hc).nodes
  · next hr =>
    cases hd
    refine Stands.of_keyword "database".toList h hpos (by decide) rfl (by rw [hr]; decide) nofun
      fun m hm => ?_
    obtain ⟨s, hs, rfl⟩ := List.mem_map.1 hm
    exact behind_of_lowerModels h (by rw [hr]; rfl) hs
  · next hr =>
    obtain ⟨a, ha, rfl⟩ := map hd
    exact Stands.of_keyword "auth".toList h hpos (by decide) rfl (by rw [hr]; decide) nofun
      (lowerAuth_properties h (by rw [hr]; rfl) ha).nodes
  · next hr =>
    obtain ⟨b, hb, rfl⟩ := map hd
    exact Stands.of_keyword "role".toList h hpos (by decide) rfl (by rw [hr]; decide) nofun
      (lowerPropertyBlock_properties h (by rw [hr]; rfl) hb).nodes
  · next hr =>
    obtain ⟨b, hb, rfl⟩ := map hd
    exact Stands.of_keyword "middleware".toList h hpos (by decide) rfl (by rw [hr]; decide) nofun
      (lowerPropertyBlock_properties h (by rw [hr]; rfl) hb).nodes
  · next hr =>
    cases hd
    exact Stands.of_keyword "event".toList h hpos (by decide) rfl (by rw [hr]; decide) nofun
      (fun m hm => by cases hm)
  · next hr =>
    cases hd
    exact Stands.of_keyword "on".toList h hpos (by decide) rfl (by rw [hr]; decide) nofun
      (fun m hm => by cases hm)
  · next hr =>
    obtain ⟨i, hi, rfl⟩ := map hd
    exact Stands.of_keyword "integration".toList h hpos (by decide) rfl (by rw [hr]; decide) nofun
      (lowerIntegration_properties h (by rw [hr]; rfl) hi).nodes
  · next hr =>
    obtain ⟨w, hw, rfl⟩ := map hd
    exact Stands.of_keyword "webhook".toList h hpos (by decide) rfl (by rw [hr]; decide) nofun
      (lowerWebhook_properties h (by rw [hr]; rfl) hw).nodes
  · cases hd

/-! ## General statements -/

/-- What a part of a general statement comes from. -/
inductive HasPart (place : Nat → Position) (t : ParseTree Rule) : StmtPart → Prop
  | expr {e : Expr} : t.rule = .expr ∨ t.rule = .call → Operand place t e → HasPart place t (.expr e)
  | stmt {s : Stmt} : isStatement t.rule → Stands place t.start (.stmt s) → HasPart place t (.stmt s)
  | names (names : List String) : t.rule = .paramList → HasPart place t (.names names)
  | token : t.rule ≠ .call → HasPart place t (.token t.rule t.text)

section Parts

variable {parts : List StmtPart} (h : ∀ part ∈ parts, ∃ u, t.start.Reaches u.start ∧ HasPart place u part)
include h

theorem behind_of_expr? {e : Expr} (he : StmtPart.expr? parts = some e) :
    Behind place t.start (.expr e) := by
  obtain ⟨part, hpart, he⟩ := List.exists_of_findSome?_eq_some he
  cases part with
  | expr e' =>
    cases he
    obtain ⟨u, hu, hpart⟩ := h _ hpart
    cases hpart with
    | expr _ hoperand => exact hoperand.behind.of_reaches hu
  | stmt s => cases he
  | names ns => cases he
  | token r text => cases he

theorem behind_of_stmt {s : Stmt} (hs : s ∈ StmtPart.statements parts) :
    Behind place t.start (.stmt s) := by
  obtain ⟨part, hpart, hs⟩ := List.mem_filterMap.1 hs
  cases part with
  | stmt s' =>
    cases hs
    obtain ⟨u, hu, hpart⟩ := h _ hpart
    cases hpart with
    | stmt _ hstands => exact ⟨u.start, hu, hstands⟩
  | expr e => cases hs
  | names ns => cases hs
  | token r text => cases hs

/-- The first block has its brace where it is positioned. -/
theorem behind_of_block? {b : Block} (hb : StmtPart.block? parts = some b) :
    ∃ d, t.start.Reaches d ∧ Stands place d (.block b) ∧ b.pos = place d.offset ∧
      ['{'] <+: d.rest := by
  obtain ⟨part, hpart, hb⟩ := List.exists_of_findSome?_eq_some hb
  have hpart : .stmt (.block b) ∈ parts := by
    split at hb
    · cases hb
      exact hpart
    · cases hb
  obtain ⟨d, hd, hstands⟩ := behind_of_stmt h (s := .block b)
    (List.mem_filterMap.2 ⟨_, hpart, rfl⟩)
  exact ⟨d, hd, hstands.block⟩

theorem behind_of_elseBlock? {b : Block} (hb : elseBlock? (StmtPart.statements parts) = some b) :
    Behind place t.start (.block b) := by
  generalize hss : StmtPart.statements parts = ss at hb
  have behind {s : Stmt} (hs : s ∈ ss) : Behind place t.start (.stmt s) :=
    behind_of_stmt h (hss ▸ hs)
  unfold elseBlock? at hb
  split at hb
  · cases hb
    obtain ⟨d, hd, hstands⟩ := behind (List.mem_cons_of_mem _ List.mem_cons_self)
    exact ⟨d, hd, hstands.block.1⟩
  · cases hb
    obtain ⟨d, hd, hstands⟩ := behind (List.mem_cons_of_mem _ List.mem_cons_self)
    exact ⟨d, hd, hstands.elseIf⟩
  · cases hb

end Parts

/-- The first part of a node that begins with a name or a call. -/
theorem exists_first_part {r : Rule} {parts : List StmtPart} (h : IsLeft grammar t)
    (hk : (grammar.definition t.rule).kind = .spaced)
    (hp : (grammar.definition t.rule).pattern.firstRule? = some r)
    (hr : (grammar.definition r).kind ≠ .silent)
    (hparts : List.Forall₂ (HasPart place) t.children parts) :
    ∃ u part rest, IsLeft grammar u ∧ u.rule = r ∧ u.start = t.start ∧ parts = part :: rest ∧
      HasPart place u part := by
  obtain ⟨u, more, hchildren, hur, hustart⟩ := h.exists_first hk hp hr
  have hu := (h.child hk (by rw [hchildren]; exact List.mem_cons_self)).1
  rw [hchildren] at hparts
  cases hparts with
  | cons hpart _ => exact ⟨u, _, _, hu, hur, hustart, rfl, hpart⟩

section Assembled

variable {parts : List StmtPart} (h : IsLeft grammar t)
  (hk : (grammar.definition t.rule).kind = .spaced)
  (hparts : List.Forall₂ (HasPart place) t.children parts)
include h hk hparts

theorem exists_node_of_part : ∀ part ∈ parts, ∃ u, t.start.Reaches u.start ∧ HasPart place u part := by
  intro part hmem
  obtain ⟨u, hu, hpart⟩ := exists_partner hparts hmem
  exact ⟨u, (h.child hk hu).2, hpart⟩

/-- An assignment begins with the name that it assigns. -/
theorem stands_of_assignment (hr : t.rule = .assignment) {e : Expr} (he : StmtPart.expr? parts = some e) :
    Stands place t.start (.stmt (.assignment (place t.start.offset) (StmtPart.name parts) e)) := by
  have behind := exists_node_of_part h hk hparts
  obtain ⟨u, part, rest, hu, hur, hustart, rfl, hpart⟩ := exists_first_part (r := .lexeme .ident) h hk
    (by rw [hr]; rfl) (by decide) hparts
  obtain ⟨hne, hword⟩ := text_of_ident (fun _ => rfl) hu hur
  cases hpart with
  | token _ =>
    refine .of_children ⟨rfl, ⟨u.text, isToken_of_word hne hword, ?_, hustart ▸ hu.text_prefix⟩,
      nofun⟩ fun m hm => ?_
    · show u.text = (StmtPart.name (.token u.rule u.text :: rest)).toList
      rw [hur]
      exact (String.toList_ofList).symm
    · rw [List.mem_singleton.1 hm]
      exact behind_of_expr? behind he
  | expr hexpr => rw [hur] at hexpr; simp at hexpr
  | stmt hstmt => rw [hur] at hstmt; cases hstmt
  | names _ hnames => rw [hur] at hnames; cases hnames

/-- A call statement begins with what its call begins with. -/
theorem stands_of_exprStmt (hr : t.rule = .exprStmt) {e : Expr} (he : StmtPart.expr? parts = some e) :
    Stands place t.start (.stmt (.exprStmt (place t.start.offset) e)) := by
  obtain ⟨u, part, rest, hu, hur, hustart, rfl, hpart⟩ := exists_first_part (r := .call) h hk
    (by rw [hr]; rfl) (by decide) hparts
  cases hpart with
  | expr _ hoperand =>
    obtain rfl := Option.some.inj he
    obtain ⟨d, -, hstands, hstart⟩ := hoperand
    -- a call begins with a name, so it does not stand behind parentheses
    obtain rfl : d = u.start := hstart.resolve_right
      (not_parenthesis_of_name hu (by rw [hur]; rfl) (by rw [hur]; rfl))
    rw [hustart] at hstands
    obtain ⟨w, hw, hbegins, hprefix⟩ := hstands.beginsAt.token
    refine .of_children ⟨rfl, ⟨w, hw, ⟨hstands.beginsAt.pos_eq, hbegins⟩, hprefix⟩, nofun⟩
      fun m hm => ?_
    rw [List.mem_singleton.1 hm]
    exact hstands.behind
  | token hcall => exact absurd hur hcall
  | stmt hstmt => rw [hur] at hstmt; cases hstmt
  | names _ hnames => rw [hur] at hnames; cases hnames

theorem stands_of_ifStmt (hr : t.rule = .ifStmt) {condition : Expr} {b : Block}
    (he : StmtPart.expr? parts = some condition) (hb : StmtPart.block? parts = some b) :
    Stands place t.start (.stmt (.ifStmt (place t.start.offset) condition b
      (elseBlock? (StmtPart.statements parts)))) := by
  have behind := exists_node_of_part h hk hparts
  obtain ⟨d, hd, hstands, hpos, hbrace⟩ := behind_of_block? behind hb
  refine Stands.of_keyword "if".toList h rfl (by decide) rfl (by rw [hr]; decide) (fun b' hb' => ?_)
    fun m hm => ?_
  · rw [List.mem_singleton.1 hb']
    exact ⟨d, hd, hpos, hbrace⟩
  rcases List.mem_cons.1 hm with rfl | hm
  · exact behind_of_expr? behind he
  rcases List.mem_cons.1 hm with rfl | hm
  · exact ⟨d, hd, hstands⟩
  · obtain ⟨b', hb', rfl⟩ := List.mem_map.1 hm
    exact behind_of_elseBlock? behind (Option.mem_toList.1 hb')

theorem stands_of_forLoop (hr : t.rule = .forLoop) {iterable : Expr} {b : Block}
    (he : StmtPart.expr? parts = some iterable) (hb : StmtPart.block? parts = some b) :
    Stands place t.start
      (.stmt (.forLoop (place t.start.offset) (StmtPart.name parts) iterable b)) := by
  have behind := exists_node_of_part h hk hparts
  obtain ⟨d, hd, hstands, hpos, hbrace⟩ := behind_of_block? behind hb
  refine Stands.of_keyword "for".toList h rfl (by decide) rfl (by rw [hr]; decide) (fun b' hb' => ?_)
    fun m hm => ?_
  · rw [List.mem_singleton.1 hb']
    exact ⟨d, hd, hpos, hbrace⟩
  rcases List.mem_cons.1 hm with rfl | hm
  · exact behind_of_expr? behind he
  · rw [List.mem_singleton.1 hm]
    exact ⟨d, hd, hstands⟩

theorem stands_of_functionDecl (hr : t.rule = .functionDecl) {b : Block}
    (hb : StmtPart.block? parts = some b) :
    Stands place t.start
      (.stmt (.function (place t.start.offset) (StmtPart.name parts) (StmtPart.params parts) b)) := by
  obtain ⟨d, hd, hstands, hpos, hbrace⟩ := behind_of_block? (exists_node_of_part h hk hparts) hb
  refine Stands.of_keyword "function".toList h rfl (by decide) rfl (by rw [hr]; decide)
    (fun b' hb' => ?_) fun m hm => ?_
  · rw [List.mem_singleton.1 hb']
    exact ⟨d, hd, hpos, hbrace⟩
  · rw [List.mem_singleton.1 hm]
    exact ⟨d, hd, hstands⟩

/-- A general statement stands where its node starts, if its parts do. -/
theorem stands_of_assembleStmt {s : Stmt}
    (ha : assembleStmt (place t.start.offset) t.rule parts = some s) :
    Stands place t.start (.stmt s) := by
  have behind := exists_node_of_part h hk hparts
  have option {m : Node} (hm : m ∈ (StmtPart.expr? parts).toList.map Node.expr) :
      Behind place t.start m := by
    obtain ⟨e, he, rfl⟩ := List.mem_map.1 hm
    exact behind_of_expr? behind (Option.mem_toList.1 he)
  unfold assembleStmt at ha
  dsimp only at ha
  split at ha
  · next hr =>
    cases ha
    exact Stands.of_keyword "var".toList h rfl (by decide) rfl (by rw [hr]; decide) nofun
      fun m hm => option hm
  · next hr =>
    obtain ⟨e, he, rfl⟩ := Option.map_eq_some_iff.1 ha
    exact stands_of_assignment h hk hparts hr he
  · next hr =>
    obtain ⟨e, he, rfl⟩ := Option.map_eq_some_iff.1 ha
    exact stands_of_exprStmt h hk hparts hr he
  · next hr =>
    split at ha
    · next he hb =>
      cases ha
      exact stands_of_ifStmt h hk hparts hr he hb
    · cases ha
  · next hr =>
    split at ha
    · next he hb =>
      cases ha
      exact stands_of_forLoop h hk hparts hr he hb
    · cases ha
  · next hr =>
    obtain ⟨b, hb, rfl⟩ := Option.map_eq_some_iff.1 ha
    exact stands_of_functionDecl h hk hparts hr hb
  · next hr =>
    cases ha
    exact Stands.of_keyword "return".toList h rfl (by decide) rfl (by rw [hr]; decide) nofun
      fun m hm => option hm
  · next hr =>
    cases ha
    exact Stands.of_keyword "exec".toList h rfl (by decide) rfl (by rw [hr]; decide) nofun
      fun m hm => by cases hm
  · next hr =>
    split at ha
    · cases ha
      refine Stands.of_keyword ['{'] h rfl (by decide) rfl (by rw [hr]; decide) nofun fun m hm => ?_
      obtain ⟨s, hs, rfl⟩ := List.mem_map.1 hm
      exact behind_of_stmt behind hs
    · cases ha
  · cases ha

end Assembled

theorem spaced_of_assembleStmt {pos : Position} {rule : Rule} {parts : List StmtPart} {s : Stmt}
    (h : assembleStmt pos rule parts = some s) :
    (grammar.definition rule).kind = .spaced ∨ rule = .execBlock := by
  unfold assembleStmt at h
  dsimp only at h
  split at h <;> first | exact .inl rfl | exact .inr rfl | cases h

mutual

theorem stands_of_lowerStmt : (t : ParseTree Rule) → IsLeft grammar t → {s : Stmt} →
    lowerStmt place t = .ok s → Stands place t.start (.stmt s)
  | .node rule start stop children, hleft, s, h => by
    rw [lowerStmt] at h
    split at h
    · next declaration hd =>
      rw [h] at hd
      exact stands_of_declaration hleft hd
    split at h
    · cases h
    next parts hparts =>
    split at h
    · next hassemble =>
      cases h
      rcases spaced_of_assembleStmt hassemble with hk | hr
      · exact stands_of_assembleStmt hleft hk (parts_of_lowerStmtParts children
          (fun u hu => (hleft.child hk hu).1) hparts) hassemble
      · subst hr
        cases hassemble
        exact Stands.of_keyword "exec".toList hleft rfl (by decide) rfl
          (show grammar.begins "exec".toList 2 .execBlock by decide) nofun fun m hm => by cases hm
    · cases h

/-- The parts of a statement come from the nodes, one each. -/
theorem parts_of_lowerStmtParts : (ts : List (ParseTree Rule)) → (∀ t ∈ ts, IsLeft grammar t) →
    {parts : List StmtPart} → lowerStmtParts place ts = .ok parts →
    List.Forall₂ (HasPart place) ts parts
  | [], _, parts, h => by
    cases h
    exact .nil
  | t :: ts, hleft, parts, h => by
    rw [lowerStmtParts] at h
    split at h
    · cases h
    next part hpart =>
    obtain ⟨rest, hrest, rfl⟩ := map_eq_ok h
    refine .cons ?_ (parts_of_lowerStmtParts ts (fun u hu => hleft u (List.mem_cons_of_mem t hu)) hrest)
    have ht := hleft t List.mem_cons_self
    split at hpart
    · next hs =>
      obtain ⟨s, hs', rfl⟩ := map_eq_ok hpart
      exact .stmt hs (stands_of_lowerStmt t ht hs')
    split at hpart
    · next he =>
      obtain ⟨e, he', rfl⟩ := map_eq_ok hpart
      exact .expr (by simpa using he) (operand_of_lowerExpr t ht he')
    · next he =>
      split at hpart
      · next hn =>
        cases hpart
        exact .names _ hn
      · cases hpart
        refine .token fun hcall => ?_
        simp [hcall] at he

end

end ServiceLang.MainGrammar
