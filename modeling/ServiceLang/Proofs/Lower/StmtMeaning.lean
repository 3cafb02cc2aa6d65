import ServiceLang.Lower.Program
import ServiceLang.Proofs.Lower.Documented
import ServiceLang.Proofs.Lower.ExprMeaning
import ServiceLang.Proofs.Lower.Statement

/-!
Every statement of main text has a meaning.

Of declarations only circuit breakers check more than their grammar does, so all others are
lowered.  A general statement finds among its parts the name, the expression and the block
that its pattern always leaves (`assembles_of_isGeneral`, from one lemma for each form).  What is
lowered is shaped: schemas are only made inside databases, and the statements of a block are those
that stand in it (`lowerStmt_meets`).
-/

namespace ServiceLang.MainGrammar

open Peg

variable {place : Nat → Position} {t : ParseTree Rule}

/-! ## Properties -/

/-- The value of a property is shaped. -/
def ShapedValue (p : Property) : Prop := Shaped (.expr p.value)

theorem lowerProperty_meets (h : IsLeft grammar t) (hn : Named (.lexeme .ident) t) (hr : t.rule = .property) :
    (lowerProperty place t).Meets ShapedValue := by
  obtain ⟨u, hu, hrule⟩ := h.exists_child (by rw [hr]; decide) (· = .expr) 0 (by rw [hr]; decide)
  obtain ⟨v, hfirst⟩ := ParseTree.exists_firstOf? hu
  rw [of_decide_eq_true hrule] at hfirst
  obtain ⟨hv, hexpr⟩ := ParseTree.of_firstOf? hfirst
  obtain ⟨e, he, hmeaning⟩ := exists_lowerExpr place v (h.child (by rw [hr]; rfl) hv).1
    (hn.child hv) (by rw [hexpr]; rfl)
  have hin : exprIn place t = .ok e := by
    unfold exprIn
    rw [hfirst]
    exact he
  unfold lowerProperty
  rw [hin]
  exact hmeaning.shaped

theorem propertiesIn_meets (h : IsLeft grammar t) (hn : Named (.lexeme .ident) t)
    (hk : (grammar.definition t.rule).kind = .spaced) :
    (propertiesIn place t).Meets fun ps => ∀ p ∈ ps, ShapedValue p := by
  refine Meets.mapM fun u hu => ?_
  obtain ⟨hleft, -, hr⟩ := h.of_mem_childrenOf hk hu
  exact lowerProperty_meets hleft (hn.child (List.mem_filter.1 hu).1) hr

/-! ## Declarations -/

theorem breakerLimit_meets {offset : Nat} {p : Property}
    (hkey : p.key = "threshold" ∨ p.key = "max_concurrent") :
    (breakerLimit offset p).Meets fun _ => True := by
  unfold breakerLimit
  split
  · next hnumber => exact ⟨hkey, hnumber⟩
  · next value _ =>
    split
    · trivial
    · next hwhole => exact ⟨hkey, Bool.eq_false_iff.2 hwhole⟩

theorem lowerCircuitBreaker_meets (h : IsLeft grammar t) (hn : Named (.lexeme .ident) t)
    (hr : t.rule = .circuitBreaker) : (lowerCircuitBreaker place t).Meets fun _ => True := by
  refine Meets.foldlM trivial fun breaker _ u hu => ?_
  obtain ⟨hleft, -, hrule⟩ := h.of_mem_childrenOf (by rw [hr]; rfl) hu
  refine (lowerProperty_meets hleft (hn.child (List.mem_filter.1 hu).1) hrule).bind fun p _ => ?_
  split
  · next hkey => exact (breakerLimit_meets (.inl hkey)).bind fun _ _ => trivial
  · next hkey => exact (breakerLimit_meets (.inr hkey)).bind fun _ _ => trivial
  · trivial
  · trivial

theorem addIntegrationPart_meets {i : Integration} (hi : ∀ p ∈ i.allProperties, ShapedValue p)
    (h : IsLeft grammar t) (hn : Named (.lexeme .ident) t) :
    (addIntegrationPart place i t).Meets fun i => ∀ p ∈ i.allProperties, ShapedValue p := by
  have hproperties : ∀ p ∈ i.properties, ShapedValue p :=
    fun p hp => hi p (List.mem_append_right _ hp)
  unfold addIntegrationPart
  split
  · next hr =>
    refine Meets.bind (P := fun auth => ∀ p ∈ auth.properties, ShapedValue p) ?_
      fun auth hauth p hp => ?_
    · exact (propertiesIn_meets h hn (by rw [hr]; rfl)).bind fun ps hps => hps
    · rcases List.mem_append.1 hp with hp | hp
      · exact hauth p hp
      · exact hproperties p hp
  · next hr => exact (lowerCircuitBreaker_meets h hn hr).bind fun _ _ => hi
  · next hr =>
    refine (lowerProperty_meets h hn hr).bind fun p hp => ?_
    split
    · exact hi
    · intro q hq
      rcases List.mem_append.1 hq with hq | hq
      · exact hi q (List.mem_append_left _ hq)
      rcases List.mem_append.1 hq with hq | hq
      · exact hproperties q hq
      · rw [List.mem_singleton.1 hq]
        exact hp
  · exact hi

theorem lowerIntegration_meets (h : IsLeft grammar t) (hn : Named (.lexeme .ident) t)
    (hk : (grammar.definition t.rule).kind = .spaced) :
    (lowerIntegration place t).Meets fun i => ∀ p ∈ i.allProperties, ShapedValue p :=
  Meets.foldlM nofun fun _ hi _ hu => addIntegrationPart_meets hi (h.child hk hu).1 (hn.child hu)

theorem foldl_addWebhookProperty (ps : List Property) (w : Webhook)
    (hw : ∀ p ∈ w.properties, ShapedValue p) (hps : ∀ p ∈ ps, ShapedValue p) :
    ∀ p ∈ (ps.foldl addWebhookProperty w).properties, ShapedValue p := by
  induction ps generalizing w with
  | nil => exact hw
  | cons p ps ih =>
    refine ih _ (fun q hq => ?_) fun q hq => hps q (List.mem_cons_of_mem p hq)
    rcases addWebhookProperty_properties w _ hq with hq | rfl
    · exact hw q hq
    · exact hps q List.mem_cons_self

theorem lowerWebhook_meets (h : IsLeft grammar t) (hn : Named (.lexeme .ident) t)
    (hk : (grammar.definition t.rule).kind = .spaced) :
    (lowerWebhook place t).Meets fun w => ∀ p ∈ w.properties, ShapedValue p :=
  (propertiesIn_meets h hn hk).bind fun ps hps => foldl_addWebhookProperty ps _ nofun hps

/-- The indexes of a schema list the fields that their brackets hold, at least one. -/
theorem lowerModel_indexes (h : IsLeft grammar t) (hk : (grammar.definition t.rule).kind = .spaced) :
    ∀ i ∈ (lowerModel place t).indexes, i.fields ≠ [] := by
  intro i hi
  obtain ⟨u, hu, rfl⟩ := List.mem_map.1 hi
  obtain ⟨hleft, -, hr⟩ := h.of_mem_childrenOf hk hu
  obtain ⟨v, hv, hpath⟩ := hleft.exists_child (by rw [hr]; decide) (· = .fieldPath) 0
    (by rw [hr]; decide)
  exact List.ne_nil_of_mem (List.mem_map_of_mem (List.mem_filter.2 ⟨hv, hpath⟩))

theorem lowerDatabase_shaped (h : IsLeft grammar t) (hr : t.rule = .databaseDecl) :
    Shaped (.stmt (lowerDatabase place t)) := by
  have schemas : ∀ m ∈ (lowerDatabase place t).children, m.kind.isSchema ∧ Shaped m := by
    intro m hm
    obtain ⟨s, hs, rfl⟩ := List.mem_map.1 hm
    obtain ⟨u, hu, hsome⟩ := List.mem_filterMap.1 hs
    have hleft := (h.child (by rw [hr]; rfl) hu).1
    split at hsome
    · next hrule =>
      obtain rfl := Option.some.inj hsome
      exact ⟨rfl, .stmt nofun nofun (lowerModel_indexes hleft (by rw [hrule]; rfl)) nofun nofun⟩
    · next hrule =>
      obtain rfl := Option.some.inj hsome
      exact ⟨rfl, .stmt nofun nofun (lowerModel_indexes hleft (by rw [hrule]; rfl)) nofun nofun⟩
    · cases hsome
  exact .stmt (fun m hm => (schemas m hm).1) nofun nofun nofun fun m hm => (schemas m hm).2

/-- The statement is shaped, one that may stand in a block, and a block if its node is one. -/
structure StmtMeaning (t : ParseTree Rule) (s : Stmt) : Prop where
  shaped : Shaped (.stmt s)
  inner : !s.kind.isSchema && !s.kind.isRegion
  block : t.rule = .block → ∃ b, s = .block b

theorem lowerDeclaration?_meets {x : Lowered Stmt} (h : IsLeft grammar t) (hn : Named (.lexeme .ident) t)
    (hx : lowerDeclaration? place t = some x) : x.Meets (StmtMeaning t) := by
  unfold lowerDeclaration? at hx
  split at hx
  · next hr =>
    obtain rfl := Option.some.inj hx
    refine Meets.map (P := fun c => ∀ p ∈ c.properties, ShapedValue p) ?_ fun c hc => ?_
    · exact (propertiesIn_meets h hn (by rw [hr]; rfl)).bind fun ps hps => hps
    · exact ⟨.of_inner (fun _ hk => hk) nofun nofun nofun fun _ => Shaped.of_mem_nodes hc,
        rfl, by simp [hr]⟩
  · next hr =>
    obtain rfl := Option.some.inj hx
    exact ⟨lowerDatabase_shaped h hr, rfl, by simp [hr]⟩
  · next hr =>
    obtain rfl := Option.some.inj hx
    refine Meets.map (P := fun a => ∀ p ∈ a.properties, ShapedValue p) ?_ fun a ha => ?_
    · exact (propertiesIn_meets h hn (by rw [hr]; rfl)).bind fun ps hps => hps
    · exact ⟨.of_inner (fun _ hk => hk) nofun nofun nofun fun _ => Shaped.of_mem_nodes ha,
        rfl, by simp [hr]⟩
  · next hr =>
    obtain rfl := Option.some.inj hx
    refine Meets.map (P := fun b => ∀ p ∈ b.properties, ShapedValue p) ?_ fun b hb => ?_
    · exact (propertiesIn_meets h hn (by rw [hr]; rfl)).bind fun ps hps => hps
    · exact ⟨.of_inner (fun _ hk => hk) nofun nofun nofun fun _ => Shaped.of_mem_nodes hb,
        rfl, by simp [hr]⟩
  · next hr =>
    obtain rfl := Option.some.inj hx
    refine Meets.map (P := fun b => ∀ p ∈ b.properties, ShapedValue p) ?_ fun b hb => ?_
    · exact (propertiesIn_meets h hn (by rw [hr]; rfl)).bind fun ps hps => hps
    · exact ⟨.of_inner (fun _ hk => hk) nofun nofun nofun fun _ => Shaped.of_mem_nodes hb,
        rfl, by simp [hr]⟩
  · next hr =>
    obtain rfl := Option.some.inj hx
    exact ⟨.stmt nofun nofun nofun nofun nofun, rfl, by simp [hr]⟩
  · next hr =>
    obtain rfl := Option.some.inj hx
    exact ⟨.stmt nofun nofun nofun nofun nofun, rfl, by simp [hr]⟩
  · next hr =>
    obtain rfl := Option.some.inj hx
    refine (lowerIntegration_meets h hn (by rw [hr]; rfl)).map fun i hi => ?_
    exact ⟨.of_inner (fun _ hk => hk) nofun nofun nofun fun _ => Shaped.of_mem_nodes hi,
      rfl, by simp [hr]⟩
  · next hr =>
    obtain rfl := Option.some.inj hx
    refine (lowerWebhook_meets h hn (by rw [hr]; rfl)).map fun w hw => ?_
    exact ⟨.of_inner (fun _ hk => hk) nofun nofun nofun fun _ => Shaped.of_mem_nodes hw,
      rfl, by simp [hr]⟩
  · cases hx

/-! ## Parts of general statements -/

/-- Rules inside general statements whose nodes are neither statements nor expressions nor
parameters. -/
def isBare (r : Rule) : Bool := !(isStatement r || r = .expr || r = .call || r = .paramList)

/-- The part is what the node makes. -/
inductive MakesPart (t : ParseTree Rule) : StmtPart → Prop
  | stmt {s : Stmt} : isStatement t.rule → StmtMeaning t s → MakesPart t (.stmt s)
  | expr {e : Expr} : t.rule = .expr ∨ t.rule = .call → Meaning t e → MakesPart t (.expr e)
  | names {names : List String} : t.rule = .paramList → (∀ name ∈ names, isName name) →
      MakesPart t (.names names)
  | token : isBare t.rule → (t.rule = .lexeme .ident → isName t.string) →
      MakesPart t (.token t.rule t.text)

abbrev MakeParts (ts : List (ParseTree Rule)) (parts : List StmtPart) : Prop :=
  List.Forall₂ MakesPart ts parts

/-- The first value found in a list, or the default if there is none. -/
theorem getD_findSome? {α β : Type} {f : α → Option β} {xs : List α} {default : β} {P : β → Prop}
    (hnone : (∀ x ∈ xs, f x = none) → P default) (hsome : ∀ x ∈ xs, ∀ b, f x = some b → P b) :
    P ((xs.findSome? f).getD default) := by
  cases h : xs.findSome? f with
  | none => exact hnone (List.findSome?_eq_none_iff.1 h)
  | some b =>
    obtain ⟨x, hx, hb⟩ := List.exists_of_findSome?_eq_some h
    exact hsome x hx b hb

namespace MakeParts

variable {ts : List (ParseTree Rule)} {parts : List StmtPart} {u : ParseTree Rule}

theorem exists_part (h : MakeParts ts parts) (hu : u ∈ ts) : ∃ part ∈ parts, MakesPart u part := by
  induction h with
  | nil => cases hu
  | @cons t part ts parts hpart _ ih =>
    rcases List.mem_cons.1 hu with rfl | hu
    · exact ⟨part, List.mem_cons_self, hpart⟩
    · obtain ⟨p, hp, hmakes⟩ := ih hu
      exact ⟨p, List.mem_cons_of_mem part hp, hmakes⟩

theorem exists_node {part : StmtPart} (h : MakeParts ts parts) (hpart : part ∈ parts) :
    ∃ u ∈ ts, MakesPart u part := by
  induction h with
  | nil => cases hpart
  | @cons t p ts parts hp _ ih =>
    rcases List.mem_cons.1 hpart with rfl | hpart
    · exact ⟨t, List.mem_cons_self, hp⟩
    · obtain ⟨u, hu, hmakes⟩ := ih hpart
      exact ⟨u, List.mem_cons_of_mem t hu, hmakes⟩

/-- The expression of a statement is what one of its nodes means. -/
theorem of_expr? {e : Expr} (h : MakeParts ts parts) (he : StmtPart.expr? parts = some e) :
    ∃ u ∈ ts, (u.rule = .expr ∨ u.rule = .call) ∧ Meaning u e := by
  obtain ⟨part, hpart, hsome⟩ := List.exists_of_findSome?_eq_some he
  obtain ⟨u, hu, hmakes⟩ := h.exists_node hpart
  cases hmakes with
  | expr hr hmeaning =>
    obtain rfl := Option.some.inj hsome
    exact ⟨u, hu, hr, hmeaning⟩
  | _ => cases hsome

theorem exists_expr (h : MakeParts ts parts) (hu : u ∈ ts) (hr : u.rule = .expr ∨ u.rule = .call) :
    ∃ e, StmtPart.expr? parts = some e := by
  obtain ⟨part, hpart, hmakes⟩ := h.exists_part hu
  refine Option.isSome_iff_exists.1 (List.findSome?_isSome_iff.2 ⟨part, hpart, ?_⟩)
  cases hmakes with
  | expr => rfl
  | stmt hstmt => rcases hr with hr | hr <;> (rw [hr] at hstmt; cases hstmt)
  | names hnames => rcases hr with hr | hr <;> (rw [hr] at hnames; cases hnames)
  | token hbare => rcases hr with hr | hr <;> (rw [hr] at hbare; cases hbare)

/-- The statements among the parts are shaped and may stand in a block. -/
theorem of_mem_statements {s : Stmt} (h : MakeParts ts parts) (hs : s ∈ StmtPart.statements parts) :
    Shaped (.stmt s) ∧ !s.kind.isSchema && !s.kind.isRegion := by
  obtain ⟨part, hpart, hsome⟩ := List.mem_filterMap.1 hs
  obtain ⟨u, -, hmakes⟩ := h.exists_node hpart
  cases hmakes with
  | stmt _ hmeaning =>
    obtain rfl := Option.some.inj hsome
    exact ⟨hmeaning.shaped, hmeaning.inner⟩
  | _ => cases hsome

theorem exists_block (h : MakeParts ts parts) (hu : u ∈ ts) (hr : u.rule = .block) :
    ∃ b, StmtPart.block? parts = some b ∧ Shaped (.block b) := by
  have found : ∃ b, StmtPart.block? parts = some b := by
    obtain ⟨part, hpart, hmakes⟩ := h.exists_part hu
    refine Option.isSome_iff_exists.1 (List.findSome?_isSome_iff.2 ⟨part, hpart, ?_⟩)
    cases hmakes with
    | stmt _ hmeaning =>
      obtain ⟨b, rfl⟩ := hmeaning.block hr
      rfl
    | expr hexpr => rw [hr] at hexpr; rcases hexpr with hexpr | hexpr <;> cases hexpr
    | names hnames => rw [hr] at hnames; cases hnames
    | token hbare => rw [hr] at hbare; cases hbare
  obtain ⟨b, hb⟩ := found
  obtain ⟨part, hpart, hsome⟩ := List.exists_of_findSome?_eq_some hb
  obtain ⟨v, -, hmakes⟩ := h.exists_node hpart
  cases hmakes with
  | @stmt s _ hmeaning =>
    cases s with
    | block b' =>
      obtain rfl := Option.some.inj hsome
      exact ⟨b', hb, (Shaped.stmt_block_iff b').1 hmeaning.shaped⟩
    | _ => cases hsome
  | _ => cases hsome

theorem isName_name (h : MakeParts ts parts) (hu : u ∈ ts) (hr : u.rule = .lexeme .ident) :
    isName (StmtPart.name parts) := by
  refine getD_findSome? (P := fun name => isName name) (fun hnone => ?_) fun part hpart name hname => ?_
  · obtain ⟨part, hpart, hmakes⟩ := h.exists_part hu
    have hmissing := hnone part hpart
    cases hmakes with
    | token => rw [hr] at hmissing; cases hmissing
    | stmt hstmt => rw [hr] at hstmt; cases hstmt
    | expr hexpr => rw [hr] at hexpr; rcases hexpr with hexpr | hexpr <;> cases hexpr
    | names hnames => rw [hr] at hnames; cases hnames
  · obtain ⟨v, -, hmakes⟩ := h.exists_node hpart
    cases hmakes with
    | token _ hnamed =>
      split at hname
      · next text htoken =>
        injection htoken with hrule htext
        obtain rfl := Option.some.inj hname
        rw [← htext]
        exact hnamed hrule
      · cases hname
    | _ => cases hname

theorem isName_params (h : MakeParts ts parts) : ∀ name ∈ StmtPart.params parts, isName name := by
  refine getD_findSome? (P := fun names => ∀ name ∈ names, isName name) (fun _ => by simp)
    fun part hpart names hnames => ?_
  obtain ⟨v, -, hmakes⟩ := h.exists_node hpart
  cases hmakes with
  | names _ hnamed =>
    obtain rfl := Option.some.inj hnames
    exact hnamed
  | _ => cases hnames

theorem all_isStmt (h : MakeParts ts parts) (hts : ∀ u ∈ ts, isStatement u.rule) :
    parts.all StmtPart.isStmt := by
  refine List.all_eq_true.2 fun part hpart => ?_
  obtain ⟨u, hu, hmakes⟩ := h.exists_node hpart
  have hr := hts u hu
  cases hmakes with
  | stmt => rfl
  | expr hexpr => rcases hexpr with hexpr | hexpr <;> (rw [hexpr] at hr; cases hr)
  | names hnames => rw [hnames] at hr; cases hr
  | token hbare =>
    unfold isBare at hbare
    rw [hr] at hbare
    cases hbare

end MakeParts

theorem shaped_of_elseBlock? {ss : List Stmt} {b : Block} (h : elseBlock? ss = some b)
    (hss : ∀ s ∈ ss, Shaped (.stmt s)) : Shaped (.block b) := by
  unfold elseBlock? at h
  split at h
  · next first b' rest =>
    obtain rfl := Option.some.inj h
    exact (Shaped.stmt_block_iff b').1 (hss _ (List.mem_cons_of_mem first List.mem_cons_self))
  · next first pos c t e rest =>
    obtain rfl := Option.some.inj h
    have hif : Shaped (.stmt (.ifStmt pos c t e)) :=
      hss _ (List.mem_cons_of_mem first List.mem_cons_self)
    refine (Shaped.stmt_block_iff _).1 (.stmt (fun m hm => ?_) nofun nofun nofun fun m hm => ?_)
    · rw [List.mem_singleton.1 hm]
      rfl
    · rw [List.mem_singleton.1 hm]
      exact hif
  · cases h

/-! ## General statements -/

def isGeneral : Rule → Bool
  | .varDecl | .assignment | .exprStmt | .ifStmt | .forLoop | .functionDecl | .returnStmt | .block
  | .execBlock => true
  | _ => false

section Leaves

variable {parts : List StmtPart} (h : IsLeft grammar t) (hk : (grammar.definition t.rule).kind ≠ .token)
include h hk

/-- The node of a rule that the pattern does not do without. -/
theorem exists_child_of_leaves {r : Rule}
    (hp : (grammar.definition t.rule).pattern.leavesSome (grammar.leavesSome (· = r) 0)) :
    ∃ u ∈ t.children, u.rule = r := by
  obtain ⟨u, hu, hrule⟩ := h.exists_child hk (· = r) 0 hp
  exact ⟨u, hu, of_decide_eq_true hrule⟩

variable (hparts : MakeParts t.children parts)
include hparts

theorem isName_of_leaves
    (hp : (grammar.definition t.rule).pattern.leavesSome (grammar.leavesSome (· = .lexeme .ident) 0)) :
    isName (StmtPart.name parts) := by
  obtain ⟨u, hu, hrule⟩ := exists_child_of_leaves h hk hp
  exact hparts.isName_name hu hrule

theorem exists_expr_of_leaves
    (hp : (grammar.definition t.rule).pattern.leavesSome (grammar.leavesSome (· = .expr) 0)) :
    ∃ e, StmtPart.expr? parts = some e ∧ Shaped (.expr e) := by
  obtain ⟨u, hu, hrule⟩ := exists_child_of_leaves h hk hp
  obtain ⟨e, he⟩ := hparts.exists_expr hu (.inl hrule)
  obtain ⟨v, -, -, hmeaning⟩ := hparts.of_expr? he
  exact ⟨e, he, hmeaning.shaped⟩

theorem exists_block_of_leaves
    (hp : (grammar.definition t.rule).pattern.leavesSome (grammar.leavesSome (· = .block) 0)) :
    ∃ b, StmtPart.block? parts = some b ∧ Shaped (.block b) := by
  obtain ⟨u, hu, hrule⟩ := exists_child_of_leaves h hk hp
  exact hparts.exists_block hu hrule

end Leaves

/-- The parts are assembled to a statement that the node may mean. -/
def Assembles (t : ParseTree Rule) (pos : Position) (parts : List StmtPart) : Prop :=
  ∃ s, assembleStmt pos t.rule parts = some s ∧ StmtMeaning t s

section Forms

variable {parts : List StmtPart} (pos : Position) (hparts : MakeParts t.children parts)
include hparts

/-- The expression that may stand behind a name or behind `return`. -/
theorem MakeParts.shaped_of_optional {m : Node} (hm : m ∈ (StmtPart.expr? parts).toList.map .expr) :
    (!m.kind.isSchema && !m.kind.isRegion) ∧ Shaped m := by
  obtain ⟨e, he, rfl⟩ := List.mem_map.1 hm
  obtain ⟨v, -, -, hmeaning⟩ := hparts.of_expr? (Option.mem_toList.1 he)
  exact ⟨e.kind_isInner, hmeaning.shaped⟩

theorem assembles_returnStmt (hr : t.rule = .returnStmt) : Assembles t pos parts := by
  unfold Assembles
  rw [hr]
  exact ⟨_, rfl, .of_inner (fun _ hk => hk) nofun nofun nofun fun _ => hparts.shaped_of_optional, rfl,
    by simp [hr]⟩

variable (h : IsLeft grammar t)
include h

theorem assembles_varDecl (hr : t.rule = .varDecl) : Assembles t pos parts := by
  have hname : isName (StmtPart.name parts) :=
    isName_of_leaves h (by rw [hr]; decide) hparts (by rw [hr]; decide)
  unfold Assembles
  rw [hr]
  refine ⟨_, rfl, .of_inner (fun _ hk => hk) (fun n hn => ?_) nofun nofun
    fun _ => hparts.shaped_of_optional, rfl, by simp [hr]⟩
  rw [List.mem_singleton.1 hn]
  exact hname

theorem assembles_assignment (hr : t.rule = .assignment) : Assembles t pos parts := by
  have hk : (grammar.definition t.rule).kind ≠ .token := by rw [hr]; decide
  have hname := isName_of_leaves h hk hparts (by rw [hr]; decide)
  obtain ⟨e, he, hshaped⟩ := exists_expr_of_leaves h hk hparts (by rw [hr]; decide)
  unfold Assembles assembleStmt
  rw [hr, he]
  refine ⟨_, rfl, .of_inner (fun _ hk => hk) (fun n hn => ?_) nofun nofun fun m hm => ?_, rfl,
    by simp [hr]⟩
  · rw [List.mem_singleton.1 hn]
    exact hname
  · rw [List.mem_singleton.1 hm]
    exact ⟨e.kind_isInner, hshaped⟩

/-- The expression of the statement is a call, since nothing else stands there. -/
theorem assembles_exprStmt (hr : t.rule = .exprStmt) : Assembles t pos parts := by
  have hk : (grammar.definition t.rule).kind ≠ .token := by rw [hr]; decide
  obtain ⟨u, hu, hcall⟩ := exists_child_of_leaves (r := .call) h hk (by rw [hr]; decide)
  obtain ⟨e, he⟩ := hparts.exists_expr hu (.inr hcall)
  obtain ⟨v, hv, -, hmeaning⟩ := hparts.of_expr? he
  have hcalls := h.forall_children hk (· = .call) 0 (by rw [hr]; decide) v hv
  unfold Assembles assembleStmt
  rw [hr, he]
  refine ⟨_, rfl, .stmt (fun m hm => ?_) nofun nofun nofun fun m hm => ?_, rfl, by simp [hr]⟩
  · rw [List.mem_singleton.1 hm]
    exact decide_eq_true (hmeaning.call (of_decide_eq_true hcalls))
  · rw [List.mem_singleton.1 hm]
    exact hmeaning.shaped

theorem assembles_ifStmt (hr : t.rule = .ifStmt) : Assembles t pos parts := by
  have hk : (grammar.definition t.rule).kind ≠ .token := by rw [hr]; decide
  obtain ⟨c, hc, hcondition⟩ := exists_expr_of_leaves h hk hparts (by rw [hr]; decide)
  obtain ⟨b, hb, hthen⟩ := exists_block_of_leaves h hk hparts (by rw [hr]; decide)
  unfold Assembles assembleStmt
  rw [hr, hc, hb]
  refine ⟨_, rfl, .of_inner (fun _ hk => hk) nofun nofun nofun fun m hm => ?_, rfl, by simp [hr]⟩
  rcases List.mem_cons.1 hm with rfl | hm
  · exact ⟨c.kind_isInner, hcondition⟩
  rcases List.mem_cons.1 hm with rfl | hm
  · exact ⟨rfl, hthen⟩
  · obtain ⟨b', hb', rfl⟩ := List.mem_map.1 hm
    refine ⟨rfl, shaped_of_elseBlock? (Option.mem_toList.1 hb') fun s hs => ?_⟩
    exact (hparts.of_mem_statements hs).1

theorem assembles_forLoop (hr : t.rule = .forLoop) : Assembles t pos parts := by
  have hk : (grammar.definition t.rule).kind ≠ .token := by rw [hr]; decide
  have hname := isName_of_leaves h hk hparts (by rw [hr]; decide)
  obtain ⟨e, he, hiterable⟩ := exists_expr_of_leaves h hk hparts (by rw [hr]; decide)
  obtain ⟨b, hb, hbody⟩ := exists_block_of_leaves h hk hparts (by rw [hr]; decide)
  unfold Assembles assembleStmt
  rw [hr, he, hb]
  refine ⟨_, rfl, .of_inner (fun _ hk => hk) (fun n hn => ?_) nofun nofun fun m hm => ?_, rfl,
    by simp [hr]⟩
  · rw [List.mem_singleton.1 hn]
    exact hname
  rcases List.mem_cons.1 hm with rfl | hm
  · exact ⟨e.kind_isInner, hiterable⟩
  · rw [List.mem_singleton.1 hm]
    exact ⟨rfl, hbody⟩

theorem assembles_functionDecl (hr : t.rule = .functionDecl) : Assembles t pos parts := by
  have hk : (grammar.definition t.rule).kind ≠ .token := by rw [hr]; decide
  have hname := isName_of_leaves h hk hparts (by rw [hr]; decide)
  obtain ⟨b, hb, hbody⟩ := exists_block_of_leaves h hk hparts (by rw [hr]; decide)
  unfold Assembles assembleStmt
  rw [hr, hb]
  refine ⟨_, rfl, .of_inner (fun _ hk => hk) (fun n hn => ?_) nofun nofun fun m hm => ?_, rfl,
    by simp [hr]⟩
  · rcases List.mem_cons.1 hn with rfl | hn
    · exact hname
    · exact hparts.isName_params n hn
  · rw [List.mem_singleton.1 hm]
    exact ⟨rfl, hbody⟩

theorem assembles_block (hr : t.rule = .block) : Assembles t pos parts := by
  have hk : (grammar.definition t.rule).kind ≠ .token := by rw [hr]; decide
  have hall := hparts.all_isStmt (h.forall_children hk isStatement 1 (by rw [hr]; decide))
  unfold Assembles assembleStmt
  rw [hr]
  dsimp only
  rw [if_pos hall]
  refine ⟨_, rfl, .of_inner (fun _ hk => hk) nofun nofun nofun fun m hm => ?_, rfl, fun _ => ⟨_, rfl⟩⟩
  obtain ⟨s, hs, rfl⟩ := List.mem_map.1 hm
  obtain ⟨hshaped, hinner⟩ := hparts.of_mem_statements hs
  exact ⟨hinner, hshaped⟩

end Forms

theorem assembles_execBlock {parts : List StmtPart} (pos : Position) (hr : t.rule = .execBlock) :
    Assembles t pos parts := by
  unfold Assembles
  rw [hr]
  exact ⟨_, rfl, .stmt nofun nofun nofun nofun nofun, rfl, by simp [hr]⟩

theorem assembles_of_isGeneral {parts : List StmtPart} (pos : Position) (h : IsLeft grammar t)
    (hgeneral : isGeneral t.rule) (hparts : MakeParts t.children parts) : Assembles t pos parts := by
  cases hr : t.rule with
  | varDecl => exact assembles_varDecl pos hparts h hr
  | assignment => exact assembles_assignment pos hparts h hr
  | exprStmt => exact assembles_exprStmt pos hparts h hr
  | ifStmt => exact assembles_ifStmt pos hparts h hr
  | forLoop => exact assembles_forLoop pos hparts h hr
  | functionDecl => exact assembles_functionDecl pos hparts h hr
  | returnStmt => exact assembles_returnStmt pos hparts hr
  | execBlock => exact assembles_execBlock pos hr
  | block => exact assembles_block pos hparts h hr
  | _ =>
    rw [hr] at hgeneral
    cases hgeneral

/-! ## Lowered statements -/

theorem isGeneral_of_isStatement (hr : isStatement t.rule) (hd : lowerDeclaration? place t = none) :
    isGeneral t.rule := by
  unfold lowerDeclaration? at hd
  cases hrule : t.rule <;>
    first
    | rfl
    | exact absurd hr (by rw [hrule]; exact Bool.false_ne_true)
    | simp only [hrule, reduceCtorEq] at hd

/-- The nodes inside a shell block make parts by themselves. -/
theorem child_of_isGeneral (h : IsLeft grammar t) (hr : isGeneral t.rule) {u : ParseTree Rule}
    (hu : u ∈ t.children) (hbare : isBare u.rule = false) : IsLeft grammar u := by
  by_cases hrule : t.rule = .execBlock
  · have hall := h.forall_children (by rw [hrule]; decide) isBare 0 (by rw [hrule]; decide) u hu
    rw [hbare] at hall
    cases hall
  · have hk : (grammar.definition t.rule).kind = .spaced := by
      cases hcase : t.rule <;>
        first
        | rfl
        | exact absurd hcase hrule
        | (rw [hcase] at hr; cases hr)
    exact (h.child hk hu).1

theorem isName_of_paramList (h : IsLeft grammar t) (hn : Named (.lexeme .ident) t) (hr : t.rule = .paramList) :
    ∀ name ∈ t.children.map ParseTree.string, isName name := by
  intro name hname
  obtain ⟨u, hu, rfl⟩ := List.mem_map.1 hname
  have hident := h.forall_children (by rw [hr]; decide) (· = .lexeme .ident) 0
    (by rw [hr]; decide) u hu
  exact (hn.child hu).isName (of_decide_eq_true hident)

mutual

/-- Every node of a statement is lowered to a statement, or a check of a circuit breaker has
failed inside. -/
theorem lowerStmt_meets : (t : ParseTree Rule) → IsLeft grammar t → Named (.lexeme .ident) t → isStatement t.rule →
    (lowerStmt place t).Meets (StmtMeaning t)
  | .node rule start stop children, h, hn, hr => by
    rw [lowerStmt]
    split
    · next hd => exact lowerDeclaration?_meets h hn hd
    · next hd =>
      have hgeneral := isGeneral_of_isStatement hr hd
      have hparts := lowerStmtParts_meets children
        (fun u hu => child_of_isGeneral h hgeneral hu) (fun u hu => hn.child hu)
      split
      · next d herror =>
        rw [herror] at hparts
        exact hparts
      · next parts hok =>
        rw [hok] at hparts
        obtain ⟨s, hs, hmeaning⟩ := assembles_of_isGeneral (place start.offset) h hgeneral hparts
        rw [show assembleStmt (place start.offset) rule parts = some s from hs]
        exact hmeaning

/-- The nodes inside a general statement are lowered to parts, one each. -/
theorem lowerStmtParts_meets : (ts : List (ParseTree Rule)) →
    (∀ t ∈ ts, isBare t.rule = false → IsLeft grammar t) → (∀ t ∈ ts, Named (.lexeme .ident) t) →
    (lowerStmtParts place ts).Meets (MakeParts ts)
  | [], _, _ => .nil
  | t :: ts, h, hn => by
    have hrest := lowerStmtParts_meets ts (fun u hu => h u (List.mem_cons_of_mem t hu))
      (fun u hu => hn u (List.mem_cons_of_mem t hu))
    have hleft := h t List.mem_cons_self
    have hnamed := hn t List.mem_cons_self
    have hpart : Lowered.Meets (if isStatement t.rule then (lowerStmt place t).map .stmt
        else if t.rule = .expr || t.rule = .call then (lowerExpr place t).map .expr
        else if t.rule = .paramList then .ok (.names (t.children.map ParseTree.string))
        else .ok (.token t.rule t.text)) (MakesPart t) := by
      by_cases hstmt : isStatement t.rule
      · rw [if_pos hstmt]
        have hbare : isBare t.rule = false := by simp [isBare, hstmt]
        exact (lowerStmt_meets t (hleft hbare) hnamed hstmt).map fun s hs => .stmt hstmt hs
      rw [if_neg hstmt]
      by_cases hexpr : t.rule = .expr || t.rule = .call
      · rw [if_pos hexpr]
        have hrule : t.rule = .expr ∨ t.rule = .call := by simpa using hexpr
        have hoperand : isOperand t.rule := by rcases hrule with hrule | hrule <;> (rw [hrule]; rfl)
        have hbare : isBare t.rule = false := by rcases hrule with hrule | hrule <;> (rw [hrule]; rfl)
        obtain ⟨e, he, hmeaning⟩ := exists_lowerExpr place t (hleft hbare) hnamed hoperand
        rw [he]
        exact .expr hrule hmeaning
      rw [if_neg hexpr]
      by_cases hparams : t.rule = .paramList
      · rw [if_pos hparams]
        exact .names hparams (isName_of_paramList (hleft (by simp [isBare, hparams])) hnamed hparams)
      · rw [if_neg hparams]
        exact .token (by simp_all [isBare]) hnamed.isName
    rw [lowerStmtParts]
    generalize (if isStatement t.rule then _ else _ : Lowered StmtPart) = part at hpart ⊢
    cases part with
    | error d => exact hpart
    | ok part => exact hrest.map fun parts hparts => .cons hpart hparts

end

/-- The statements of a parsed text are shaped, and may stand in a block. -/
theorem lowerProgram_meets {text : List Char} {trees : List (ParseTree Rule)}
    (h : grammar.parse .program text = .ok trees) :
    (lowerProgram place trees).Meets fun ss =>
      ∀ s ∈ ss, Shaped (.stmt s) ∧ !s.kind.isSchema && !s.kind.isRegion := by
  obtain ⟨d, hderives⟩ := derives_of_parse _ _ _ h
  have hnamed := named_of_parse h
  obtain ⟨t, rfl, hr⟩ : ∃ t, trees = [t] ∧ t.rule = .program :=
    List.map_eq_singleton_iff.1 (hderives.leaves ⟨rfl, nofun⟩ 0 (by decide))
  have ht := List.mem_singleton_self t
  have hleft := (hderives.isLeft ht).1
  refine Meets.mapM fun u hu => ?_
  obtain ⟨v, hv, hchild⟩ := List.mem_flatMap.1 hu
  rw [List.mem_singleton.1 hv] at hchild
  obtain ⟨hu, hend⟩ := List.mem_filter.1 hchild
  have hstatement := hleft.forall_children (by rw [hr]; decide)
    (fun r => isStatement r || r = .lexeme .endOfInput) 1 (by rw [hr]; decide) u hu
  rcases Bool.or_eq_true_iff.1 hstatement with hstatement | hstatement
  · refine (lowerStmt_meets u (hleft.child (by rw [hr]; rfl) hu).1 ((hnamed t ht).child hu)
      hstatement).imp fun s hs => ⟨hs.shaped, hs.inner⟩
  · exact absurd (of_decide_eq_true hstatement) (of_decide_eq_true hend)

end ServiceLang.MainGrammar
