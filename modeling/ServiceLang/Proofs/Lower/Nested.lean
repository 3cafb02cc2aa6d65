import ServiceLang.Proofs.Ast.Walk
import ServiceLang.Proofs.Lower.Place
import ServiceLang.Proofs.Lower.Statement
import ServiceLang.Proofs.Peg.Depth

/-!
Statements at all depths.

A statement that is written inside another one is lowered by itself, and what it is lowered
to is a node below the other (`exists_of_mem_nodes`).  Only the blocks that belong to an
`if`, a loop or a function are not statements there any more.  A general statement uses all
statements right inside it, which its pattern allows in a few forms only (`Bodies`); and
below everything else there are no statements (`isInner`).

Each rule of statements is lowered to one kind of statement, so a statement tells of what
rule its node was (`rule_of_lowerStmt`).
-/

namespace ServiceLang.MainGrammar

open Peg

variable {place : Nat → Position}

/-! ## Which rule a statement is lowered from -/

/-- The rule whose nodes are lowered to such statements, if main text has them. -/
def ruleOf? : Stmt → Option Rule
  | .varDecl .. => some .varDecl
  | .assignment .. => some .assignment
  | .exprStmt .. => some .exprStmt
  | .ifStmt .. => some .ifStmt
  | .forLoop .. => some .forLoop
  | .function .. => some .functionDecl
  | .returnStmt .. => some .returnStmt
  | .exec .. => some .execBlock
  | .block .. => some .block
  | .config .. => some .configDecl
  | .database .. => some .databaseDecl
  | .auth .. => some .authDecl
  | .role .. => some .roleDecl
  | .middleware .. => some .middlewareDecl
  | .event .. => some .eventDecl
  | .eventHandler .. => some .eventHandler
  | .integration .. => some .integrationDecl
  | .webhook .. => some .webhookDecl
  | .model .. | .collection .. | .endpoint .. | .workflow .. | .job .. => none

section

variable {s : Stmt}

theorem rule_of_declaration {t : ParseTree Rule} (h : lowerDeclaration? place t = some (.ok s)) :
    ruleOf? s = some t.rule := by
  have map : ∀ {α : Type} {f : α → Stmt} {x : Lowered α}, some (f <$> x) = some (.ok s) →
      ∃ a, f a = s := fun h => by
    obtain ⟨a, -, ha⟩ := map_eq_ok (Option.some.inj h)
    exact ⟨a, ha⟩
  unfold lowerDeclaration? at h
  split at h
  all_goals next hr => first
    | (obtain ⟨a, rfl⟩ := map h; rw [hr]; rfl)
    | (cases h; rw [hr]; rfl)
    | cases h

theorem rule_of_assembleStmt {pos : Position} {rule : Rule} {parts : List StmtPart}
    (h : assembleStmt pos rule parts = some s) : ruleOf? s = some rule := by
  unfold assembleStmt at h
  dsimp only at h
  split at h
  · cases h; rfl
  · obtain ⟨e, -, rfl⟩ := Option.map_eq_some_iff.1 h
    rfl
  · obtain ⟨e, -, rfl⟩ := Option.map_eq_some_iff.1 h
    rfl
  · split at h
    · cases h; rfl
    · cases h
  · split at h
    · cases h; rfl
    · cases h
  · obtain ⟨b, -, rfl⟩ := Option.map_eq_some_iff.1 h
    rfl
  · cases h; rfl
  · cases h; rfl
  · split at h
    · cases h; rfl
    · cases h
  · cases h

/-- The rule of a node shows in the statement that it is lowered to. -/
theorem rule_of_lowerStmt {t : ParseTree Rule} (h : lowerStmt place t = .ok s) :
    ruleOf? s = some t.rule := by
  obtain ⟨rule, start, stop, children⟩ := t
  rw [lowerStmt] at h
  split at h
  · next declaration hd =>
    subst h
    exact rule_of_declaration hd
  · split at h
    · cases h
    · split at h
      · next ha =>
        cases h
        exact rule_of_assembleStmt ha
      · cases h

end

/-! ## Where there are no statements -/

/-- Rules whose patterns have no statements in them. -/
def isInner (r : Rule) : Bool := !isStatement r && r ≠ .statement && r ≠ .program

theorem leavesOnly_isInner (r : Rule) (hr : isInner r) :
    (grammar.definition r).pattern.leavesOnly isInner := by
  cases r with
  | lexeme l => cases l <;> decide
  | word w => cases w <;> decide
  | _ => first | decide | cases hr

theorem isInner_of_mem_nodes {t u : ParseTree Rule} (h : IsDerived grammar t) (ht : isInner t.rule)
    (hu : u ∈ t.nodes) : isStatement u.rule = false := by
  have := IsDerived.forall_nodes leavesOnly_isInner t h ht u hu
  simp only [isInner, Bool.and_eq_true, Bool.not_eq_true'] at this
  exact this.1.1

/-- Right inside a statement there are statements, and nodes without any. -/
theorem isInner_or_isStatement_of_child {t u : ParseTree Rule} (h : IsLeft grammar t)
    (ht : isStatement t.rule) (hu : u ∈ t.children) : isStatement u.rule ∨ isInner u.rule := by
  have := h.forall_children (by cases hr : t.rule <;> first | decide | (rw [hr] at ht; cases ht))
    (fun r => isStatement r || isInner r) 1
    (by cases hr : t.rule <;> first | decide | (rw [hr] at ht; cases ht)) u hu
  exact Bool.or_eq_true_iff.1 this

/-- The statement nodes right inside a node. -/
def statementsIn (t : ParseTree Rule) : List (ParseTree Rule) := t.children.filter (isStatement ·.rule)

/-! ## Statements right inside statements -/

/-- The statements that may stand right inside a statement of the rule. -/
inductive Bodies : Rule → List Stmt → Prop
  | none (r : Rule) : Bodies r []
  | block (ss : List Stmt) : Bodies .block ss
  | forLoop (b : Block) : Bodies .forLoop [.block b]
  | function (b : Block) : Bodies .functionDecl [.block b]
  | ifStmt (b : Block) : Bodies .ifStmt [.block b]
  | orElse (b e : Block) : Bodies .ifStmt [.block b, .block e]
  | elseIf (b : Block) (pos : Position) (c : Expr) (t : Block) (e : Option Block) :
      Bodies .ifStmt [.block b, .ifStmt pos c t e]

theorem StmtPart.block?_eq (parts : List StmtPart) :
    StmtPart.block? parts = (StmtPart.statements parts).findSome? fun
      | .block b => some b
      | _ => none := by
  induction parts with
  | nil => rfl
  | cons part parts ih =>
    rw [StmtPart.block?, StmtPart.statements] at ih
    cases part with
    | stmt s => cases s <;> simp [StmtPart.block?, StmtPart.statements, ih]
    | expr e => simp [StmtPart.block?, StmtPart.statements, ih]
    | names ns => simp [StmtPart.block?, StmtPart.statements, ih]
    | token r text => simp [StmtPart.block?, StmtPart.statements, ih]

/-- A statement of a block is a node of the block, also where the block is no statement. -/
theorem mem_preorder_block {b : Block} {s : Stmt} (hs : ∀ b, s ≠ .block b)
    (h : Node.stmt s ∈ (Stmt.block b).preorder) : Node.stmt s ∈ b.preorder := by
  rw [Stmt.preorder_eq, List.mem_cons] at h
  rw [Block.preorder_eq, List.mem_cons]
  exact h.elim (fun heq => absurd (Node.stmt.inj heq) (hs b)) .inr

/-- All that stands in the statements right inside a statement stands in that one. -/
theorem Bodies.mem_preorder {pos : Position} {r : Rule} {parts : List StmtPart} {s s₁ s₂ : Stmt}
    (h : Bodies r (StmtPart.statements parts)) (hs : assembleStmt pos r parts = some s)
    (h₁ : s₁ ∈ StmtPart.statements parts) (hs₂ : ∀ b, s₂ ≠ .block b)
    (hmem : .stmt s₂ ∈ s₁.preorder) : .stmt s₂ ∈ s.preorder := by
  have hblock := StmtPart.block?_eq parts
  unfold assembleStmt at hs
  dsimp only at hs
  rw [hblock] at hs
  generalize StmtPart.statements parts = ss at *
  have below {n : Node} (hn : n ∈ s.children) (hm : .stmt s₂ ∈ n.preorder) : .stmt s₂ ∈ s.preorder := by
    rw [Stmt.preorder_eq]
    exact List.mem_cons_of_mem _ (List.mem_flatMap.2 ⟨n, hn, hm⟩)
  have body {b : Block} (hb : .block b ∈ s.children) (h : .stmt s₂ ∈ (Stmt.block b).preorder) :
      .stmt s₂ ∈ s.preorder := 
    below (n := .block b) hb (mem_preorder_block hs₂ h)
  cases h with
  | none => cases h₁
  | block =>
    dsimp only at hs
    split at hs <;> cases hs
    exact below (List.mem_map_of_mem h₁) hmem
  | forLoop b =>
    obtain rfl := List.mem_singleton.1 h₁
    cases he : StmtPart.expr? parts <;> (rw [he] at hs; cases hs)
    exact body (by simp [Stmt.children]) hmem
  | function b =>
    obtain rfl := List.mem_singleton.1 h₁
    cases hs
    exact body (by simp [Stmt.children]) hmem
  | ifStmt b =>
    obtain rfl := List.mem_singleton.1 h₁
    cases he : StmtPart.expr? parts <;> (rw [he] at hs; cases hs)
    exact body (by simp [Stmt.children]) hmem
  | orElse b e =>
    cases he : StmtPart.expr? parts <;> (rw [he] at hs; cases hs)
    rcases List.mem_cons.1 h₁ with rfl | h₁
    · exact body (by simp [Stmt.children]) hmem
    · obtain rfl := List.mem_singleton.1 h₁
      exact body (by simp [Stmt.children, elseBlock?]) hmem
  | elseIf b pos' c t e =>
    cases he : StmtPart.expr? parts <;> (rw [he] at hs; cases hs)
    rcases List.mem_cons.1 h₁ with rfl | h₁
    · exact body (by simp [Stmt.children]) hmem
    · obtain rfl := List.mem_singleton.1 h₁
      refine below (n := .block (.mk pos' [.ifStmt pos' c t e])) (by simp [Stmt.children, elseBlock?]) ?_
      rw [Node.mem_preorder_iff]
      exact .inr ⟨_, List.mem_singleton_self _, hmem⟩

/-- The statements among the parts are lowered from the statements right inside the node. -/
theorem statements_of_lowerStmtParts {ts : List (ParseTree Rule)} {parts : List StmtPart}
    (h : lowerStmtParts place ts = .ok parts) :
    List.Forall₂ (fun u s => lowerStmt place u = .ok s) (ts.filter (isStatement ·.rule))
      (StmtPart.statements parts) := by
  induction ts generalizing parts with
  | nil =>
    cases h
    exact .nil
  | cons t ts ih =>
    rw [lowerStmtParts] at h
    split at h
    · cases h
    next part hpart =>
    obtain ⟨rest, hrest, rfl⟩ := map_eq_ok h
    have ih := ih hrest
    split at hpart
    · next ht =>
      obtain ⟨s, hs, rfl⟩ := map_eq_ok hpart
      rw [List.filter_cons, if_pos ht]
      exact .cons hs ih
    next ht =>
    rw [List.filter_cons, if_neg ht]
    split at hpart
    · obtain ⟨e, -, rfl⟩ := map_eq_ok hpart
      exact ih
    split at hpart
    · cases hpart
      exact ih
    · cases hpart
      exact ih

/-- The rules of the statements right inside a statement. -/
theorem rules_of_statementsIn {t : ParseTree Rule} (h : IsLeft grammar t) (ht : isStatement t.rule) :
    let rules := (statementsIn t).map ParseTree.rule
    rules = [] ∨ t.rule = .block ∨
      (t.rule = .forLoop ∨ t.rule = .functionDecl ∨ t.rule = .ifStmt) ∧ rules = [.block] ∨
      t.rule = .ifStmt ∧ (rules = [.block, .block] ∨ rules = [.block, .ifStmt]) := by
  intro rules
  have hrules : rules = (t.children.map ParseTree.rule).filter isStatement := by
    rw [List.filter_map]
    rfl
  have hk : (grammar.definition t.rule).kind ≠ .token := by
    cases hr : t.rule <;> first | decide | (rw [hr] at ht; cases ht)
  have leaves := h.leaves hk 0
  have only (hp : (grammar.definition t.rule).pattern.leavesOnly
      (grammar.leavesOnly (fun r => !isStatement r) 0)) : rules = [] := by
    rw [hrules, List.filter_eq_nil_iff]
    intro r hr
    obtain ⟨u, hu, rfl⟩ := List.mem_map.1 hr
    simpa using h.forall_children hk (fun r => !isStatement r) 0 hp u hu
  rw [hrules]
  cases hr : t.rule with
  | block => exact .inr (.inl rfl)
  | forLoop =>
    rw [hr] at leaves
    obtain ⟨_, _, heq, h₁, _, _, rfl, h₂, _, _, rfl, h₃, _, _, rfl, h₄, h₅⟩ := leaves
    rw [heq, h₁ (by decide), h₂ (by decide), h₃ (by decide), h₄ (by decide), h₅ (by decide)]
    exact .inr (.inr (.inl ⟨.inl rfl, rfl⟩))
  | functionDecl =>
    rw [hr] at leaves
    obtain ⟨_, _, heq, h₁, _, _, rfl, h₂, _, _, rfl, h₃, _, _, rfl, h₄, _, _, rfl, h₅, h₆⟩ := leaves
    obtain rfl : _ = [] := h₃
    obtain rfl : _ = [] := h₅
    refine .inr (.inr (.inl ⟨.inr (.inl rfl), ?_⟩))
    rcases h₄ with rfl | h₄
    · rw [heq, h₁ (by decide), h₂ (by decide), h₆ (by decide)]
      rfl
    · rw [heq, h₁ (by decide), h₂ (by decide), h₄ (by decide), h₆ (by decide)]
      rfl
  | ifStmt =>
    rw [hr] at leaves
    obtain ⟨_, _, heq, h₁, _, _, rfl, h₂, _, _, rfl, h₃, h₄⟩ := leaves
    rw [heq, h₁ (by decide), h₂ (by decide), h₃ (by decide)]
    rcases h₄ with rfl | ⟨_, _, rfl, h₄, h₅ | h₅⟩
    · exact .inr (.inr (.inl ⟨.inr (.inr rfl), rfl⟩))
    · rw [h₄ (by decide), h₅ (by decide)]
      exact .inr (.inr (.inr ⟨rfl, .inr rfl⟩))
    · rw [h₄ (by decide), h₅ (by decide)]
      exact .inr (.inr (.inr ⟨rfl, .inl rfl⟩))
  | _ => first | (rw [hr] at ht; cases ht; done) | exact .inl (hrules ▸ only (by rw [hr]; decide))

theorem exists_block_of_ruleOf? {s : Stmt} (h : ruleOf? s = some .block) : ∃ b, s = .block b := by
  cases s <;> first | exact ⟨_, rfl⟩ | cases h

theorem exists_ifStmt_of_ruleOf? {s : Stmt} (h : ruleOf? s = some .ifStmt) :
    ∃ pos c b e, s = .ifStmt pos c b e := by
  cases s <;> first | exact ⟨_, _, _, _, rfl⟩ | cases h

theorem map_ruleOf?_eq {ts : List (ParseTree Rule)} {ss : List Stmt}
    (h : List.Forall₂ (fun u s => lowerStmt place u = .ok s) ts ss) :
    ss.map ruleOf? = (ts.map ParseTree.rule).map some := by
  induction h with
  | nil => rfl
  | cons hs _ ih => rw [List.map_cons, List.map_cons, List.map_cons, ih, rule_of_lowerStmt hs]

/-- The statements right inside a statement have one of the forms. -/
theorem bodies_of_statementsIn {t : ParseTree Rule} {ss : List Stmt} (h : IsLeft grammar t)
    (ht : isStatement t.rule)
    (hss : List.Forall₂ (fun u s => lowerStmt place u = .ok s) (statementsIn t) ss) :
    Bodies t.rule ss := by
  have hrules := map_ruleOf?_eq hss
  rcases rules_of_statementsIn h ht with hnil | hblock | ⟨hr, hbody⟩ | ⟨hr, hbody | hbody⟩
  · rw [hnil] at hrules
    rw [List.map_eq_nil_iff.1 hrules]
    exact .none t.rule
  · rw [hblock]
    exact .block ss
  · rw [hbody] at hrules
    obtain ⟨s, rfl, hs⟩ := List.map_eq_singleton_iff.1 hrules
    obtain ⟨b, rfl⟩ := exists_block_of_ruleOf? hs
    rcases hr with hr | hr | hr <;> rw [hr]
    · exact .forLoop b
    · exact .function b
    · exact .ifStmt b
  · rw [hbody] at hrules
    obtain ⟨s, rest, rfl, hs, hrest⟩ := List.map_eq_cons_iff.1 hrules
    obtain ⟨s', rfl, hs'⟩ := List.map_eq_singleton_iff.1 hrest
    obtain ⟨b, rfl⟩ := exists_block_of_ruleOf? hs
    obtain ⟨e, rfl⟩ := exists_block_of_ruleOf? hs'
    rw [hr]
    exact .orElse b e
  · rw [hbody] at hrules
    obtain ⟨s, rest, rfl, hs, hrest⟩ := List.map_eq_cons_iff.1 hrules
    obtain ⟨s', rfl, hs'⟩ := List.map_eq_singleton_iff.1 hrest
    obtain ⟨b, rfl⟩ := exists_block_of_ruleOf? hs
    obtain ⟨pos, c, b', e, rfl⟩ := exists_ifStmt_of_ruleOf? hs'
    rw [hr]
    exact .elseIf b pos c b' e

/-! ## Statements at any depth -/

/-- There are no statements inside a declaration. -/
theorem not_isStatement_of_declaration {t u v : ParseTree Rule} (h : IsLeft grammar t)
    (ht : lowerDeclaration? place t ≠ none) (hv : v ∈ t.children) (hu : u ∈ v.nodes) :
    isStatement u.rule = false := by
  have hinner : isInner v.rule := by
    refine h.forall_children ?_ isInner 0 ?_ v hv
    all_goals
      unfold lowerDeclaration? at ht
      split at ht <;> first | exact absurd rfl ht | (rename_i hr; rw [hr]; decide)
  exact isInner_of_mem_nodes (h.isDerived.child hv) hinner hu

/-- A statement anywhere below a node that is left among spaced rules is left among such. -/
theorem isLeft_of_mem_nodes : (t : ParseTree Rule) → IsLeft grammar t → (u : ParseTree Rule) → u ∈ t.nodes →
    isStatement u.rule → IsLeft grammar u
  | .node rule start stop children, hleft, u, hu, hstatement => by
    have houtside {v : ParseTree Rule} (hv : IsDerived grammar v) (hmem : u ∈ v.nodes) :
        ¬isInner v.rule := fun hinner => by
      rw [isInner_of_mem_nodes hv hinner hmem] at hstatement
      cases hstatement
    have hrule : ¬isInner rule := houtside hleft.isDerived hu
    rcases List.mem_cons.1 hu with rfl | hu
    · exact hleft
    obtain ⟨v, hv, huv⟩ := (ParseTree.mem_nodesAll_iff children u).1 hu
    have hexec : rule ≠ .execBlock := by
      rintro rfl
      exact houtside (hleft.isDerived.child hv) huv
        (hleft.forall_children (show Kind.unspaced ≠ .token by decide) isInner 0 rfl v hv)
    have hspacing : (grammar.definition rule).kind.inner .free = .free := by
      cases rule <;> first | rfl | exact absurd rfl hrule | exact absurd rfl hexec
    obtain ⟨f, -, hd⟩ := id hleft
    exact isLeft_of_mem_nodes v ((hspacing ▸ hd).isLeft hv).1 u huv hstatement
termination_by t => t
decreasing_by
  have := List.sizeOf_lt_of_mem hv
  simp only [ParseTree.node.sizeOf_spec]
  omega

/-- A statement anywhere below a lowered statement is lowered to a statement below that one,
unless it is a block. -/
theorem exists_of_mem_nodes : (t : ParseTree Rule) → IsLeft grammar t → isStatement t.rule →
    {s : Stmt} → lowerStmt place t = .ok s → (u : ParseTree Rule) → u ∈ t.nodes →
    isStatement u.rule → u.rule ≠ .block → ∃ s', lowerStmt place u = .ok s' ∧ .stmt s' ∈ s.preorder
  | .node rule start stop children, hleft, ht, s, h, u, hu, hstatement, hblock => by
    rcases List.mem_cons.1 hu with rfl | hu
    · refine ⟨s, h, ?_⟩
      rw [Stmt.preorder_eq]
      exact List.mem_cons_self
    obtain ⟨v, hv, huv⟩ := (ParseTree.mem_nodesAll_iff children u).1 hu
    rw [lowerStmt] at h
    split at h
    · next declaration hd =>
      have := not_isStatement_of_declaration hleft (by rw [hd]; exact Option.some_ne_none _) hv huv
      rw [hstatement] at this
      cases this
    split at h
    · cases h
    next parts hparts =>
    split at h
    · next hassemble =>
      cases h
      have hss := statements_of_lowerStmtParts hparts
      rcases isInner_or_isStatement_of_child hleft ht hv with hvs | hinner
      · obtain ⟨sv, hsv, hlower⟩ := exists_partner hss.flip (List.mem_filter.2 ⟨hv, hvs⟩)
        have hvleft : IsLeft grammar v := by
          rcases spaced_of_assembleStmt hassemble with hk | rfl
          · exact (hleft.child hk hv).1
          · have hexec : isInner v.rule :=
              hleft.forall_children (show Kind.unspaced ≠ .token by decide) isInner 0 rfl v hv
            rw [isInner, hvs] at hexec
            cases hexec
        obtain ⟨s', hs', hmem⟩ := exists_of_mem_nodes v hvleft hvs hlower u huv hstatement hblock
        refine ⟨s', hs', (bodies_of_statementsIn hleft ht hss).mem_preorder hassemble hsv ?_ hmem⟩
        rintro b rfl
        exact hblock (Option.some.inj (rule_of_lowerStmt hs')).symm
      · rw [isInner_of_mem_nodes (hleft.isDerived.child hv) hinner huv] at hstatement
        cases hstatement
    · cases h
termination_by t => t
decreasing_by
  have := List.sizeOf_lt_of_mem hv
  simp only [ParseTree.node.sizeOf_spec]
  omega

end ServiceLang.MainGrammar
