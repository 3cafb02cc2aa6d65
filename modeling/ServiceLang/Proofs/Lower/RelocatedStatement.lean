import ServiceLang.Lower.Program
import ServiceLang.Proofs.Lower.RelocatedDeclaration

/-!
Alike trees make the same statements, elsewhere.

The parts of a general statement are related one by one (`StmtPart.Moves`), since tokens
whose text is not lowered may differ.  What is read off the parts agrees up to positions, and
so does the statement that is assembled of them (`assembleStmt_moves`).  So two main texts
whose trees are alike both have no statements, or have the same ones, elsewhere
(`lowerProgram_carries`).
-/

namespace ServiceLang.MainGrammar

open Peg

variable {f : Position → Position} {place place' : Nat → Position}

/-! ## Conditionals -/

theorem relocate_ifStmt (pos : Position) (c : Expr) (b : Block) (other : Option Block) :
    (Stmt.ifStmt pos c b other).relocate f =
      .ifStmt (f pos) (c.relocate f) (b.relocate f) (other.map (Block.relocate f)) := by
  cases other <;> rfl

theorem same_ifStmt_self (pos : Position) (c : Expr) (b : Block) (other : Option Block) :
    (Stmt.ifStmt pos c b other).same (.ifStmt pos c b other) =
      (c.same c && b.same b && sameOption Block.same other other) := by
  cases other with
  | none => rw [sameOption_none, Bool.and_true, Stmt.same]
  | some b' => rw [sameOption_some, Stmt.same]

/-! ## Parts -/

/-- The second part is the first with its positions replaced, and what has positions is equal
to itself. -/
inductive StmtPart.Moves (f : Position → Position) : StmtPart → StmtPart → Prop
  | expr {e : Expr} : e.same e = true → Moves f (.expr e) (.expr (e.relocate f))
  | stmt {s : Stmt} : s.same s = true → Moves f (.stmt s) (.stmt (s.relocate f))
  | names (names : List String) : Moves f (.names names) (.names names)
  | token {rule : Rule} {text text' : List Char} : (isRead rule → text = text') →
      Moves f (.token rule text) (.token rule text')

namespace StmtPart

variable {parts parts' : List StmtPart}

theorem statements_moves (h : List.Forall₂ (Moves f) parts parts') :
    statements parts' = (statements parts).map (Stmt.relocate f) ∧
      ∀ s ∈ statements parts, s.same s = true := by
  induction h with
  | nil => exact ⟨rfl, nofun⟩
  | cons hpart _ ih =>
    cases hpart with
    | stmt hs => exact ⟨congrArg (_ :: ·) ih.1, List.forall_mem_cons.2 ⟨hs, ih.2⟩⟩
    | _ => exact ih

theorem all_isStmt_moves (h : List.Forall₂ (Moves f) parts parts') :
    parts'.all isStmt = parts.all isStmt := by
  induction h with
  | nil => rfl
  | cons hpart _ ih => cases hpart <;> exact congrArg (_ && ·) ih

/-- What is looked for among the parts is found elsewhere among the others. -/
theorem findSome?_moves {α : Type} {k : StmtPart → Option α} {g : α → α} {P : α → Prop}
    (hk : ∀ part part', Moves f part part' → k part' = (k part).map g ∧ ∀ a, k part = some a → P a)
    (h : List.Forall₂ (Moves f) parts parts') :
    parts'.findSome? k = (parts.findSome? k).map g ∧ ∀ a, parts.findSome? k = some a → P a := by
  induction h with
  | nil => exact ⟨rfl, nofun⟩
  | @cons part part' parts parts' hpart _ ih =>
    obtain ⟨heq, hp⟩ := hk part part' hpart
    rw [List.findSome?_cons, List.findSome?_cons, heq]
    cases hfound : k part with
    | none => exact ih
    | some a => exact ⟨rfl, fun b hb => Option.some.inj hb ▸ hp a hfound⟩

theorem expr?_moves (h : List.Forall₂ (Moves f) parts parts') :
    expr? parts' = (expr? parts).map (Expr.relocate f) ∧
      ∀ e, expr? parts = some e → e.same e = true :=
  findSome?_moves (fun part part' hpart => by
    cases hpart with
    | expr he => exact ⟨rfl, fun e h => Option.some.inj h ▸ he⟩
    | _ => exact ⟨rfl, nofun⟩) h

theorem block?_moves (h : List.Forall₂ (Moves f) parts parts') :
    block? parts' = (block? parts).map (Block.relocate f) ∧
      ∀ b, block? parts = some b → b.same b = true :=
  findSome?_moves (fun part part' hpart => by
    cases hpart with
    | @stmt s hs =>
      cases s with
      | block b => exact ⟨rfl, fun b' h => Option.some.inj h ▸ hs⟩
      | ifStmt _ _ _ other => cases other <;> exact ⟨rfl, nofun⟩
      | _ => exact ⟨rfl, nofun⟩
    | _ => exact ⟨rfl, nofun⟩) h

/-- What is looked for without regard to positions is found the same among the others. -/
theorem findSome?_eq_of_moves {α : Type} {k : StmtPart → Option α}
    (hk : ∀ part part', Moves f part part' → k part' = k part)
    (h : List.Forall₂ (Moves f) parts parts') : parts'.findSome? k = parts.findSome? k := by
  induction h with
  | nil => rfl
  | cons hpart _ ih => rw [List.findSome?_cons, List.findSome?_cons, hk _ _ hpart, ih]

theorem params_moves (h : List.Forall₂ (Moves f) parts parts') : params parts' = params parts := by
  refine congrArg (fun ns => Option.getD ns []) (findSome?_eq_of_moves (fun part part' hpart => ?_) h)
  cases hpart <;> rfl

theorem name_moves (h : List.Forall₂ (Moves f) parts parts') : name parts' = name parts := by
  refine congrArg (fun n => Option.getD n "") (findSome?_eq_of_moves (fun part part' hpart => ?_) h)
  cases hpart with
  | @token rule text text' htext =>
    cases rule with
    | lexeme l =>
      cases l with
      | ident => rw [htext (by decide)]
      | _ => rfl
    | _ => rfl
  | _ => rfl

theorem command_moves (h : List.Forall₂ (Moves f) parts parts') : command parts' = command parts := by
  refine congrArg (fun n => Option.getD n "") (findSome?_eq_of_moves (fun part part' hpart => ?_) h)
  cases hpart with
  | @token rule text text' htext =>
    cases rule with
    | shellBody => rw [htext (by decide)]
    | _ => rfl
  | _ => rfl

end StmtPart

/-! ## Assembling -/

theorem elseBlock?_relocate (ss : List Stmt) :
    elseBlock? (ss.map (Stmt.relocate f)) = (elseBlock? ss).map (Block.relocate f) := by
  match ss with
  | [] | [_] => rfl
  | _ :: s :: _ =>
    cases s with
    | ifStmt _ _ _ other => cases other <;> rfl
    | _ => rfl

theorem same_elseBlock? {ss : List Stmt} (h : ∀ s ∈ ss, s.same s = true) {b : Block}
    (hb : elseBlock? ss = some b) : b.same b = true := by
  unfold elseBlock? at hb
  split at hb
  · exact Option.some.inj hb ▸ h (.block _) (by simp)
  · next pos c t e _ =>
    have hs : (Stmt.ifStmt pos c t e).same (.ifStmt pos c t e) = true := h _ (by simp)
    rw [← Option.some.inj hb, Block.same, Stmt.sameAll, hs]
    rfl
  · cases hb

/-- Assembling agrees up to positions. -/
theorem assembleStmt_moves (pos : Position) (rule : Rule) {parts parts' : List StmtPart}
    (h : List.Forall₂ (StmtPart.Moves f) parts parts') :
    assembleStmt (f pos) rule parts' = (assembleStmt pos rule parts).map (Stmt.relocate f) ∧
      ∀ s, assembleStmt pos rule parts = some s → s.same s = true := by
  obtain ⟨hexpr, hexprSame⟩ := StmtPart.expr?_moves h
  obtain ⟨hblock, hblockSame⟩ := StmtPart.block?_moves h
  obtain ⟨hstmts, hstmtsSame⟩ := StmtPart.statements_moves h
  unfold assembleStmt
  dsimp only
  rw [StmtPart.name_moves h, StmtPart.command_moves h, StmtPart.params_moves h,
    StmtPart.all_isStmt_moves h, hexpr, hblock, hstmts, elseBlock?_relocate]
  have helse : sameOption Block.same (elseBlock? (StmtPart.statements parts))
      (elseBlock? (StmtPart.statements parts)) = true :=
    (sameOption_self_iff _).2 fun b hb => same_elseBlock? hstmtsSame hb
  generalize StmtPart.expr? parts = e at hexprSame
  generalize StmtPart.block? parts = b at hblockSame
  cases rule with
  | varDecl | returnStmt =>
    refine ⟨rfl, fun s hs => ?_⟩
    rw [← Option.some.inj hs]
    simpa [Stmt.same] using (sameOption_self_iff e).2 hexprSame
  | assignment | exprStmt =>
    cases e with
    | none => exact ⟨rfl, nofun⟩
    | some e =>
      refine ⟨rfl, fun s hs => ?_⟩
      rw [← Option.some.inj hs]
      simpa [Stmt.same] using hexprSame e rfl
  | ifStmt =>
    cases e with
    | none => exact ⟨rfl, nofun⟩
    | some e =>
      cases b with
      | none => exact ⟨rfl, nofun⟩
      | some b =>
        refine ⟨congrArg some (relocate_ifStmt _ _ _ _).symm, fun s hs => ?_⟩
        rw [← Option.some.inj hs, same_ifStmt_self, hexprSame e rfl, hblockSame b rfl, helse]
        rfl
  | forLoop =>
    cases e with
    | none => exact ⟨rfl, nofun⟩
    | some e =>
      cases b with
      | none => exact ⟨rfl, nofun⟩
      | some b =>
        refine ⟨rfl, fun s hs => ?_⟩
        rw [← Option.some.inj hs]
        simp [Stmt.same, hexprSame e rfl, hblockSame b rfl]
  | functionDecl =>
    cases b with
    | none => exact ⟨rfl, nofun⟩
    | some b =>
      refine ⟨rfl, fun s hs => ?_⟩
      rw [← Option.some.inj hs]
      simp [Stmt.same, hblockSame b rfl]
  | execBlock =>
    refine ⟨rfl, fun s hs => ?_⟩
    rw [← Option.some.inj hs]
    simp [Stmt.same]
  | block =>
    dsimp only
    split
    · refine ⟨congrArg (fun ss => some (Stmt.block (.mk (f pos) ss)))
        (Stmt.relocateAll_eq_map f _).symm, fun s hs => ?_⟩
      rw [← Option.some.inj hs]
      exact (Stmt.sameAll_self_iff _).2 hstmtsSame
    · exact ⟨rfl, nofun⟩
  | _ => exact ⟨rfl, nofun⟩

/-! ## Statements -/

mutual

/-- Alike trees make the same statement, elsewhere. -/
theorem lowerStmt_carries {t t' : ParseTree Rule} (h : AlikeTrees f place place' t t') :
    Carries (Stmt.relocate f) (fun s => s.same s = true) (lowerStmt place t)
      (lowerStmt place' t') := by
  obtain ⟨rule, start, stop, children⟩ := t
  obtain ⟨rule', start', stop', children'⟩ := t'
  obtain rfl : rule = rule' := h.rule_eq
  have hplace : place' start'.offset = f (place start.offset) := h.place_eq
  have hdeclaration := lowerDeclaration?_alike h
  unfold lowerStmt
  generalize lowerDeclaration? place (.node rule start stop children) = d at hdeclaration ⊢
  generalize lowerDeclaration? place' (.node rule start' stop' children') = d' at hdeclaration ⊢
  cases hdeclaration with
  | some hd => exact hd
  | none =>
  have hparts : Agree (List.Forall₂ (StmtPart.Moves f)) (lowerStmtParts place children)
      (lowerStmtParts place' children') := lowerStmtParts_moves h.children
  generalize lowerStmtParts place children = x at hparts
  generalize lowerStmtParts place' children' = x' at hparts
  cases hparts with
  | error e e' => exact .error e e'
  | @ok parts parts' hparts =>
  obtain ⟨heq, hsame⟩ := assembleStmt_moves (place start.offset) rule hparts
  dsimp only
  rw [hplace, heq]
  cases hs : assembleStmt (place start.offset) rule parts with
  | some s => exact .ok (hsame s hs)
  | none => exact .error _ _

/-- Alike trees make related parts. -/
theorem lowerStmtParts_moves {ts ts' : List (ParseTree Rule)}
    (h : List.Forall₂ (AlikeTrees f place place') ts ts') :
    Agree (List.Forall₂ (StmtPart.Moves f)) (lowerStmtParts place ts)
      (lowerStmtParts place' ts') := by
  cases h with
  | nil => exact .ok .nil
  | @cons t t' ts ts' ht hts =>
    have ht : AlikeTrees f place place' t t' := ht
    have hpart : Agree (StmtPart.Moves f)
        (if isStatement t.rule then (lowerStmt place t).map .stmt
          else if t.rule = .expr || t.rule = .call then (lowerExpr place t).map .expr
          else if t.rule = .paramList then .ok (.names (t.children.map ParseTree.string))
          else .ok (.token t.rule t.text) : Lowered StmtPart)
        (if isStatement t'.rule then (lowerStmt place' t').map .stmt
          else if t'.rule = .expr || t'.rule = .call then (lowerExpr place' t').map .expr
          else if t'.rule = .paramList then .ok (.names (t'.children.map ParseTree.string))
          else .ok (.token t'.rule t'.text) : Lowered StmtPart) := by
      rw [← ht.rule_eq]
      split
      · exact (lowerStmt_carries ht).agree_map fun _ => .stmt
      split
      · exact (lowerExpr_carries ht).agree_map fun _ => .expr
      split
      · next hr =>
        rw [ht.map_string_children hr]
        exact .ok (.names _)
      · exact .ok (.token ht.text_eq)
    have hrest := lowerStmtParts_moves hts
    unfold lowerStmtParts
    dsimp only
    generalize (if isStatement t.rule then _ else _ : Lowered StmtPart) = x at hpart ⊢
    generalize (if isStatement t'.rule then _ else _ : Lowered StmtPart) = x' at hpart ⊢
    generalize lowerStmtParts place ts = y at hrest
    generalize lowerStmtParts place' ts' = y' at hrest
    cases hpart with
    | error e e' => exact .error e e'
    | ok hpart =>
      cases hrest with
      | error e e' => exact .error e e'
      | ok hrest => exact .ok (.cons hpart hrest)

end

/-- The statements of texts with alike nodes are the same, elsewhere. -/
theorem lowerProgram_carries {trees trees' : List (ParseTree Rule)}
    (h : List.Forall₂ (fun t t' => List.Forall₂ (AlikeTrees f place place') t.children t'.children)
      trees trees') :
    Carries (List.map (Stmt.relocate f)) (fun ss => ∀ s ∈ ss, s.same s = true)
      (lowerProgram place trees) (lowerProgram place' trees') := by
  have hall : List.Forall₂ (AlikeTrees f place place')
      (trees.flatMap fun t => t.children.filter (·.rule ≠ .lexeme .endOfInput))
      (trees'.flatMap fun t => t.children.filter (·.rule ≠ .lexeme .endOfInput)) := by
    induction h with
    | nil => exact .nil
    | cons ht _ ih =>
      rw [List.flatMap_cons, List.flatMap_cons]
      refine List.rel_append (List.rel_filter (fun u u' hu => ?_) ht) ih
      have hrule : u.rule = u'.rule := AlikeTrees.rule_eq hu
      simp [hrule]
  exact .mapM (List.Forall₂.imp (fun _ _ hu => lowerStmt_carries hu) hall)

end ServiceLang.MainGrammar
