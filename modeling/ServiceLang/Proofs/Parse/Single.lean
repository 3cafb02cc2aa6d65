import ServiceLang.Proofs.Grammar.Level
import ServiceLang.Proofs.Parse.Accepted
import ServiceLang.Proofs.Peg.Fuel
import ServiceLang.Proofs.Peg.Run

/-!
Sources of one statement.

Where the grammar of main text matches one statement, and behind it trivia goes on to the
end, the text is a program of that statement (`exists_parse_of_statement`); where trivia does
not, and no further statement matches, it is no program (`not_accepts_of_statement`).  If the
scanner finds nothing in such a text, the source is parsed to the statement that the node is
lowered to (`Source.parse_of_statement`).  The other way round, a program of one statement that
regions do not declare comes from one node of its source, the first thing in it
(`Source.exists_of_parse_single`).
-/

namespace ServiceLang

open Peg Region

namespace MainGrammar

/-- Fuel behind that of a parse has the same outcome. -/
theorem run_eq (text : List Char) {fuel : Nat} (hf : grammar.fuel text.length ≤ fuel) :
    grammar.run .program text = matchRule grammar fuel .program ⟨.none, .free⟩ (.start text) .empty :=
  run_eq_of_le settles_rules text fuel hf .program

/-! ## Programs of one statement -/

section

variable {text : List Char} {fuel : Nat} {tree : ParseTree Rule} {g : Cursor}

/-- Statements and trivia behind them make a program. -/
theorem exists_parse_of_statements {nodes : List (ParseTree Rule)}
    (hf : grammar.fuel text.length ≤ fuel + 1)
    (h : Matches (matchRule grammar fuel) true (.many (.rule .statement)) ⟨.none, .free⟩
      (skipTrivia (.start text)) nodes g) (hg : (skipTrivia g).rest = []) :
    ∃ trees, grammar.parse .program text = .ok trees ∧ statementNodes trees = nodes := by
  have ending : Matches (matchRule grammar fuel) true (lex .endOfInput) ⟨.none, .free⟩
      (skipTrivia g) [.node (.lexeme .endOfInput) (skipTrivia g) (skipTrivia g).offset []]
      (skipTrivia g) := by
    obtain ⟨n, rfl⟩ : ∃ n, fuel = n + 1 := by
      refine ⟨fuel - 1, ?_⟩
      have : 2 ≤ grammar.fuel text.length :=
        Nat.mul_le_mul (Nat.le_add_left 1 _) (by decide : 2 ≤ grammar.rules.length + 1)
      omega
    exact matches_spaced rfl (.textEnd hg)
  have whole : Matches (matchRule grammar fuel) true (definition .program).pattern ⟨.none, .free⟩
      (.start text) ([] ++ (nodes ++
        [.node (.lexeme .endOfInput) (skipTrivia g) (skipTrivia g).offset []])) (skipTrivia g) :=
    .andThen (.textStart rfl) (.andThen h ending)
  obtain ⟨_, hmatch⟩ := matches_spaced (r := .program) rfl whole .empty
  have hrun : grammar.run .program text = _ := (run_eq text hf).trans hmatch
  refine ⟨_, by rw [Grammar.parse, hrun], ?_⟩
  exact (statementNodes_program _ _ h.derives ending.derives).1

/-- A statement and trivia behind it make a program. -/
theorem exists_parse_of_statement (hf : grammar.fuel text.length ≤ fuel + 1)
    (h : Matches (matchRule grammar fuel) true (.rule .statement) ⟨.none, .free⟩
      (skipTrivia (.start text)) [tree] g) (hg : (skipTrivia g).rest = []) :
    ∃ trees, grammar.parse .program text = .ok trees ∧ statementNodes trees = [tree] := by
  have last : Misses (matchRule grammar fuel) true (.rule .statement) ⟨.none, .free⟩ (skipTrivia g) :=
    misses_of_nil 4 hg (by decide)
  exact exists_parse_of_statements hf (.many h (.done last)) hg

/-- What is neither a further statement nor the end of the text makes a program fail. -/
theorem not_accepts_of_statement (hf : grammar.fuel text.length ≤ fuel + 1)
    (h : Matches (matchRule grammar fuel) true (.rule .statement) ⟨.none, .free⟩
      (skipTrivia (.start text)) [tree] g)
    (hmiss : Misses (matchRule grammar fuel) true (.rule .statement) ⟨.none, .free⟩ (skipTrivia g))
    (hg : (skipTrivia g).rest ≠ []) (trees : List (ParseTree Rule)) :
    grammar.parse .program text ≠ .ok trees := by
  have ending : Misses (matchRule grammar fuel) true (lex .endOfInput) ⟨.none, .free⟩
      (skipTrivia g) := by
    refine misses_of_not_derives fun a d hd => ?_
    obtain ⟨_, -, hend⟩ := hd.of_spaced rfl
    cases hend with
    | textEnd hrest => exact hg hrest
  have whole : Misses (matchRule grammar fuel) true (definition .program).pattern ⟨.none, .free⟩
      (.start text) :=
    .right (.textStart rfl) (.right (.many h (.done hmiss)) ending)
  have program : Misses (matchRule grammar (fuel + 1)) true (.rule .program) ⟨.none, .free⟩ (.start text) :=
    .rule whole
  obtain ⟨_, hmatch⟩ := program .empty
  have hrun : grammar.run .program text = _ := (run_eq text hf).trans hmatch
  rw [Grammar.parse, hrun]
  intro h
  cases h

end

/-! ## The first statement -/

/-- Each statement leaves a node, so without nodes nothing is read. -/
theorem eq_of_no_statements {sep : Bool} {c d : Cursor}
    (h : Derives grammar sep (.many (.rule .statement)) ⟨.none, .free⟩ c [] d) : d = c := by
  generalize hn : [] = nodes at h
  cases h with
  | none => rfl
  | once h =>
    obtain ⟨u, rfl, -⟩ := exists_of_statement h
    cases hn
  | again _ h =>
    obtain ⟨u, rfl, -⟩ := exists_of_statement h
    simp at hn

/-- A statement is read by the rule of its node. -/
theorem derives_of_statement {sep : Bool} {c d : Cursor} {t : ParseTree Rule}
    (h : Derives grammar sep (.rule .statement) ⟨.none, .free⟩ c [t] d) :
    Derives grammar true (.rule t.rule) ⟨.none, .free⟩ c [t] d := by
  obtain ⟨r, hr, hrule⟩ := Derives.exists_of_choice (h.of_silent rfl) (by simp)
  have statements : ∀ r ∈ [Rule.varDecl, .ifStmt, .forLoop, .functionDecl, .returnStmt, .execBlock,
      .configDecl, .databaseDecl, .authDecl, .roleDecl, .middlewareDecl, .eventDecl, .eventHandler,
      .integrationDecl, .webhookDecl, .block, .assignment, .exprStmt],
      (grammar.definition r).kind ≠ .silent := by decide
  obtain ⟨inner, -, hnode⟩ := hrule.of_rule
  rw [keepNodes_free _ r c d.offset inner (statements r hr)] at hnode
  cases hnode
  exact hrule

/-- The first statement stands where no trivia is left to skip. -/
theorem exists_first_statement {c d : Cursor} {t : ParseTree Rule} {more : List (ParseTree Rule)}
    (hc : skipTrivia c = c)
    (h : Derives grammar true (.many (.rule .statement)) ⟨.none, .free⟩ c (t :: more) d) :
    ∃ f, Derives grammar true (.rule .statement) ⟨.none, .free⟩ c [t] f := by
  generalize hsep : true = sep at h
  generalize hp : Pattern.many (.rule Rule.statement) = p at h
  generalize hm : (⟨.none, .free⟩ : Mode) = mode at h
  generalize hn : t :: more = nodes at h
  induction h generalizing more with
  | once h =>
    cases hp
    subst hm hn hsep
    obtain ⟨u, hu, -⟩ := exists_of_statement h
    cases hu
    exact ⟨_, h⟩
  | @again sep p mode c d e before behind h h2 ih =>
    cases hp
    subst hm hsep
    cases before with
    | cons u before =>
      cases hn
      exact ih hc rfl rfl rfl rfl
    | nil =>
      obtain rfl := eq_of_no_statements h
      obtain ⟨u, rfl, -⟩ := exists_of_statement h2
      cases hn
      have h2 : Derives grammar true (.rule .statement) ⟨.none, .free⟩ (skipTrivia d) [t] e := h2
      rw [hc] at h2
      exact ⟨e, h2⟩
  | none => cases hn
  | _ => cases hp

end MainGrammar

/-! ## Sources -/

open MainGrammar

theorem Source.parse_of_statements (s : Source) {nodes trees : List (ParseTree Rule)} {xs : List Stmt}
    (hfind : find s.text = .ok []) (hparse : grammar.parse .program s.text = .ok trees)
    (hnodes : statementNodes trees = nodes)
    (hlower : nodes.mapM (lowerStmt fun offset => s.position (0 + offset)) = .ok xs) :
    s.parse = .ok ⟨s.position 0, xs⟩ := by
  have hprogram : lowerProgram (fun offset => s.position (0 + offset)) trees = .ok xs := by
    show (statementNodes trees).mapM _ = _
    rw [hnodes, hlower]
  have hmain : s.parseMain s.text = .ok xs := by
    rw [parseMain, parsePart, hparse]
    dsimp only
    rw [hprogram]
  rw [s.parse_of_cut ((cut_eq_main_iff _).2 hfind), hmain]
  rfl

/-- What is wrong with a source in which no region is found is what is wrong with it as a program. -/
theorem Source.parse_of_mismatch (s : Source) {m : Located Mismatch} (hfind : find s.text = .ok [])
    (hparse : grammar.parse .program s.text = .error m) :
    s.parse = .error ⟨s.position (0 + m.offset), .mismatch m.cause⟩ := by
  have hmain : s.parseMain s.text = .error (s.errorAt ((m.map .mismatch).shift 0)) := by
    rw [parseMain, parsePart, hparse]
  rw [s.parse_of_cut ((cut_eq_main_iff _).2 hfind), hmain]
  rfl

theorem Source.parse_of_statement (s : Source) {fuel : Nat} {tree : ParseTree Rule} {g : Cursor} {x : Stmt}
    (hfind : find s.text = .ok []) (hf : grammar.fuel s.text.length ≤ fuel + 1)
    (h : Matches (matchRule grammar fuel) true (.rule .statement) ⟨.none, .free⟩
      (skipTrivia (.start s.text)) [tree] g) (hg : (skipTrivia g).rest = [])
    (hlower : lowerStmt (fun offset => s.position (0 + offset)) tree = .ok x) :
    s.parse = .ok ⟨s.position 0, [x]⟩ := by
  obtain ⟨trees, hparse, hnodes⟩ := exists_parse_of_statement hf h hg
  refine s.parse_of_statements hfind hparse hnodes ?_
  rw [List.mapM_cons, hlower]
  rfl

/-- What one statement is lowered from, if no region declares it. -/
theorem Source.exists_of_parse_single {s : Source} {p : Program} {x : Stmt} (h : s.parse = .ok p)
    (hp : p.statements = [x]) (hx : ∀ kind, isOf kind x = false) :
    ∃ trees t, grammar.parse .program s.text = .ok trees ∧ statementNodes trees = [t] ∧
      lowerStmt (fun offset => s.position (0 + offset)) t = .ok x := by
  obtain ⟨c, main, declared, hcut, hmain, hdeclared, rfl⟩ := parse_eq_ok h
  obtain ⟨hfind, hover⟩ := cut_eq_ok hcut
  have hperm : [x].Perm (main ++ declared) := hp ▸ mergeStatements_perm main declared
  have hnone : declared = [] := by
    refine List.eq_nil_iff_forall_not_mem.2 fun y hy => ?_
    obtain ⟨r, hr, hparsed⟩ := exists_partner (forall₂_of_mapM hdeclared) hy
    have hkind := (loweredFrom_of_parseRegion ((placed_of_find hfind).1 r hr) hparsed).kind
    rw [List.mem_singleton.1 (hperm.mem_iff.2 (List.mem_append_right _ hy)), hx] at hkind
    cases hkind
  subst hnone
  have hregions : c.regions = [] := List.forall₂_nil_right_iff.1 (forall₂_of_mapM hdeclared)
  rw [List.append_nil] at hperm
  obtain rfl : main = [x] := List.perm_singleton.1 hperm.symm
  have htext : c.main = s.text := by
    rw [hover, hregions, overwrite_nil]
  rw [htext] at hmain
  obtain ⟨trees, hparse, hlower⟩ := parsePart_eq_ok hmain
  have hnodes := forall₂_of_mapM hlower
  obtain ⟨t, ts, ht, hts, heq⟩ := List.forall₂_cons_right_iff.1 hnodes
  rw [List.forall₂_nil_right_iff] at hts
  exact ⟨trees, t, hparse, by rw [statementNodes, heq, hts], ht⟩

end ServiceLang
