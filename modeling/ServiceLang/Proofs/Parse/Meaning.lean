import ServiceLang.Proofs.Grammar.Numeral
import ServiceLang.Proofs.Lower.RegionMeaning
import ServiceLang.Proofs.Lower.StmtMeaning
import ServiceLang.Proofs.Parse.Merge

/-!
What the grammars accept has a meaning.

A source whose main text and regions are accepted is parsed, or one of the documented checks
of lowering has failed: no parse tree is malformed, and all numbers are numerals
(`parse_of_accepts`).  All nodes of a program that is parsed conform: they stand where they
may, and their names are names (`conforms_of_parse`).
-/

namespace ServiceLang.Source

open Peg

variable {s : Source} {c : Region.Cut}

/-! ## Sources that their grammars accept -/

/-- The grammar has parse trees for the text. -/
def AcceptsText {R : Type} [DecidableEq R] (g : Peg.Grammar R) (root : R) (text : List Char) : Prop :=
  ∃ trees, g.parse root text = .ok trees

theorem acceptsText_of_isSome {R : Type} [DecidableEq R] {g : Peg.Grammar R} {root : R} {text : List Char}
    (h : (g.parse root text).toOption.isSome) : AcceptsText g root text :=
  exists_ok_of_isSome h

/-- The text of a region is accepted by the grammar of its kind. -/
def AcceptsRegion (s : Source) (r : Region) : Prop :=
  match r.kind with
  | .endpoint => AcceptsText EndpointGrammar.grammar .endpointFile (r.text s.text)
  | .flow => AcceptsText FlowGrammar.grammar .workflowFile (r.text s.text)

/-- The source is cut, and main text and regions are accepted by their grammars. -/
structure Accepts (s : Source) (c : Region.Cut) : Prop where
  cut_eq : Region.cut s.text = .ok c
  main : AcceptsText MainGrammar.grammar .program c.main
  regions : ∀ r ∈ c.regions, s.AcceptsRegion r

/-- The numbers that lowering reads are digits with a fraction or without, in flows perhaps
behind a minus sign. -/
structure ReadsNumerals (s : Source) (c : Region.Cut) : Prop where
  main : ∀ trees, MainGrammar.grammar.parse .program c.main = .ok trees →
    ∀ u ∈ ParseTree.nodesAll trees, u.rule = .lexeme .number → Decimal.Numeral u.text
  endpoint : ∀ r ∈ c.regions, ∀ trees,
    EndpointGrammar.grammar.parse .endpointFile (r.text s.text) = .ok trees →
    ∀ u ∈ ParseTree.nodesAll trees, u.rule = .lexeme .number → Decimal.Numeral u.text
  flow : ∀ r ∈ c.regions, ∀ trees,
    FlowGrammar.grammar.parse .workflowFile (r.text s.text) = .ok trees →
    ∀ u ∈ ParseTree.nodesAll trees, u.rule = .signedNumber → Decimal.SignedNumeral u.text

/-- What is parsed has the property, or a documented check has failed. -/
abbrev ParseMeets {α : Type} (x : Except SyntaxError α) (P : α → Prop) : Prop :=
  Meets (fun e : SyntaxError => ∃ d, e.fault = .defect d ∧ d.IsDocumented) P x

theorem meets_parsePart {R α : Type} [DecidableEq R] {g : Peg.Grammar R} {root : R}
    {lower : (Nat → Position) → List (ParseTree R) → Lowered α} {base : Nat} {text : List Char}
    {P : α → Prop} (haccepts : AcceptsText g root text)
    (hlower : ∀ place trees, g.parse root text = .ok trees → (lower place trees).Meets P) :
    ParseMeets (s.parsePart g root lower base text) P := by
  obtain ⟨trees, htrees⟩ := haccepts
  have hmeets := hlower (fun offset => s.position (base + offset)) trees htrees
  unfold parsePart
  rw [htrees]
  dsimp only
  split
  · next d herror =>
    rw [herror] at hmeets
    exact ⟨d.cause, rfl, hmeets⟩
  · next a hok =>
    rw [hok] at hmeets
    exact hmeets

/-! ## Programs -/

/-- The statement may stand in a program. -/
def ShapedStmt (x : Stmt) : Prop := Shaped (.stmt x) ∧ !x.kind.isSchema

theorem meets_parseMain (h : AcceptsText MainGrammar.grammar .program c.main) :
    ParseMeets (s.parseMain c.main) fun main => ∀ x ∈ main, ShapedStmt x := by
  refine meets_parsePart h fun place trees htrees => ?_
  refine (MainGrammar.lowerProgram_meets htrees).imp fun main hmain x hx => ?_
  obtain ⟨hshaped, hinner⟩ := hmain x hx
  exact ⟨hshaped, (Bool.and_eq_true_iff.1 hinner).1⟩

theorem meets_parseRegion {r : Region} (h : s.AcceptsRegion r) :
    ParseMeets (s.parseRegion r) ShapedStmt := by
  unfold AcceptsRegion at h
  unfold parseRegion
  cases hk : r.kind with
  | endpoint =>
    rw [hk] at h
    refine (meets_parsePart h fun place trees htrees => EndpointGrammar.lowerRegion_meets htrees).map ?_
    exact fun e _ => ⟨.stmt (List.forall_mem_nil _) (List.forall_mem_nil _) (List.forall_mem_nil _)
      (List.forall_mem_nil _) (List.forall_mem_nil _), rfl⟩
  | flow =>
    rw [hk] at h
    exact meets_parsePart h fun place trees htrees => FlowGrammar.lowerRegion_meets htrees

theorem shaped_of_statements {p : Program} (h : ∀ x ∈ p.statements, ShapedStmt x) :
    Shaped (.program p) := by
  refine .intro ⟨fun m hm => ?_, List.forall_mem_nil _, List.forall_mem_nil _, List.forall_mem_nil _⟩
    fun m hm => ?_
  · obtain ⟨x, hx, rfl⟩ := List.mem_map.1 hm
    exact (h x hx).2
  · obtain ⟨x, hx, rfl⟩ := List.mem_map.1 hm
    exact (h x hx).1

/-- What is accepted comes to a shaped program, or to the defect of a documented check. -/
theorem meets_parse (h : s.Accepts c) : ParseMeets s.parse fun p => Shaped (.program p) := by
  obtain ⟨hcut, hmain, hregions⟩ := h
  have hstatements := meets_parseMain (s := s) hmain
  have hdeclared := Meets.mapM fun r hr => meets_parseRegion (hregions r hr)
  unfold parse
  rw [hcut]
  dsimp only
  split
  · next e herror =>
    rw [herror] at hstatements
    exact hstatements
  next main hok =>
  rw [hok] at hstatements
  split
  · next e herror =>
    rw [herror] at hdeclared
    exact hdeclared
  next declared hok =>
  rw [hok] at hdeclared
  refine shaped_of_statements fun x hx => ?_
  rcases mem_mergeStatements hx with hx | hx
  · exact hstatements x hx
  · exact hdeclared x hx

/-- A source whose main text and regions are accepted is parsed, or a documented check has
failed, and the numbers in it are numerals. -/
theorem parse_of_accepts (s : Source) (c : Region.Cut) (h : s.Accepts c) :
    ((∃ p, s.parse = .ok p) ∨ ∃ pos d, s.parse = .error ⟨pos, .defect d⟩ ∧ d.IsDocumented) ∧
      s.ReadsNumerals c := by
  constructor
  · have hmeets := meets_parse h
    cases hparse : s.parse with
    | ok p => exact .inl ⟨p, rfl⟩
    | error e =>
      rw [hparse] at hmeets
      obtain ⟨d, hd, hdocumented⟩ := hmeets
      exact .inr ⟨e.pos, d, by rw [← hd], hdocumented⟩
  · exact ⟨fun _ => MainGrammar.numeral_of_parse, fun _ _ _ => EndpointGrammar.numeral_of_parse,
      fun _ _ _ => FlowGrammar.signedNumeral_of_parse⟩

/-- A workflow that its grammar accepts, though it limits its concurrency. -/
theorem parse_of_accepts_concurrency :
    let s : Source := ⟨"", "a(1.5)\nworkflow w \x7b concurrency: 2 \x7d\nreturn".toList⟩
    ∃ c, s.Accepts c ∧
      ((∃ p, s.parse = .ok p) ∨ ∃ pos d, s.parse = .error ⟨pos, .defect d⟩ ∧ d.IsDocumented) ∧
        s.ReadsNumerals c := by
  intro s
  obtain ⟨c, hcut, haccepts⟩ := exists_ok_of_any (x := Region.cut s.text)
    (f := fun c => (MainGrammar.grammar.parse .program c.main).toOption.isSome &&
      c.regions.all fun r => decide (r.kind = .flow) &&
        (FlowGrammar.grammar.parse .workflowFile (r.text s.text)).toOption.isSome) (by decide +kernel)
  obtain ⟨hmain, hregions⟩ := Bool.and_eq_true_iff.1 haccepts
  have h : s.Accepts c := by
    refine ⟨hcut, acceptsText_of_isSome hmain, fun r hr => ?_⟩
    obtain ⟨hk, hflow⟩ := Bool.and_eq_true_iff.1 (List.all_eq_true.1 hregions r hr)
    unfold AcceptsRegion
    rw [of_decide_eq_true hk]
    exact acceptsText_of_isSome hflow
  exact ⟨c, h, parse_of_accepts s c h⟩

theorem accepts_of_parse {p : Program} (h : s.parse = .ok p) : ∃ c, s.Accepts c := by
  obtain ⟨c, main, declared, hcut, hmain, hdeclared, -⟩ := parse_eq_ok h
  refine ⟨c, hcut, ?_, fun r hr => ?_⟩
  · obtain ⟨trees, htrees, -⟩ := parsePart_eq_ok hmain
    exact ⟨trees, htrees⟩
  · obtain ⟨x, -, hx⟩ := exists_partner (forall₂_of_mapM hdeclared).flip hr
    unfold AcceptsRegion
    have hparsed : s.parseRegion r = .ok x := hx
    unfold parseRegion at hparsed
    cases hk : r.kind with
    | endpoint =>
      rw [hk] at hparsed
      obtain ⟨e, he, -⟩ := map_eq_ok hparsed
      obtain ⟨trees, htrees, -⟩ := parsePart_eq_ok he
      exact ⟨trees, htrees⟩
    | flow =>
      rw [hk] at hparsed
      obtain ⟨trees, htrees, -⟩ := parsePart_eq_ok hparsed
      exact ⟨trees, htrees⟩

/-- All nodes of a program that is parsed conform. -/
theorem conforms_of_parse (s : Source) (p : Program) (h : s.parse = .ok p) :
    ∀ n ∈ (Node.program p).preorder, n.Conforms := by
  obtain ⟨c, hc⟩ := accepts_of_parse h
  have hmeets := meets_parse hc
  rw [h] at hmeets
  exact fun n hn => hmeets.conforms_of_mem hn

/-- A database, a function and a workflow with parallel branches. -/
theorem conforms_of_parse_nested :
    let s : Source := ⟨"", ("database postgres \x7b model a \x7b x: int index [x] \x7d \x7d\n" ++
      "function f(y) \x7b if y \x7b f(y) \x7d \x7d\n" ++
      "workflow w \x7b parallel p \x7b step a \x7b activity: f \x7d \x7d \x7d").toList⟩
    ∃ p, s.parse = .ok p ∧ ∀ n ∈ (Node.program p).preorder, n.Conforms := by
  intro s
  obtain ⟨p, hp⟩ := exists_ok_of_isSome (x := s.parse) (by decide +kernel)
  exact ⟨p, hp, conforms_of_parse s p hp⟩

end ServiceLang.Source
