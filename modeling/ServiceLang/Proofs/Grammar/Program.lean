import ServiceLang.Proofs.Lower.Place
import ServiceLang.Proofs.Peg.Derive
import ServiceLang.Proofs.Source.Chars

/-!
What the three grammars derive from a whole text.

A program derives a node for each statement, in the order of the text and each at
a character that is no blank.  A flow region derives one declaration, an endpoint
region one with its keyword inside; each of them starts before the text ends.
What a declaration and a statement are is left to the rules; here it only counts
that they begin with a character of their own.
-/

namespace ServiceLang

open Peg

namespace MainGrammar

/-- A node that starts at a character of the text that is no blank. -/
def StartsAt (c : Cursor) (t : ParseTree Rule) : Prop :=
  ∃ e x xs, c.Reaches e ∧ e.offset = t.offset ∧ e.rest = x :: xs ∧ isBlank x = false

/-- A statement leaves one node, which starts where the statement does. -/
theorem exists_of_statement {sep : Bool} {c d : Cursor} {nodes : List (ParseTree Rule)}
    (h : Derives grammar sep (.rule .statement) ⟨.none, .free⟩ c nodes d) :
    ∃ t, nodes = [t] ∧ t.offset = c.offset ∧ isStatement t.rule ∧ StartsAt c t ∧
      c.offset < d.offset := by
  have hfirst : grammar.avoids blanks 6 .statement := by decide
  obtain ⟨x, xs, hx, hn, hlt⟩ := h.exists_first blanks 6 hfirst
  obtain ⟨r, hr, h2⟩ := Derives.exists_of_choice (h.of_silent rfl) (by simp)
  obtain ⟨inner, -, rfl⟩ := h2.of_rule
  have statements : ∀ r ∈ [Rule.varDecl, .ifStmt, .forLoop, .functionDecl, .returnStmt, .execBlock,
      .configDecl, .databaseDecl, .authDecl, .roleDecl, .middlewareDecl, .eventDecl, .eventHandler,
      .integrationDecl, .webhookDecl, .block, .assignment, .exprStmt],
      (grammar.definition r).kind ≠ .silent ∧ isStatement r := by decide
  obtain ⟨hk, hs⟩ := statements r hr
  refine ⟨.node r c d.offset inner, keepNodes_free _ r c d.offset inner hk, rfl, hs, ?_, hlt⟩
  refine ⟨c, x, xs, .refl c, rfl, hx, ?_⟩
  rw [mem_blanks_iff] at hn
  simpa using hn

/-- Statements leave their nodes in the order of the text. -/
theorem pairwise_of_statements {sep : Bool} {c d : Cursor} {nodes : List (ParseTree Rule)}
    (h : Derives grammar sep (.many (.rule .statement)) ⟨.none, .free⟩ c nodes d) :
    nodes.Pairwise (fun a b => a.offset < b.offset) ∧
      ∀ t ∈ nodes, t.offset < d.offset ∧ isStatement t.rule ∧ StartsAt c t := by
  generalize hp : Pattern.many (.rule Rule.statement) = p at h
  generalize hm : (⟨.none, .free⟩ : Mode) = mode at h
  induction h with
  | none => exact ⟨.nil, by simp⟩
  | once h _ =>
    cases hp
    subst hm
    obtain ⟨t, rfl, ho, hr, ha, hlt⟩ := exists_of_statement h
    refine ⟨List.pairwise_singleton _ t, ?_⟩
    intro u hu
    obtain rfl := List.mem_singleton.1 hu
    exact ⟨by omega, hr, ha⟩
  | @again sep p mode c d e nodes more h1 h2 ih1 _ =>
    cases hp
    obtain ⟨hpair, hall⟩ := ih1 rfl hm
    subst hm
    obtain ⟨t, rfl, ho, hr, hstart, hlt⟩ := exists_of_statement h2
    have hgap := reaches_gap sep ⟨.none, .free⟩ d
    have hle := hgap.offset_le
    constructor
    · rw [List.pairwise_append]
      refine ⟨hpair, List.pairwise_singleton _ t, ?_⟩
      intro a ha b hb
      obtain rfl := List.mem_singleton.1 hb
      have := (hall a ha).1
      omega
    · intro u hu
      rcases List.mem_append.1 hu with hu | hu
      · obtain ⟨h3, h4⟩ := hall u hu
        exact ⟨by omega, h4⟩
      · obtain rfl := List.mem_singleton.1 hu
        obtain ⟨f, x, xs, hf, hrest⟩ := hstart
        exact ⟨by omega, hr, f, x, xs, (h1.reaches.trans hgap).trans hf, hrest⟩
  | _ => cases hp

/-- The nodes from which the statements of a program are lowered. -/
def statementNodes (trees : List (ParseTree Rule)) : List (ParseTree Rule) :=
  trees.flatMap fun t => t.children.filter (·.rule ≠ .lexeme .endOfInput)

/-- Of what stands between the start of a text and its end, the statements are lowered. -/
theorem statementNodes_program {c e f : Cursor} {nodes more : List (ParseTree Rule)} (start : Cursor)
    (stop : Nat)
    (h : Derives grammar true (.many (.rule .statement)) ⟨.none, .free⟩ c nodes e)
    (hend : Derives grammar true (lex .endOfInput) ⟨.none, .free⟩ (skipTrivia e) more f) :
    statementNodes [.node .program start stop (nodes ++ more)] = nodes ∧ (skipTrivia e).rest = [] := by
  obtain ⟨inner, rfl, hinner⟩ := hend.of_spaced rfl
  have keep : nodes.filter (·.rule ≠ .lexeme .endOfInput) = nodes := by
    rw [List.filter_eq_self]
    intro t ht
    have hs := ((pairwise_of_statements h).2 t ht).2.1
    rw [decide_eq_true_eq]
    intro hr
    rw [hr] at hs
    cases hs
  have hnodes : ∀ u : ParseTree Rule, u.rule = .lexeme .endOfInput →
      statementNodes [.node .program start stop (nodes ++ [u])] = nodes := by
    intro u hu
    simp [statementNodes, ParseTree.children, hu]
    simpa using keep
  refine ⟨hnodes _ rfl, ?_⟩
  cases hinner with
  | textEnd hrest => exact hrest

/-- A program consists of the start of the text, statements, and the end of the text. -/
theorem exists_of_program {text : List Char} {trees : List (ParseTree Rule)}
    (h : grammar.parse .program text = .ok trees) :
    ∃ d, Derives grammar true (.many (.rule .statement)) ⟨.none, .free⟩
      (skipTrivia (.start text)) (statementNodes trees) d ∧ (skipTrivia d).rest = [] := by
  obtain ⟨d, hd⟩ := derives_of_parse .program text trees h
  obtain ⟨inner, rfl, hp⟩ := hd.of_spaced rfl
  cases hp with
  | andThen h1 h2 =>
  cases h1 with
  | textStart =>
  cases h2 with
  | @andThen _ _ _ _ _ e _ nodes more h2 h3 =>
  obtain ⟨hnodes, hrest⟩ := statementNodes_program (.start text) d.offset h2 h3
  refine ⟨e, ?_, hrest⟩
  rw [List.nil_append, hnodes]
  exact h2

/-- The statements of a program start one behind the other, none of them at a blank. -/
theorem pairwise_statementNodes {text : List Char} {trees : List (ParseTree Rule)}
    (h : grammar.parse .program text = .ok trees) :
    (statementNodes trees).Pairwise (fun a b => a.offset < b.offset) ∧
      ∀ t ∈ statementNodes trees, StartsAt (.start text) t := by
  obtain ⟨d, hd, -⟩ := exists_of_program h
  obtain ⟨hpair, hall⟩ := pairwise_of_statements hd
  refine ⟨hpair, ?_⟩
  intro t ht
  obtain ⟨-, -, e, x, xs, he, hrest⟩ := hall t ht
  exact ⟨e, x, xs, (reaches_skipTrivia _).trans he, hrest⟩

end MainGrammar

/-! ## Regions -/

theorem FlowGrammar.lowerRegion_pos {place : Nat → Position} {text : List Char}
    {trees : List (ParseTree Rule)} {s : Stmt} (h : grammar.parse .workflowFile text = .ok trees)
    (hs : lowerRegion place trees = .ok s) :
    (∃ offset, offset < byteLength text ∧ s.pos = place offset) ∧
      ((∃ f, s = .workflow f) ∨ ∃ j, s = .job j) := by
  obtain ⟨d, hd⟩ := derives_of_parse .workflowFile text trees h
  unfold lowerRegion at hs
  split at hs
  · next t ht =>
    obtain ⟨hpos, hkind⟩ := lowerFlow_pos hs
    refine ⟨⟨t.offset, ?_, hpos⟩, hkind⟩
    obtain ⟨u, hu, hut⟩ := List.exists_of_findSome?_eq_some ht
    have declared : t ∈ u.children ∧ (t.rule = .workflowDecl ∨ t.rule = .jobDecl) := by
      unfold ParseTree.firstOf? at hut
      rcases Option.or_eq_some_iff.1 hut with hw | ⟨-, hj⟩
      · exact ⟨List.mem_of_find?_eq_some hw, .inl (by simpa using List.find?_some hw)⟩
      · exact ⟨List.mem_of_find?_eq_some hj, .inr (by simpa using List.find?_some hj)⟩
    obtain ⟨htu, hr⟩ := declared
    obtain ⟨m, e, f, -, hef, -, hfd⟩ := hd.exists_of_mem hu
    have hlt : t.offset < f.offset := by
      refine hef.offset_lt_of_mem htu 2 ?_
      rcases hr with hr | hr <;> (rw [hr]; decide)
    have := hfd.offset_le
    have := hd.offset_le_byteLength
    omega
  · cases hs

/-- The endpoint of a region stands inside it. -/
theorem EndpointGrammar.lowerRegion_pos {place : Nat → Position} {text : List Char}
    {trees : List (ParseTree Rule)} {p : Endpoint} (h : grammar.parse .endpointFile text = .ok trees)
    (hp : lowerRegion place trees = .ok p) :
    ∃ offset, offset < byteLength text ∧ p.pos = place offset := by
  obtain ⟨d, hd⟩ := derives_of_parse .endpointFile text trees h
  have hend := hd.offset_le_byteLength
  unfold lowerRegion at hp
  split at hp
  · next t ht =>
    obtain ⟨u, hu, hut⟩ := List.exists_of_findSome?_eq_some ht
    have htu : t ∈ u.children := List.mem_of_find?_eq_some hut
    have hr : t.rule = .endpointDecl := by simpa using List.find?_some hut
    obtain ⟨m, e, f, -, hef, -, hfd⟩ := hd.exists_of_mem hu
    obtain ⟨m2, e2, f2, heq, hef2, -, hfd2⟩ := hef.exists_of_mem htu
    have h1 := hfd.offset_le
    have h2 := hfd2.offset_le
    have part_lt : ∀ part ∈ t.children, part.rule = .word .endpoint →
        part.offset < byteLength text := by
      intro part hpart hrule
      have := hef2.offset_lt_of_mem hpart 2 (by rw [hrule]; decide)
      omega
    rcases lowerEndpoint_pos hp with hpos | ⟨part, hpart, hrule, hpos⟩
    · refine ⟨t.offset, ?_, hpos⟩
      have ht2 : t.offset = e2.offset := by rw [heq]; rfl
      rw [hr] at hef2
      -- the keyword behind the annotations reads a character
      obtain ⟨_, a, _, -, h3, h4⟩ := hef2.of_andThen
      obtain ⟨x, xs, -, -, hlt⟩ := h4.exists_first [] 2 (by decide)
      have h5 := h3.reaches.offset_le
      have h6 := (reaches_gap true m2 a).offset_le
      have hlt : (gap true m2 a).offset < f2.offset := hlt
      omega
    · exact ⟨part.offset, part_lt part hpart hrule, hpos⟩
  · cases hp

end ServiceLang
