import ServiceLang.Proofs.Grammar.Chain
import ServiceLang.Proofs.Parse.Variable

/-!
Precedence and associativity of the operators, for chains of any length.

The scanner finds nothing in a chain, whatever its names are: without braces and quotes
no word introduces a region (`OperatorChain.passed`).  A chain is the value of a variable if and
only if no stretch of it has two comparisons, and then the value is its tree
(`Source.parse_chain`).  Otherwise the value ends before the second comparison, and no
statement begins with its operator.
-/

namespace ServiceLang

open Peg Region MainGrammar

/-! ## Scanning -/

/-- What a chain is made of neither opens anything nor begins a string. -/
theorem Atom.forall_mem_text (a : Atom) : ∀ x ∈ a.text, x ≠ '{' ∧ x ≠ '"' := by
  have word (x : Char) (hx : isWordChar x) : x ≠ '{' ∧ x ≠ '"' :=
    ⟨ne_of_isWordChar x '{' hx rfl, ne_of_isWordChar x '"' hx rfl⟩
  have digit (x : Char) (hx : x.isDigit) : x ≠ '{' ∧ x ≠ '"' :=
    word x (by simp [isWordChar, Char.isAlphanum, hx])
  intro x hx
  cases a with
  | name text valid => exact word x (((isName_iff text).1 valid).chars x hx)
  | number text valid =>
    have hx : x ∈ text := hx
    cases valid with
    | whole hds => exact digit x (hds.2 x hx)
    | fraction hds hfs =>
      rcases List.mem_append.1 hx with hx | hx
      · exact digit x (hds.2 x hx)
      rcases List.mem_cons.1 hx with rfl | hx
      · decide
      · exact digit x (hfs.2 x hx)

theorem OperatorChain.forall_mem_restText (rest : List (Spelling × Atom)) :
    ∀ x ∈ restText rest, x ≠ '{' ∧ x ≠ '"' := by
  intro x hx
  obtain ⟨⟨s, a⟩, -, hx⟩ := List.mem_flatMap.1 hx
  rcases List.mem_cons.1 hx with rfl | hx
  · decide
  rcases List.mem_append.1 hx with hx | hx
  · have plain : ∀ y ∈ s.text.toList, y ≠ '{' ∧ y ≠ '"' := by
      cases s with
      | printed op => cases op <;> decide
      | ampersands | bars => decide
    exact plain x hx
  rcases List.mem_cons.1 hx with rfl | hx
  · decide
  · exact a.forall_mem_text x hx

theorem OperatorChain.head_restText (rest : List (Spelling × Atom)) :
    ∀ x, (restText rest).head? = some x → isWordChar x = false := by
  cases rest with
  | nil => exact fun x hx => by cases hx
  | cons p rest => exact fun x hx => Option.some.inj hx ▸ rfl

theorem Atom.passed (a : Atom) (before : List Char) (rest : List (Spelling × Atom)) :
    Passed before a.text (OperatorChain.restText rest) := by
  have stops := OperatorChain.head_restText rest
  cases a with
  | name text valid =>
    have hname := (isName_iff text).1 valid
    refine .bareWord hname.chars ?_ stops (OperatorChain.forall_mem_restText rest)
    intro hnil
    have hnil : text.toList = [] := hnil
    have := hname.start
    rw [hnil] at this
    cases this
  | number text valid => exact .numeral valid stops

theorem OperatorChain.passed (chain : OperatorChain) (before : List Char) : Passed before chain.text [] := by
  obtain ⟨first, rest⟩ := chain
  refine .append (by rw [List.append_nil]; exact first.passed before rest) ?_
  generalize first.text.reverse ++ before = before
  induction rest generalizing before with
  | nil => exact .nil
  | cons p rest ih =>
    obtain ⟨s, a⟩ := p
    have hrest : restText ((s, a) :: rest) =
        ' ' :: (s.text.toList ++ ' ' :: (a.text ++ restText rest)) := by simp [restText]
    rw [hrest]
    refine .cons .blank (.append (.operator s) (.cons .blank (.append ?_ (ih _))))
    rw [List.append_nil]
    exact a.passed _ rest

/-! ## Parsing -/

/-- An operand stands right behind the equality sign. -/
theorem OperatorChain.skipTrivia_valueAt (chain : OperatorChain) :
    skipTrivia (valueAt chain.text) = valueAt chain.text := by
  obtain ⟨x, xs, hx, hword⟩ := chain.first.exists_head_text
  refine skipTrivia_solid (x := x) ?_ (isBlank_eq_false_of_isWordChar x hword)
    (ne_of_isWordChar x '/' hword rfl)
  show chain.text.head? = some x
  rw [OperatorChain.text, hx]
  rfl

/-- No statement begins with an operator of a comparison. -/
theorem misses_statement_of_comparison {fuel : Nat} {s : Spelling} (hs : s.op.isComparison) {c : Cursor}
    {xs : List Char} (hc : c.rest = s.text.toList ++ xs) :
    Misses (matchRule grammar fuel) true (.rule .statement) ⟨.none, .free⟩ c := by
  refine misses_of_avoids ['=', '!', '<', '>'] 4 (by decide) fun x hx => ?_
  rw [hc] at hx
  cases s with
  | printed op => cases op <;> first | (cases hs; done) | (cases hx; decide)
  | ampersands | bars => cases hs

section

variable (filename : String) {chain : OperatorChain}

/-- A chain that compares once is the value of the variable. -/
theorem Source.exists_of_comparesOnce (h : chain.ComparesOnce) (place : Position) :
    ∃ pos value, Source.parse ⟨filename, variableText chain.text⟩ =
        .ok ⟨pos, [.varDecl pos "x" (some value)]⟩ ∧ value.same (chain.tree place) := by
  let s : Source := ⟨filename, variableText chain.text⟩
  let stop : Cursor := ⟨8 + ServiceLang.byteLength chain.text, []⟩
  have hc : (valueAt chain.text).Passes chain.text stop := ⟨by rw [List.append_nil]; rfl, rfl⟩
  obtain ⟨n, hn⟩ : ∃ n, grammar.fuel (variableText chain.text).length ≤ n + 12 :=
    ⟨_, Nat.le_add_right _ _⟩
  obtain ⟨tree, g, hmatch, hg, -, hlower⟩ : Yields (n + 9) (.rule .expr) _ _ _ :=
    yields_chain place chain h (.inl rfl) hc
  obtain ⟨value, hlower, hsame⟩ := hlower fun offset => s.position (0 + offset)
  have hend : (skipTrivia g).rest = [] := by
    rw [hg, skipTrivia_of_nil rfl]
  obtain ⟨pos, hparse⟩ := Source.parse_variable (chain.passed beforeValue) chain.skipTrivia_valueAt hn
    hmatch filename hend hlower
  exact ⟨pos, value, hparse, hsame⟩

/-- Behind the beginning of a chain that compares twice, nothing goes on. -/
theorem Source.parse_ne_ok_of_not_comparesOnce (h : ¬chain.ComparesOnce) (p : Program) :
    Source.parse ⟨filename, variableText chain.text⟩ ≠ .ok p := by
  obtain ⟨left, s, right, rfl, honce, hends, hs⟩ := OperatorChain.exists_second_comparison h
  let stop : Cursor := ⟨8 + ServiceLang.byteLength (left.join s right).text, []⟩
  have hc : (valueAt (left.join s right).text).Passes (left.join s right).text stop :=
    ⟨by rw [List.append_nil]; rfl, rfl⟩
  obtain ⟨d, e, k, hleft, hd, hop, -⟩ := exists_cursors_of_join hc
  obtain ⟨n, hn⟩ : ∃ n, grammar.fuel (variableText (left.join s right).text).length ≤ n + 12 :=
    ⟨_, Nat.le_add_right _ _⟩
  obtain ⟨tree, g, hmatch, hg, -⟩ : Yields (n + 9) (.rule .expr) _ _ _ :=
    yields_chain ⟨"", 0, 0, 0⟩ left honce (.inr ⟨s, _, hd, .inr ⟨hs, hends⟩⟩) hleft
  rw [← hg] at hop
  refine Source.parse_variable_ne_ok (OperatorChain.passed _ beforeValue) (OperatorChain.skipTrivia_valueAt _) hn hmatch
    filename (misses_statement_of_comparison hs hop.1) ?_ p
  rw [hop.1]
  exact List.append_ne_nil_of_left_ne_nil s.text_ne_nil _

end

/-- A chain is the value of a variable if and only if no stretch without a logical operator
has two comparisons, and then the value is its tree, whatever positions the tree has. -/
theorem Source.parse_chain (filename : String) (chain : OperatorChain) (place : Position) :
    ((∃ p, Source.parse ⟨filename, variableText chain.text⟩ = .ok p) ↔ chain.ComparesOnce) ∧
      ∀ p, Source.parse ⟨filename, variableText chain.text⟩ = .ok p →
        ∃ pos value, p.statements = [.varDecl pos "x" (some value)] ∧ value.same (chain.tree place) := by
  by_cases h : chain.ComparesOnce
  · obtain ⟨pos, value, hparse, hsame⟩ := Source.exists_of_comparesOnce filename h place
    refine ⟨iff_of_true ⟨_, hparse⟩ h, fun p hp => ⟨pos, value, ?_, hsame⟩⟩
    rw [hparse] at hp
    cases hp
    rfl
  · have refused := Source.parse_ne_ok_of_not_comparesOnce filename h
    exact ⟨iff_of_false (fun ⟨p, hp⟩ => refused p hp) h, fun p hp => absurd hp (refused p)⟩

end ServiceLang
