import ServiceLang.Proofs.Grammar.Literal
import ServiceLang.Proofs.Grammar.Quoted
import ServiceLang.Proofs.Parse.Declared
import ServiceLang.Proofs.Parse.Variable

/-!
String literals lose nothing.

Every text has a literal, and where the literal stands as a value, as the path of an endpoint
or as an input of a workflow, the source is parsed to the text again
(`Source.parse_literalText`).  That rests on the scanner and the grammars seeing the same end
of every literal (`SameStrings`), however many quotes, backslashes, braces and comment marks
it holds.
-/

namespace ServiceLang

open Peg Region

namespace Source

/-! ## Sources that are one declaration -/

/-- A source that is one workflow or job is parsed to it. -/
theorem parse_of_flow (s : Source) {trees : List (ParseTree FlowGrammar.Rule)}
    (hfind : find s.text = .ok [⟨.flow, 0, ServiceLang.byteLength s.text⟩])
    (htrees : FlowGrammar.grammar.parse .workflowFile s.text = .ok trees) :
    s.parse = s.declare (FlowGrammar.lowerRegion s.position trees) := by
  have h := s.parsePart_whole FlowGrammar.lowerRegion htrees id
  rw [Except.map_id, Except.map_id] at h
  rw [s.parse_of_wholeRegion ((cut_eq_wholeRegion_iff .flow s.text).2 hfind), parseRegion, text_wholeRegion]
  exact h

/-- A source that is one endpoint is parsed to it. -/
theorem parse_of_endpoint (s : Source) {trees : List (ParseTree EndpointGrammar.Rule)}
    (hfind : find s.text = .ok [⟨.endpoint, 0, ServiceLang.byteLength s.text⟩])
    (htrees : EndpointGrammar.grammar.parse .endpointFile s.text = .ok trees) :
    s.parse = s.declare ((EndpointGrammar.lowerRegion s.position trees).map .endpoint) := by
  rw [s.parse_of_wholeRegion ((cut_eq_wholeRegion_iff .endpoint s.text).2 hfind), parseRegion, text_wholeRegion]
  exact s.parsePart_whole EndpointGrammar.lowerRegion htrees Stmt.endpoint

/-! ## Sources with a literal -/

section

variable (filename : String) {k : List Char} (hk : QuotedTail false k)
include hk

theorem parse_variable_literal : ∃ pos pos',
    Source.parse ⟨filename, variableText ('"' :: k)⟩ =
      .ok ⟨pos, [.varDecl pos "x" (some (.string pos' (Text.literalValue ('"' :: k))))]⟩ := by
  obtain ⟨n, hfuel⟩ := MainGrammar.grammar.exists_fuel (n := 12) (by decide) (variableText ('"' :: k)).length
  have hpass : (valueAt ('"' :: k)).Passes ('"' :: k) ⟨8 + ServiceLang.byteLength ('"' :: k), []⟩ :=
    ⟨(List.append_nil _).symm, rfl⟩
  have closes : MainGrammar.Closes [] := fun x hx => by cases hx
  have operand : MainGrammar.Yields (n + 3) (.rule .unaryExpr) _ _ _ :=
    MainGrammar.yields_literal ⟨filename, 1, 1, 0⟩ hk hpass
  have value := operand.closed (by rw [skipTrivia_of_nil rfl]; exact closes)
  rw [skipTrivia_of_nil rfl] at value
  obtain ⟨tree, g, hmatch, hg, -, hlower⟩ := value
  obtain ⟨e, hlower, hsame⟩ :=
    hlower fun offset => Source.position ⟨filename, variableText ('"' :: k)⟩ (0 + offset)
  obtain ⟨pos, hparse⟩ := parse_variable (.string hk) (skipTrivia_solid (x := '"') rfl rfl (by decide))
    (Nat.le_of_eq hfuel) hmatch filename (by rw [hg]) hlower
  cases e with
  | string pos' value =>
    have hvalue : value = Text.literalValue ('"' :: k) := by simpa [Expr.same] using hsame
    exact ⟨pos, pos', hvalue ▸ hparse⟩
  | _ => simp [Expr.same] at hsame

theorem parse_endpoint_literal : ∃ pos e,
    Source.parse ⟨filename, EndpointGrammar.endpointText ('"' :: k)⟩ = .ok ⟨pos, [.endpoint e]⟩ ∧
      e.path = Text.literalValue ('"' :: k) := by
  obtain ⟨trees, htrees, hlower⟩ := EndpointGrammar.exists_parse_endpointText hk
  let s : Source := ⟨filename, EndpointGrammar.endpointText ('"' :: k)⟩
  obtain ⟨e, hlower, hpath⟩ := hlower s.position
  refine ⟨s.position 0, e, ?_, hpath⟩
  rw [parse_of_endpoint s (EndpointGrammar.find_endpointText hk) htrees, hlower]
  rfl

theorem parse_input_literal : ∃ pos flow step pos' pos'',
    Source.parse ⟨filename, FlowGrammar.inputText ('"' :: k)⟩ = .ok ⟨pos, [.workflow flow]⟩ ∧
      flow.steps = [step] ∧ step.kind = .activity ∧ step.branches = [] ∧
      step.input = [⟨pos', "k", .string pos'' (Text.literalValue ('"' :: k))⟩] := by
  obtain ⟨trees, htrees, hlower⟩ := FlowGrammar.exists_parse_inputText hk
  let s : Source := ⟨filename, FlowGrammar.inputText ('"' :: k)⟩
  obtain ⟨flow, step, pos', pos'', hlower, hstep⟩ := hlower s.position
  refine ⟨s.position 0, flow, step, pos', pos'', ?_, hstep⟩
  rw [parse_of_flow s (FlowGrammar.find_inputText hk) htrees, hlower]
  rfl

end

/-- String literals lose nothing.  The literal of a text is parsed to the text as the value of
a variable, as the path of an endpoint and as an input of a workflow, and wherever the nodes of
such a path or value have that text, they are lowered to it.  The scanner and the three grammars
see the same literals. -/
theorem parse_literalText (filename v : String) :
    (∃ pos pos', Source.parse ⟨filename, variableText (Text.literalText v)⟩ =
      .ok ⟨pos, [.varDecl pos "x" (some (.string pos' v))]⟩) ∧
    (∃ pos e, Source.parse ⟨filename, EndpointGrammar.endpointText (Text.literalText v)⟩ =
      .ok ⟨pos, [.endpoint e]⟩ ∧ e.path = v) ∧
    (∃ pos flow step pos' pos'', Source.parse ⟨filename, FlowGrammar.inputText (Text.literalText v)⟩ =
      .ok ⟨pos, [.workflow flow]⟩ ∧ flow.steps = [step] ∧
        step.kind = .activity ∧ step.branches = [] ∧ step.input = [⟨pos', "k", .string pos'' v⟩]) ∧
    (∀ (place : Nat → Position) (t u : ParseTree EndpointGrammar.Rule) (e : Endpoint),
      t.childrenOf (.lexeme .string) = [u] → u.text = Text.literalText v →
        EndpointGrammar.lowerEndpoint place t = .ok e → e.path = v) ∧
    (∀ (place : Nat → Position) (t : ParseTree FlowGrammar.Rule), t.rule = .lexeme .string →
      t.text = Text.literalText v → FlowGrammar.lowerValue place t = .ok (.string (place t.offset) v)) ∧
    SameStrings MainGrammar.grammar (.lexeme .string) ∧
    SameStrings EndpointGrammar.grammar (.lexeme .string) ∧
    SameStrings FlowGrammar.grammar (.lexeme .string) := by
  have hvalue := Text.literalValue_literalText v
  obtain ⟨k, hliteral, hk⟩ := Text.exists_quotedTail_literalText v
  have hvariable := parse_variable_literal filename hk
  have hendpoint := parse_endpoint_literal filename hk
  have hinput := parse_input_literal filename hk
  rw [← hliteral, hvalue] at hvariable hendpoint hinput
  refine ⟨hvariable, hendpoint, hinput, ?_, ?_, sameStrings (fun _ => rfl) (by decide),
    sameStrings (fun _ => rfl) (by decide), sameStrings (fun _ => rfl) (by decide)⟩
  · intro place t u e hu htext hlower
    rw [EndpointGrammar.path_of_lowerEndpoint hu hlower, htext, hvalue]
  · rintro place ⟨rule, start, stop, children⟩ rfl htext
    rw [FlowGrammar.lowerValue, htext, hvalue]
    rfl

end Source

end ServiceLang
