import ServiceLang.Proofs.Parse.Indented
import ServiceLang.Proofs.Region.Declared
import ServiceLang.Proofs.Region.DeclaredEndpoint

/-!
A source that is one declaration.

If a source is one region, its main text is blank and holds no statements
(`parseMain_of_blanks`), and the source is parsed by the grammar of the region alone
(`parse_of_whole_region`).  So a text without comments that the grammar of flows accepts is
parsed to the one declaration that it is, or refused for the defect that lowering finds; and
the same holds of a text that the grammar of endpoints accepts, if its head fits the scanner
(`parse_of_declaration`).
-/

namespace ServiceLang

open Peg Region

/-! ## Main text of blanks -/

namespace MainGrammar

/-- Of no text at all, the end is all that is left. -/
theorem exists_parse_nil : ∃ trees, grammar.parse .program [] = .ok trees ∧
    ∀ t ∈ trees, ∀ u ∈ t.children, u.rule = .lexeme .endOfInput := by
  obtain ⟨trees, htrees, h⟩ := exists_ok_of_any (x := grammar.parse .program [])
    (f := fun trees => trees.all fun t => t.children.all fun u => u.rule = .lexeme .endOfInput)
    (by decide +kernel)
  refine ⟨trees, htrees, fun t ht u hu => ?_⟩
  exact of_decide_eq_true (List.all_eq_true.1 (List.all_eq_true.1 h t ht) u hu)

end MainGrammar

namespace Source

/-- A main text of blanks holds no statements. -/
theorem parseMain_of_blanks (s : Source) {w : List Char} (hw : ∀ c ∈ w, isBlank c) :
    s.parseMain w = .ok [] := by
  obtain ⟨trees, htrees, hend⟩ := MainGrammar.exists_parse_nil
  have h := MainGrammar.agree_blanks_append hw []
  rw [List.append_nil, htrees] at h
  unfold parseMain parsePart
  generalize MainGrammar.grammar.parse .program w = x at h
  cases h with
  | @ok _ trees' h =>
  have hnone : (trees'.flatMap fun t => t.children.filter (·.rule ≠ .lexeme .endOfInput)) = [] := by
    refine List.flatMap_eq_nil_iff.2 fun t' ht' => List.filter_eq_nil_iff.2 fun u' hu' => ?_
    obtain ⟨t, ht, hchildren⟩ := exists_partner h ht'
    obtain ⟨u, hu, hshift⟩ := exists_partner hchildren hu'
    simp [← hshift.rel.rule_eq, hend t ht u hu]
  dsimp only
  unfold MainGrammar.lowerProgram
  rw [hnone]
  rfl

/-! ## Sources that are one region -/

/-- The program that a whole source declares, or the error of its defect. -/
def declare (s : Source) : Lowered Stmt → Except SyntaxError Program
  | .error d => .error (s.errorAt (d.map .defect))
  | .ok x => .ok ⟨s.position 0, [x]⟩

/-- The cut of a text that is one region. -/
def wholeRegion (kind : Region.Kind) (text : List Char) : Cut :=
  ⟨text.flatMap blankFor, [⟨kind, 0, ServiceLang.byteLength text⟩]⟩

theorem cut_eq_wholeRegion_iff (kind : Region.Kind) (text : List Char) :
    cut text = .ok (wholeRegion kind text) ↔
      find text = .ok [⟨kind, 0, ServiceLang.byteLength text⟩] := by
  have hmain : overwrite [⟨kind, 0, ServiceLang.byteLength text⟩] 0 text = text.flatMap blankFor :=
    overwrite_of_covered fun i hi => by simpa [isCovered, covers] using hi
  constructor
  · exact fun h => (cut_eq_ok h).1
  · intro h
    unfold cut
    rw [h]
    dsimp only
    rw [hmain]
    rfl

theorem parse_of_wholeRegion (s : Source) {kind : Region.Kind}
    (h : cut s.text = .ok (wholeRegion kind s.text)) :
    s.parse = (s.parseRegion ⟨kind, 0, s.byteLength⟩).map fun x => ⟨s.position 0, [x]⟩ := by
  have hone : [⟨kind, 0, s.byteLength⟩].mapM s.parseRegion =
      (s.parseRegion ⟨kind, 0, s.byteLength⟩).map ([·]) := by
    rw [List.mapM_cons, List.mapM_nil]
    cases s.parseRegion ⟨kind, 0, s.byteLength⟩ <;> rfl
  have hmerge (x : Stmt) : mergeStatements [] [x] = [x] := by
    unfold mergeStatements
    cases hx : isEndpoint x <;> simp [hx]
  unfold parse
  rw [h]
  dsimp only [wholeRegion]
  rw [s.parseMain_of_blanks isBlank_of_mem_flatMap_blankFor]
  dsimp only
  rw [show ServiceLang.byteLength s.text = s.byteLength from rfl, hone]
  cases s.parseRegion ⟨kind, 0, s.byteLength⟩ with
  | error e => rfl
  | ok x => exact congrArg (fun xs => Except.ok (Program.mk (s.position 0) xs)) (hmerge x)

theorem text_wholeRegion (s : Source) (kind : Region.Kind) :
    Region.text ⟨kind, 0, s.byteLength⟩ s.text = s.text := by
  have h := takeBytes_append s.text []
  rw [List.append_nil] at h
  unfold Region.text
  dsimp only
  rw [Nat.sub_zero, dropBytes]
  exact h

/-- A part that is the whole source is lowered where it stands. -/
theorem parsePart_whole {R α : Type} [DecidableEq R] (s : Source) {g : Grammar R} {root : R}
    (lower : (Nat → Position) → List (ParseTree R) → Lowered α) {trees : List (ParseTree R)}
    (h : g.parse root s.text = .ok trees) (f : α → Stmt) :
    ((s.parsePart g root lower 0 s.text).map f).map (fun x => Program.mk (s.position 0) [x]) =
      s.declare ((lower s.position trees).map f) := by
  unfold parsePart
  rw [h]
  simp only [Nat.zero_add]
  cases lower s.position trees with
  | error d =>
    show Except.error (s.errorAt ((d.map SyntaxFault.defect).shift 0)) = _
    rw [Located.shift, Nat.zero_add]
    rfl
  | ok a => rfl

/-- A text without comments that is one declaration of a grammar.  A workflow or job is one
region, and the program is that declaration or refused for its defect.  An endpoint is one
region if and only if its head fits the scanner, and then the same holds of the program. -/
theorem parse_of_declaration (s : Source) (hfree : commentFree .code s.text)
    (hfirst : ∀ x, s.text.head? = some x → isBlank x = false) (hlast : s.text.getLast? = some '\x7d') :
    (∀ trees, FlowGrammar.grammar.parse .workflowFile s.text = .ok trees →
      cut s.text = .ok (wholeRegion .flow s.text) ∧
      s.parse = s.declare (FlowGrammar.lowerRegion s.position trees)) ∧
    ∀ trees, EndpointGrammar.grammar.parse .endpointFile s.text = .ok trees →
      (cut s.text = .ok (wholeRegion .endpoint s.text) ↔
        ∀ t ∈ trees, ∀ decl ∈ t.childrenOf .endpointDecl, EndpointGrammar.HeadFits s.text decl) ∧
      ((∀ t ∈ trees, ∀ decl ∈ t.childrenOf .endpointDecl, EndpointGrammar.HeadFits s.text decl) →
        s.parse = s.declare ((EndpointGrammar.lowerRegion s.position trees).map .endpoint)) := by
  constructor
  · intro trees htrees
    have hcut := (cut_eq_wholeRegion_iff .flow s.text).2
      (FlowGrammar.find_of_parse htrees hfree hfirst hlast)
    refine ⟨hcut, ?_⟩
    have h := s.parsePart_whole FlowGrammar.lowerRegion htrees id
    rw [Except.map_id, Except.map_id] at h
    rw [s.parse_of_wholeRegion hcut, parseRegion, text_wholeRegion]
    exact h
  · intro trees htrees
    have hiff := (cut_eq_wholeRegion_iff .endpoint s.text).trans
      (EndpointGrammar.find_iff_of_parse htrees hfree hfirst hlast)
    refine ⟨hiff, fun hfits => ?_⟩
    rw [s.parse_of_wholeRegion (hiff.2 hfits), parseRegion, text_wholeRegion]
    exact s.parsePart_whole EndpointGrammar.lowerRegion htrees Stmt.endpoint

/-- Annotations on two lines, with a parenthesis and braces in strings. -/
theorem parse_of_declaration_annotated :
    let s : Source := ⟨"", "@a(\")\")\n@b endpoint GET \"/\x7bid\x7d\" \x7b role: \"\x7d\" \x7d".toList⟩
    ∃ trees, EndpointGrammar.grammar.parse .endpointFile s.text = .ok trees ∧
      cut s.text = .ok (wholeRegion .endpoint s.text) ∧
      s.parse = s.declare ((EndpointGrammar.lowerRegion s.position trees).map .endpoint) := by
  intro s
  obtain ⟨trees, htrees, hfits⟩ := exists_ok_of_any
    (x := EndpointGrammar.grammar.parse .endpointFile s.text)
    (f := fun trees => ∀ t ∈ trees, ∀ decl ∈ t.childrenOf .endpointDecl,
      EndpointGrammar.HeadFits s.text decl) (by decide +kernel)
  have hfirst : s.text.head?.all (!isBlank ·) := by decide
  obtain ⟨-, hendpoint⟩ := parse_of_declaration s (by decide)
    (fun x hx => by rw [hx] at hfirst; simpa using hfirst) (by decide)
  obtain ⟨hiff, hparse⟩ := hendpoint trees htrees
  have hfits := of_decide_eq_true hfits
  exact ⟨trees, htrees, hiff.2 hfits, hparse hfits⟩

/-- The name of an annotation is taken for a word that binds the name `endpoint`. -/
theorem cut_ne_wholeRegion_of_annotation :
    let s : Source := ⟨"", "@var endpoint GET \"/\" \x7b\x7d".toList⟩
    commentFree .code s.text ∧ (∀ x, s.text.head? = some x → isBlank x = false) ∧
      s.text.getLast? = some '\x7d' ∧
      (∃ trees, EndpointGrammar.grammar.parse .endpointFile s.text = .ok trees) ∧
      cut s.text ≠ .ok (wholeRegion .endpoint s.text) := by
  intro s
  have hfirst : s.text.head?.all (!isBlank ·) := by decide
  refine ⟨by decide, fun x hx => by rw [hx] at hfirst; simpa using hfirst, by decide,
    exists_ok_of_isSome (by decide +kernel), fun h => ?_⟩
  have hfound : find s.text = .ok [] := by rfl
  rw [cut_eq_wholeRegion_iff, hfound] at h
  cases h

end Source

end ServiceLang
