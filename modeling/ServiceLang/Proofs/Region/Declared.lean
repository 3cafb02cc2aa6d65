import ServiceLang.Grammar.Flow
import ServiceLang.Proofs.Grammar.Braces
import ServiceLang.Proofs.Region.Annotated

/-!
A text that is one declaration.

The scanner opens a region at a word that it takes for a keyword, and if the braces behind it
close with the last character, the region is all that is found (`find_of_opensRegion`).  A
workflow or a job that the grammar of flows accepts begins with such a word: nothing stands
before it, and its name and brace stand behind it (`FlowGrammar.find_of_parse`).
-/

namespace ServiceLang

open Peg Region

/-! ## Flows -/

namespace FlowGrammar

/-- The rules that close the braces that they open; the text of a string is left to the string. -/
def closes (r : Rule) : Bool := r ≠ .lexeme .stringInner

theorem closes_cases (r : Rule) (h : closes r) :
    r = .lexeme .string ∨ (grammar.definition r).pattern.bracesAfter closes 0 = some 0 := by
  have all : ∀ r ∈ Rule.all, closes r →
      r = .lexeme .string ∨ (grammar.definition r).pattern.bracesAfter closes 0 = some 0 := by
    decide
  exact all r r.mem_all h

/-- A keyword at the start of a text, with a name and a body behind it, opens a region. -/
theorem find_of_declaration {w : Word} {text : List Char} {nodes : List (ParseTree Rule)} {e : Cursor}
    (hw : w = .workflow ∨ w = .job)
    (h : Derives grammar true (.all [kw w, lex .ident, definition.flowBody]) ⟨.none, .free⟩
      (.start text) nodes e) (hfree : commentFree .code text) (he : e.rest = []) :
    find text = .ok [⟨.flow, 0, byteLength text⟩] := by
  have sealed : Spacing.sealed ≠ .free := by decide
  obtain ⟨_, a, _, -, hword, h⟩ := h.of_andThen
  obtain ⟨_, f, _, -, hname, hbody⟩ := h.of_andThen
  -- the keyword
  obtain ⟨_, hword, -⟩ := hword.of_rule
  obtain ⟨hword, hstop⟩ := hword.of_word sealed
  have hchars : ∀ x ∈ w.text.toList, isWordChar x := by rcases hw with rfl | rfl <;> decide
  have hbare : a.Bare := Cursor.Bare.passes (c := .start text) hfree hword fun x hx =>
    ne_of_isWordChar x _ (hchars x hx) rfl
  -- the name
  obtain ⟨bs, hbs, hblank, -, hbare⟩ := hbare.exists_blanks
  obtain ⟨_, hname, -⟩ := hname.of_rule
  obtain ⟨_, _, _, -, hnot, hname⟩ := hname.of_tight sealed
  cases hnot with
  | notHere =>
  obtain ⟨name, hpass, hstart, hnamed⟩ := hname.of_name sealed
  have hbare : f.Bare := hbare.passes hpass fun x hx => ne_of_isWordChar x _ (hnamed x hx) rfl
  -- the body
  obtain ⟨bs', hbs', hblank', -, hbare⟩ := hbare.exists_blanks
  obtain ⟨k, hk, hbraces, -⟩ := Derives.exists_bracesTo (fun _ => rfl) closes_cases hbody hbare
    (by decide)
  have htext : text = w.text.toList ++ (bs ++ (name ++ (bs' ++ '{' :: k))) := by
    have hpasses := (hword.append (hbs.append (hpass.append (hbs'.append hk)))).1
    simpa [he, Cursor.start] using hpasses
  have hafter : a.rest = bs ++ (name ++ (bs' ++ '{' :: k)) := List.append_cancel_left
    (hword.1.symm.trans htext)
  have hend : (bs ++ (name ++ (bs' ++ '{' :: k))).head?.any isWordChar = false := by
    rw [← hafter]
    cases hr : a.rest with
    | nil => rfl
    | cons x rest => exact hstop x (by rw [hr]; rfl)
  have hfollowed := followedByNameAndBrace_of_name hblank hstart hnamed hblank' k
  have hdeclares : declares? [] w.text (bs ++ (name ++ (bs' ++ '{' :: k))) = some .flow := by
    rcases hw with rfl | rfl <;>
      simp [declares?, continuesExpression, followsBindingWord, skipBlanks, bindingWords, Word.text, hfollowed]
  obtain ⟨c, w', hcons⟩ : ∃ c w', w.text.toList = c :: w' := by rcases hw with rfl | rfl <;> exact ⟨_, _, rfl⟩
  have hopens : OpensRegion .start c (w' ++ (bs ++ (name ++ (bs' ++ '{' :: k)))) .flow := by
    refine ⟨hchars c (by rw [hcons]; exact List.mem_cons_self), rfl, ?_, ?_⟩
    · rw [← List.cons_append, ← hcons, headAt_append _ hchars hend, String.ofList_toList]
      exact hdeclares
    · rw [← List.cons_append, ← hcons, execAt_append hchars hend, String.ofList_toList]
      rcases hw with rfl | rfl <;> rfl
  have hread : Reads .start text .start (c :: (w' ++ (bs ++ (name ++ (bs' ++ '{' :: k))))) := by
    rw [← List.cons_append, ← hcons, ← htext]
    exact .done _ _
  refine find_of_opensRegion hread rfl rfl hopens ?_
  have blank {bs : List Char} (h : ∀ x ∈ bs, isBlank x) : ∀ x ∈ bs, isMark x :=
    fun x hx => isMark_of_isBlank (h x hx)
  have word {k : List Char} (h : ∀ x ∈ k, isWordChar x) : ∀ x ∈ k, isMark x :=
    fun x hx => isMark_of_isWordChar (h x hx)
  exact .marks (word fun x hx => hchars x (hcons ▸ List.mem_cons_of_mem c hx))
    (.marks (blank hblank) (.marks (word hnamed) (.marks (blank hblank') hbraces)))

/-- A text without comments that is a workflow or a job is one region. -/
theorem find_of_parse {text : List Char} {trees : List (ParseTree Rule)}
    (h : grammar.parse .workflowFile text = .ok trees) (hfree : commentFree .code text)
    (hfirst : ∀ x, text.head? = some x → isBlank x = false) (hlast : text.getLast? = some '}') :
    find text = .ok [⟨.flow, 0, byteLength text⟩] := by
  obtain ⟨d, hd⟩ := derives_of_parse .workflowFile text trees h
  obtain ⟨_, hd, -⟩ := hd.of_rule
  obtain ⟨_, a, _, -, hstart, hd⟩ := hd.of_andThen
  obtain ⟨_, e, _, -, hdecl, hend⟩ := hd.of_andThen
  cases hstart with
  | textStart =>
  have hbare : (Cursor.start text).Bare := hfree
  have hgap : gap true ⟨.none, .free⟩ (Cursor.start text) = .start text := hbare.skipTrivia_eq hfirst
  have hdecl : Derives grammar true (.orElse (.rule .workflowDecl) (.rule .jobDecl)) ⟨.none, .free⟩
      (.start text) _ e := hgap ▸ hdecl
  have hend : Derives grammar true (lex .endOfInput) ⟨.none, .free⟩ (skipTrivia e) _ d := hend
  have hnil : e.rest = [] := by
    obtain ⟨-, he⟩ := Derives.braces (n := 0) (m := 0) (fun _ => rfl) closes_cases hdecl hbare (by decide)
    exact Derives.rest_eq_nil (fun _ => rfl) hend he hdecl.reaches hlast (by decide)
  cases hdecl with
  | first hdecl =>
    obtain ⟨_, hdecl, -⟩ := hdecl.of_rule
    exact find_of_declaration (.inl rfl) hdecl hfree hnil
  | second hdecl =>
    obtain ⟨_, hdecl, -⟩ := hdecl.of_rule
    exact find_of_declaration (.inr rfl) hdecl hfree hnil

end FlowGrammar

end ServiceLang
