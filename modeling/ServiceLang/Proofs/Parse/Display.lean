import ServiceLang.Proofs.Parse.Variable

/-!
Printed expressions parse back to themselves.

A printed expression as the value of a variable is a program of its own.  The scanner
finds nothing in it (`find_display`), so all of it is main text; the grammar reads the
statement and lowers it to a variable with the expression (`exists_parse_display`); and so
parsing gives the expression again, up to positions (`Expr.parse_display`).
-/

namespace ServiceLang

open Peg Region MainGrammar

/-- The statement that gives a variable the printed expression. -/
def Expr.variableText (e : Expr) : List Char := ("var x = " ++ e.display).toList

theorem Expr.variableText_eq (e : Expr) :
    e.variableText = ServiceLang.variableText e.display.toList :=
  String.toList_append

/-- No region is found in the statement. -/
theorem find_display (e : Expr) (h : e.isPrintable) : find e.variableText = .ok [] := by
  rw [e.variableText_eq]
  exact find_variable (e.passed h (.inl fun x hx => by cases hx) (.inr fun x hx => by cases hx))

/-- The grammar reads the statement as a variable with the expression. -/
theorem exists_parse_display (e : Expr) (h : e.isPrintable) :
    ∃ trees, grammar.parse .program e.variableText = .ok trees ∧ ∀ place, ∃ value,
      lowerProgram place trees = .ok [.varDecl (place 0) "x" (some value)] ∧ value.same e := by
  rw [e.variableText_eq]
  generalize htext : e.display.toList = k
  obtain ⟨n, hfuel, hn⟩ : ∃ n, grammar.fuel (variableText k).length ≤ n + 8 + 1 ∧ 8 * k.length ≤ n :=
    ⟨grammar.fuel (variableText k).length + 8 * k.length, by omega, by omega⟩
  have hvalue : (valueAt k).Passes e.display.toList ⟨8 + byteLength k, []⟩ :=
    ⟨by rw [htext, List.append_nil]; rfl, by rw [htext]; rfl⟩
  have closes : Closes [] := fun x hx => by cases hx
  have value := (e.reads h n (htext ▸ hn) _ _ hvalue (.inl closes)).closed
    (by rw [skipTrivia_of_closes closes]; exact closes)
  rw [skipTrivia_of_closes closes] at value
  obtain ⟨tree, g, hmatch, hg, -, hlower⟩ := value
  obtain ⟨node, hstatement, hstmt⟩ := matches_variable
    (c := .start (variableText k)) (v := valueAt k) ⟨rfl, rfl⟩ (skipTrivia_of_display h hvalue) hmatch
  have solid : skipTrivia (.start (variableText k)) = .start (variableText k) :=
    skipTrivia_solid (x := 'v') rfl rfl (by decide)
  obtain ⟨trees, hparse, hnodes⟩ := exists_parse_of_statement hfuel (by rw [solid]; exact hstatement)
    (by rw [hg])
  refine ⟨trees, hparse, fun place => ?_⟩
  obtain ⟨e', hlower, hsame⟩ := hlower place
  refine ⟨e', ?_, hsame⟩
  show (statementNodes trees).mapM _ = _
  rw [hnodes, List.mapM_cons, hstmt place e' hlower]
  rfl

/-- A printed expression is parsed as itself, up to positions. -/
theorem Expr.parse_display (file : String) (e : Expr) (h : e.isPrintable) :
    ∃ p pos value, Source.parse ⟨file, ("var x = " ++ e.display).toList⟩ = .ok p ∧
      p.statements = [.varDecl pos "x" (some value)] ∧ value.same e := by
  obtain ⟨trees, hparse, hlower⟩ := exists_parse_display e h
  let s : Source := ⟨file, e.variableText⟩
  obtain ⟨value, hlower, hsame⟩ := hlower fun offset => s.position (0 + offset)
  have hmain : s.parseMain s.text = .ok [.varDecl (s.position 0) "x" (some value)] := by
    show s.parsePart grammar .program lowerProgram 0 e.variableText = _
    unfold Source.parsePart
    rw [hparse]
    dsimp only
    rw [hlower]
  refine ⟨⟨s.position 0, [.varDecl (s.position 0) "x" (some value)]⟩, s.position 0, value, ?_, rfl,
    hsame⟩
  show s.parse = _
  rw [s.parse_of_cut ((cut_eq_main_iff _).2 (find_display e h)), hmain]
  rfl

/-- Names that introduce regions elsewhere, operators in front of operations, and a
string with a quote, a backslash and a line break. -/
theorem Expr.parse_display_nested :
    let none : Position := ⟨"", 1, 1, 0⟩
    let e : Expr := .unary none .not (.binary none
      (.call none "endpoint" [.string none "a\"\\\n\x7b", .number none 1.5, .array none []]) .or
      (.unary none .neg (.binary none (.ident none "workflow") .div (.bool none true))))
    e.isPrintable ∧ ∃ p pos value, Source.parse ⟨"", ("var x = " ++ e.display).toList⟩ = .ok p ∧
      p.statements = [.varDecl pos "x" (some value)] ∧ value.same e := by
  intro none e
  have printable : e.isPrintable := by decide
  exact ⟨printable, e.parse_display "" printable⟩

end ServiceLang
