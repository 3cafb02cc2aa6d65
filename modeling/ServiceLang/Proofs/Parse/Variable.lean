import ServiceLang.Proofs.Grammar.Statement
import ServiceLang.Proofs.Parse.Single
import ServiceLang.Proofs.Region.Plain

/-!
A source that gives a variable a value.

The scanner finds nothing in such a source if it passes the value (`find_variable`).  If the
grammar reads the value as an expression up to the end, the source is parsed to the variable
with the value that the expression is lowered to (`Source.parse_variable`).  If it reads an
expression and stops where neither the end nor a statement is, the source is no program
(`Source.parse_variable_ne_ok`).
-/

namespace ServiceLang

open Peg Region MainGrammar

/-- The statement that gives a variable a value. -/
def variableText (value : List Char) : List Char := "var x = ".toList ++ value

/-- What stands before the value, the last character first. -/
def beforeValue : List Char := "var x = ".toList.reverse

def valueAt (value : List Char) : Cursor := ⟨8, value⟩

/-- No region is found if the scanner passes the value. -/
theorem find_variable {value : List Char} (h : Passed beforeValue value []) :
    find (variableText value) = .ok [] := by
  have whole (k rest : List Char) (before : List Char) (hk : ∀ x ∈ k, isWordChar x) (hne : k ≠ [])
      (hexec : String.ofList k ≠ "exec") (hword : String.ofList k ∉ ["endpoint", "workflow", "job"]) :
      Passed before k (' ' :: rest) :=
    .word hk hne (fun x hx => Option.some.inj hx ▸ rfl) hexec (.inl hword)
  have words : Passed [] ['v', 'a', 'r', ' ', 'x', ' ', '=', ' '] (value ++ []) :=
    .append (k := ['v', 'a', 'r']) (whole _ _ _ (by decide) (by decide) (by decide) (by decide))
      (.cons .blank (.append (k := ['x']) (whole _ _ _ (by decide) (by decide) (by decide) (by decide))
        (.cons .blank (.cons (.mark (by decide)) .blank))))
  exact find_of_passed (.append words h)

/-- The statement is read as a variable with the expression. -/
theorem matches_variable {fuel : Nat} {tree : ParseTree Rule} {c v g : Cursor}
    (hc : c.Passes "var x = ".toList v) (hv : skipTrivia v = v)
    (h : Matches (matchRule grammar (fuel + 1)) true (.rule .expr) ⟨.none, .free⟩ v [tree] g) :
    ∃ node, Matches (matchRule grammar (fuel + 3)) true (.rule .statement) ⟨.none, .free⟩ c [node] g ∧
      ∀ place e, lowerExpr place tree = .ok e →
        lowerStmt place node = .ok (.varDecl (place c.offset) "x" (some e)) := by
  obtain ⟨c₁, hvar, h₁, hc⟩ := hc.exists_token (k := ['v', 'a', 'r']) (b := [' ']) (by decide)
    ⟨'x', _, rfl, rfl, by decide⟩
  obtain ⟨c₂, hname, h₂, hc⟩ := hc.exists_token (k := ['x']) (b := [' ']) (by decide) ⟨'=', _, rfl, rfl, by decide⟩
  obtain ⟨c₃, hequals, hblank⟩ := hc.exists_cons
  have gap : skipTrivia c₃ = v := by rw [skipTrivia_of_blank hblank, hv]
  rw [← gap] at h
  exact matches_varDecl hvar (.of_rest h₁ rfl) (by decide) hname (.of_rest h₂ rfl) hequals h

section

variable {value : List Char} {fuel : Nat} {tree : ParseTree Rule} {g : Cursor}
  (hpassed : Passed beforeValue value []) (hsolid : skipTrivia (valueAt value) = valueAt value)
  (hf : grammar.fuel (variableText value).length ≤ fuel + 4)
  (h : Matches (matchRule grammar (fuel + 1)) true (.rule .expr) ⟨.none, .free⟩ (valueAt value) [tree] g)
include hpassed hsolid hf h

/-- A value that is read to the end is the value of the variable. -/
theorem Source.parse_variable (filename : String) (hg : (skipTrivia g).rest = []) {e : Expr}
    (hlower : lowerExpr (fun offset => Source.position ⟨filename, variableText value⟩ (0 + offset)) tree = .ok e) :
    ∃ pos, Source.parse ⟨filename, variableText value⟩ = .ok ⟨pos, [.varDecl pos "x" (some e)]⟩ := by
  have hc : (Cursor.start (variableText value)).Passes "var x = ".toList (valueAt value) := ⟨rfl, rfl⟩
  have solid : skipTrivia (.start (variableText value)) = .start (variableText value) :=
    skipTrivia_solid (x := 'v') rfl rfl (by decide)
  obtain ⟨node, hmatch, hstmt⟩ := matches_variable hc hsolid h
  exact ⟨_, Source.parse_of_statement ⟨filename, variableText value⟩ (find_variable hpassed)
    (show grammar.fuel (variableText value).length ≤ fuel + 3 + 1 from hf)
    (by rw [solid]; exact hmatch) hg (hstmt _ _ hlower)⟩

/-- A value that goes on behind the expression, and not with a statement, is refused. -/
theorem Source.parse_variable_ne_ok (filename : String)
    (hmiss : Misses (matchRule grammar (fuel + 3)) true (.rule .statement) ⟨.none, .free⟩ (skipTrivia g))
    (hg : (skipTrivia g).rest ≠ []) (p : Program) :
    Source.parse ⟨filename, variableText value⟩ ≠ .ok p := by
  have hc : (Cursor.start (variableText value)).Passes "var x = ".toList (valueAt value) := ⟨rfl, rfl⟩
  have solid : skipTrivia (.start (variableText value)) = .start (variableText value) :=
    skipTrivia_solid (x := 'v') rfl rfl (by decide)
  obtain ⟨node, hmatch, -⟩ := matches_variable hc hsolid h
  intro hparse
  obtain ⟨c, main, declared, hcut, hmain, -⟩ := parse_eq_ok hparse
  rw [(cut_eq_main_iff _).2 (find_variable hpassed)] at hcut
  cases hcut
  obtain ⟨trees, htrees, -⟩ := parsePart_eq_ok hmain
  have enough : grammar.fuel (variableText value).length ≤ fuel + 3 + 1 := hf
  exact not_accepts_of_statement enough (by rw [solid]; exact hmatch) hmiss hg trees htrees

end

end ServiceLang
