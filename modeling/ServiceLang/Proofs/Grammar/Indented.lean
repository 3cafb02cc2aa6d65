import ServiceLang.Grammar.Main
import ServiceLang.Proofs.Lower.Carried
import ServiceLang.Proofs.Peg.Fuel
import ServiceLang.Proofs.Peg.Shifted
import ServiceLang.Proofs.Source.Chars

/-!
Main text with blanks in front.

Only the rule for a whole main text asks where the text starts, and trivia may follow there
at once.  So a main text is accepted with blanks in front if it is accepted without them,
and the nodes of its statements are moved by the length of the blanks
(`agree_blanks_append`).
-/

namespace ServiceLang

namespace Peg

/-- Blanks in front of trivia are skipped with it. -/
theorem skipTrivia_blanks_append {w : List Char} (hw : ∀ c ∈ w, isBlank c) (offset : Nat)
    (rest : List Char) :
    skipTrivia ⟨offset, w ++ rest⟩ = (skipTrivia ⟨offset, rest⟩).shift (byteLength w) := by
  have hskip : Cursor.skipWhile isBlank ⟨offset, w ++ rest⟩ =
      (Cursor.skipWhile isBlank ⟨offset, rest⟩).shift (byteLength w) := by
    unfold Cursor.skipWhile Cursor.shift
    rw [List.takeWhile_append_of_pos hw, List.dropWhile_append_of_pos hw, byteLength_append]
    simp [Nat.add_comm, Nat.add_left_comm]
  rw [← Cursor.skipTrivia_shift]
  unfold skipTrivia
  rw [hskip, Cursor.skipWhile_shift]

end Peg

namespace MainGrammar

open Peg

/-- Only the rule for a whole main text asks for the start of the text. -/
theorem floats_definition {r : Rule} (h : r ≠ .program) :
    (definition r).pattern.floats (· ≠ .program) := by
  cases r with
  | lexeme l => cases l <;> decide
  | word w => cases w <;> decide
  | program => exact absurd rfl h
  | _ => decide

theorem matchRule_program (fuel : Nat) (c : Cursor) (log : Attempts Rule) :
    matchRule grammar (fuel + 1) .program ⟨.none, .free⟩ c log =
      match matchPattern (matchRule grammar fuel) true (definition .program).pattern
        ⟨.none, .free⟩ c log with
      | .matched nodes next after => .matched [.node .program c next.offset nodes] next after
      | .failed after => .failed (recordIn after log .program ⟨.none, .free⟩ c.offset) := by
  rw [matchRule, show grammar.definition .program = ⟨.spaced, (definition .program).pattern⟩ from rfl]
  dsimp only
  rw [if_neg (by decide)]
  dsimp only [Kind.separates, Kind.inner, Kind.outer]
  cases matchPattern (matchRule grammar fuel) true (definition .program).pattern ⟨.none, .free⟩ c log <;>
    rfl

/-- A main text is accepted with blanks in front if it is accepted without them, and leaves
the same nodes, further on. -/
theorem agree_blanks_append {w : List Char} (hw : ∀ c ∈ w, isBlank c) (text : List Char) :
    Agree (List.Forall₂ fun t t' =>
        List.Forall₂ (ShiftedTrees grammar (byteLength w)) t.children t'.children)
      (grammar.parse .program text) (grammar.parse .program (w ++ text)) := by
  let fuel := max (grammar.fuel text.length) (grammar.fuel (w ++ text).length)
  have hrun := run_eq_of_le settles_rules text (fuel + 1) (by omega) .program
  have hrun' := run_eq_of_le settles_rules (w ++ text) (fuel + 1) (by omega) .program
  have hstart : MatchesAlike (matchRule grammar fuel) true (ShiftedTrees grammar (byteLength w))
      (fun c c' => c = .start text ∧ c' = .start (w ++ text)) .textStart ⟨.none, .free⟩
      (.start text) (.start (w ++ text)) := .of_matches (.textStart rfl) (.textStart rfl) ⟨rfl, rfl⟩
  have hpattern : MatchesAlike (matchRule grammar fuel) true (ShiftedTrees grammar (byteLength w))
      (Shifted (byteLength w)) (definition .program).pattern ⟨.none, .free⟩ (.start text)
      (.start (w ++ text)) := by
    refine .andThen hstart ?_
    rintro _ _ ⟨rfl, rfl⟩
    have hgap : gap true ⟨.none, .free⟩ (.start (w ++ text)) =
        (gap true ⟨.none, .free⟩ (.start text)).shift (byteLength w) :=
      skipTrivia_blanks_append hw 0 text
    rw [hgap]
    exact .of_floats (fun r (hr : decide (r ≠ .program)) => floats_definition (of_decide_eq_true hr))
      fuel true (by decide) _ _
  have h := hpattern .empty .empty
  unfold Grammar.parse
  rw [hrun, hrun', matchRule_program, matchRule_program]
  generalize matchPattern _ true _ _ (.start text) .empty = o at h
  generalize matchPattern _ true _ _ (.start (w ++ text)) .empty = o' at h
  cases h with
  | failed => exact .error _ _
  | matched hall _ => exact .ok (.cons hall .nil)

end MainGrammar

end ServiceLang
