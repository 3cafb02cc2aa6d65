import ServiceLang.Proofs.Grammar.Lexeme
import ServiceLang.Proofs.Grammar.Piece
import ServiceLang.Proofs.Region.Quoted

/-!
The scanner and the grammars see the same end of a string literal.

Where a quote stands, the rule of strings ends its match where the scanner leaves the frame
of the literal, and fails where it never does; and a text that begins with a quote begins with
an unterminated literal just if the rule fails there (`sameStrings`).
-/

namespace ServiceLang

open Peg Region

/-- The offset at which a match ends. -/
def Peg.Outcome.stop? {R : Type} : Outcome R → Option Nat
  | .matched _ next _ => some next.offset
  | .failed _ => none

/-- The scanner and a grammar with this rule of strings see the same string literals. -/
structure SameStrings {R : Type} (g : Grammar R) (string : R) : Prop where
  /-- Wherever the scanner reads a quote, the rule ends its match where the scanner leaves the
  frame that the quote opens, or fails if it does not leave it. -/
  ends : ∀ (s : Scan) (rest : List Char) (mode : Mode) (fuel : Nat) (log : Attempts R),
    (matchRule g (fuel + 2) string mode ⟨s.offset, '"' :: rest⟩ log).stop? =
      leavesAt? s.stack.length ((s.advance '"').push (.quoted s.offset false)) rest
  /-- The literal at the start of a text is unterminated just if the rule fails there. -/
  unterminated : ∀ rest, find ('"' :: rest) = .error ⟨0, .unterminated .stringLiteral⟩ ↔
    (g.run string ('"' :: rest)).stop? = none

section

variable {R : Type} {g : Grammar R} {lexeme : Lexeme → R}
  (hg : ∀ l, g.definition (lexeme l) = l.definition lexeme)
include hg

theorem stop?_string_eq_some_iff (offset : Nat) (rest : List Char) (mode : Mode) (fuel : Nat)
    (log : Attempts R) (n : Nat) :
    (matchRule g (fuel + 2) (lexeme .string) mode ⟨offset, '"' :: rest⟩ log).stop? = some n ↔
      ∃ k ys, rest = k ++ ys ∧ QuotedTail false k ∧ n = offset + 1 + byteLength k := by
  have stops {k : List Char} {d : Cursor} (h : Cursor.Passes ⟨offset, '"' :: rest⟩ ('"' :: k) d) :
      rest = k ++ d.rest ∧ d.offset = offset + 1 + byteLength k :=
    ⟨(List.cons.inj h.1).2, by rw [h.2, Nat.add_assoc]; rfl⟩
  constructor
  · intro h
    cases hmatch : matchRule g (fuel + 2) (lexeme .string) mode ⟨offset, '"' :: rest⟩ log with
    | failed log' => rw [hmatch] at h; cases h
    | matched nodes d log' =>
      obtain ⟨k, -, -, hk, htail, -⟩ := exists_quoted_of_string hg
        (derives_of_matchRule _ false _ _ _ _ _ _ _ hmatch)
      rw [hmatch] at h
      exact ⟨k, d.rest, (stops hk).1, htail, (Option.some.inj h).symm.trans (stops hk).2⟩
  · rintro ⟨k, ys, rfl, hk, rfl⟩
    have hpass : Cursor.Passes ⟨offset, '"' :: (k ++ ys)⟩ ('"' :: k) ⟨offset + 1 + byteLength k, ys⟩ :=
      ⟨rfl, by rw [Nat.add_assoc]; rfl⟩
    have matches_string : ∃ inner, Matches (matchRule g (fuel + 2)) false (.rule (lexeme .string)) mode _ _ _ :=
      exists_matches_string hg hk hpass
    obtain ⟨_, hmatch⟩ := matches_string
    obtain ⟨log', hmatch⟩ := hmatch log
    exact congrArg Outcome.stop? hmatch

/-- The scanner and a grammar of the language see the same string literals. -/
theorem sameStrings (hrules : 0 < g.rules.length) : SameStrings g (lexeme .string) := by
  have ends (s : Scan) (rest : List Char) (mode : Mode) (fuel : Nat) (log : Attempts R) :
      (matchRule g (fuel + 2) (lexeme .string) mode ⟨s.offset, '"' :: rest⟩ log).stop? =
        leavesAt? s.stack.length ((s.advance '"').push (.quoted s.offset false)) rest := by
    refine Option.ext fun n => ?_
    rw [stop?_string_eq_some_iff hg, leavesAt?_eq_some_iff s.offset s.stack n rest false _ rfl]
    rfl
  refine ⟨ends, fun rest => ?_⟩
  obtain ⟨fuel, hfuel⟩ := g.exists_fuel (n := 2) (by omega) ('"' :: rest).length
  have hrun : (g.run (lexeme .string) ('"' :: rest)).stop? = leavesAt? 1 .inFirstLiteral rest := by
    unfold Grammar.run
    rw [hfuel]
    exact ends .start rest _ _ _
  rw [find_eq_unterminated_iff, hrun]

end

end ServiceLang
