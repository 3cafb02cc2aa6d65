import ServiceLang.Proofs.Grammar.Printed
import ServiceLang.Proofs.Grammar.Shell
import ServiceLang.Proofs.Lower.Nested
import ServiceLang.Proofs.Parse.Single

/-!
A source that is one `exec` block.

If braces match in the body of the block, the scanner passes it as shell text and finds
nothing (`find_execText`), and the grammar reads it as one block, whose command is the body
without the white space around it.  If they do not, the source may still be a program: its
first block ends at the brace that closes it, and more statements or a comment follow.  But
then the command lacks a brace of the body, so it is another (`Source.parse_execText_iff`).
-/

namespace ServiceLang

open Peg Region MainGrammar

/-! ## White space -/

theorem count_dropWhile {p : Char → Bool} {x : Char} (hx : p x = false) (cs : List Char) :
    (cs.dropWhile p).count x = cs.count x := by
  induction cs with
  | nil => rfl
  | cons c cs ih =>
    by_cases hc : p c
    · have hne : c ≠ x := fun h => by rw [h, hx] at hc; cases hc
      rw [List.dropWhile_cons_of_pos hc, ih, List.count_cons_of_ne hne]
    · rw [List.dropWhile_cons_of_neg hc]

/-- Trimming keeps what is no white space. -/
theorem Text.count_trim {x : Char} (hx : isWhiteSpace x = false) (cs : List Char) :
    (trim cs).count x = cs.count x := by
  rw [trim, trimEnd, List.count_reverse, count_dropWhile hx, List.count_reverse, count_dropWhile hx]

/-! ## Sources of one block -/

def execText (body : List Char) : List Char := "exec \x7b".toList ++ (body ++ ['}'])

/-- What a block at the start of the text is read from: its body, up to a brace in it or to
the last one. -/
theorem body_of_execText {body bs found k : List Char} (hblank : ∀ x ∈ bs, isBlank x)
    (h : execText body = "exec".toList ++ (bs ++ '{' :: (found ++ ['}'])) ++ k) :
    body ++ ['}'] = found ++ '}' :: k := by
  have inside : ' ' :: '{' :: (body ++ ['}']) = bs ++ '{' :: (found ++ '}' :: k) := by
    have word : ['e', 'x', 'e', 'c'] ++ ' ' :: '{' :: (body ++ ['}']) =
        ['e', 'x', 'e', 'c'] ++ (bs ++ '{' :: (found ++ ['}'])) ++ k := h
    simpa using word
  match bs with
  | [] => cases inside
  | [x] => exact (List.cons.inj (List.cons.inj inside).2).2
  | x :: y :: bs =>
    have hy : '{' = y := (List.cons.inj (List.cons.inj inside).2).1
    have := hblank y (List.mem_cons_of_mem x List.mem_cons_self)
    rw [← hy] at this
    cases this

/-- The scanner passes the block as shell text. -/
theorem find_execText {body : List Char} (h : BracesMatch body) : find (execText body) = .ok [] := by
  have opens : execAt ('e' :: ("xec \x7b".toList ++ (body ++ ['}']))) :=
    have inside : (' ' :: '{' :: (body ++ ['}'])).head?.any isWordChar = false := rfl
    execAt_of_nextIs inside rfl
  have tail : ShellTail 0 ("xec \x7b".toList ++ (body ++ ['}'])) :=
    .char (by decide) (by decide) (.char (by decide) (by decide) (.char (by decide) (by decide)
      (.char (by decide) (by decide) (.brace ((bracesMatch_iff body).2 h)))))
  have word : CodeStep .start (.main 0) [] 'e' ("xec \x7b".toList ++ (body ++ ['}'])) _ := .word rfl rfl
  have first := Reads.code (show Scan.start.stack = [Frame.main 0] from rfl) trivial word
  rw [stepWord_main, if_pos opens] at first
  have rest := reads_shell 0 _ tail
    (((Scan.start.advance 'e').dropPendingIf true).push (.shell 0 1 false)) 0 [.main 0] [] rfl
  rw [List.append_nil] at rest
  refine (find_eq_ok_iff _ _).2 ⟨_, first.trans rest, ?_, rfl⟩
  intro f hf
  rw [List.mem_singleton.1 hf]
  rfl

/-- A block whose braces match is parsed to it. -/
theorem Source.parse_execText (filename : String) {body : List Char} (h : BracesMatch body) :
    Source.parse ⟨filename, execText body⟩ = .ok ⟨Source.position ⟨filename, execText body⟩ 0,
      [.exec (Source.position ⟨filename, execText body⟩ 0) (String.ofList (Text.trim body))]⟩ := by
  let s : Source := ⟨filename, execText body⟩
  let fuel := grammar.fuel s.text.length + body.length
  have htext : (Cursor.start s.text).Passes (execText body) ⟨s.byteLength, []⟩ :=
    ⟨(List.append_nil _).symm, (Nat.zero_add _).symm⟩
  have solid : skipTrivia (.start s.text) = .start s.text := skipTrivia_solid (x := 'e') rfl rfl (by decide)
  obtain ⟨inner, hmatch⟩ := matches_execBlock (fuel + 1) h (by omega) htext
  have before : ∀ q ∈ [Rule.varDecl, .ifStmt, .forLoop, .functionDecl, .returnStmt].map Pattern.rule,
      Misses (matchRule grammar (fuel + 4)) true q ⟨.none, .free⟩ (.start s.text) :=
    misses_all_of_head ['e'] 3 rfl List.mem_cons_self (by decide)
  have statement : Matches (matchRule grammar (fuel + 5)) true (.rule .statement) ⟨.none, .free⟩
      (.start s.text) [.node .execBlock (.start s.text) s.byteLength inner] ⟨s.byteLength, []⟩ :=
    .silent rfl (.choice_of_getElem? 5 rfl before hmatch)
  obtain ⟨bs, found, _, hpasses, hblank, -, hnodes, hlower⟩ :=
    exists_command_of_execBlock hmatch.derives
  have hbody : body ++ ['}'] = found ++ ['}'] :=
    body_of_execText (k := []) hblank ((List.append_nil _).symm.trans (htext.1.symm.trans hpasses.1))
  cases hnodes
  obtain rfl := List.append_cancel_right hbody
  refine s.parse_of_statement (find_execText h) (by show _ ≤ fuel + 5 + 1; omega)
    (by rw [solid]; exact statement) rfl (hlower _)

/-- A source of one `exec` block is parsed to it, with the trimmed body for its command, just
if braces match in the body. -/
theorem Source.parse_execText_iff (filename : String) (body : List Char) :
    (∃ p pos, Source.parse ⟨filename, execText body⟩ = .ok p ∧
      p.statements = [.exec pos (String.ofList (Text.trim body))]) ↔ BracesMatch body := by
  refine ⟨?_, fun h => ⟨_, _, parse_execText filename h, rfl⟩⟩
  rintro ⟨p, pos, hparse, hstatements⟩
  obtain ⟨trees, t, htrees, hnodes, hlower⟩ :=
    exists_of_parse_single hparse hstatements (fun kind => by cases kind <;> rfl)
  have solid : skipTrivia (.start (execText body)) = .start (execText body) :=
    skipTrivia_solid (x := 'e') rfl rfl (by decide)
  obtain ⟨d, hderives, -⟩ := exists_of_program htrees
  rw [hnodes] at hderives
  rw [solid] at hderives
  obtain ⟨f, hfirst⟩ := exists_first_statement solid hderives
  have block : t.rule = .execBlock := (Option.some.inj (rule_of_lowerStmt hlower)).symm
  have hblock := derives_of_statement hfirst
  rw [block] at hblock
  obtain ⟨bs, found, inner, hpasses, hblank, hmatch, hnode, hcommand⟩ := exists_command_of_execBlock hblock
  obtain rfl := List.singleton_inj.1 hnode
  have hinside := body_of_execText hblank hpasses.1
  rw [hcommand] at hlower
  have hsame : Text.trim found = Text.trim body :=
    String.ofList_inj.1 (Stmt.exec.inj (Except.ok.inj hlower)).2
  cases hrest : f.rest with
  | nil =>
    rw [hrest] at hinside
    rwa [List.append_cancel_right hinside]
  | cons x rest =>
    -- A brace that closes a shorter command is in the body, but not in the command.
    have hclose : Text.isWhiteSpace '}' = false := by decide
    have count : found.count '}' = body.count '}' := by
      rw [← Text.count_trim hclose found, hsame, Text.count_trim hclose body]
    rw [hrest] at hinside
    have last : '}' ∈ x :: rest := by
      have ends : '}' ∈ (found ++ '}' :: x :: rest).getLast? := by simp [← hinside]
      rw [List.getLast?_append_cons, List.getLast?_cons_cons] at ends
      exact List.mem_of_mem_getLast? ends
    have some := List.count_pos_iff.2 last
    have counts := congrArg (List.count '}') hinside
    rw [List.count_append, List.count_append, List.count_cons_self, List.count_cons_self,
      List.count_nil, count] at counts
    omega

end ServiceLang
