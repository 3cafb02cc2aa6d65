import ServiceLang.Proofs.Region.Found

/-!
Where string literals end.

Behind an opening quote the scanner is under a frame of its own, which it leaves with the
quote that closes the literal (`leavesAt?_eq_some_iff`).  If no quote does, it comes to the end
of the text under that frame.  So of a text that begins with a quote, the scan says that its
first literal is unterminated just if the frame is never left
(`find_eq_unterminated_iff`); a later literal has a later offset (`Reads.not_mem_quoted`).
-/

namespace ServiceLang.Region

/-- The offset at which the scanner is first rid of the frames above so many, if it is
before the text ends. -/
def leavesAt? (depth : Nat) : Scan → List Char → Option Nat
  | _, [] => none
  | s, c :: rest =>
    match step s c rest with
    | .error _ => none
    | .ok t => if t.stack.length ≤ depth then some t.offset else leavesAt? depth t rest

/-! ## One character of a literal -/

section

variable {s : Scan} {start : Nat} {e : Bool} {below : List Frame} {c : Char}

theorem quotedTail_cons_iff (k : List Char) :
    QuotedTail e (c :: k) ↔
      if e = false ∧ c = '"' then k = [] else QuotedTail (e = false ∧ c = '\\') k := by
  cases e with
  | true =>
    rw [if_neg (by simp)]
    exact ⟨fun h => by cases h; assumption, fun h => .escaped (by simpa using h)⟩
  | false =>
    by_cases hquote : c = '"'
    · subst hquote
      rw [if_pos ⟨rfl, rfl⟩]
      constructor
      · intro h
        cases h with
        | close => rfl
        | char h => exact absurd rfl h
      · rintro rfl
        exact .close
    rw [if_neg fun h => hquote h.2]
    by_cases hslash : c = '\\'
    · subst hslash
      constructor
      · intro h
        cases h with
        | escape h => exact h
        | char _ h => exact absurd rfl h
      · exact .escape
    · simp only [hslash, and_false, decide_false]
      constructor
      · intro h
        cases h with
        | close => exact absurd rfl hquote
        | escape => exact absurd rfl hslash
        | char _ _ h => exact h
      · exact .char hquote hslash

theorem stack_stepQuoted (hs : s.stack = .quoted start e :: below) :
    (stepQuoted s start e below c).stack =
      if e = false ∧ c = '"' then below else .quoted start (e = false ∧ c = '\\') :: below := by
  unfold stepQuoted
  cases e with
  | true => simp
  | false =>
    by_cases hslash : c = '\\'
    · simp [hslash]
    · by_cases hquote : c = '"' <;> simp [hslash, hquote, hs]

theorem offset_stepQuoted : (stepQuoted s start e below c).offset = s.offset + c.utf8Size := by
  unfold stepQuoted
  dsimp only
  split
  · rfl
  split
  · rfl
  split <;> rfl

end

/-! ## The end of a literal -/

/-- The frame of a string literal is left with the quote that closes it. -/
theorem leavesAt?_eq_some_iff (start : Nat) (below : List Frame) (n : Nat) (xs : List Char) (e : Bool)
    (s : Scan) (hs : s.stack = .quoted start e :: below) :
    leavesAt? below.length s xs = some n ↔
      ∃ k ys, xs = k ++ ys ∧ QuotedTail e k ∧ n = s.offset + byteLength k := by
  induction xs generalizing e s with
  | nil =>
    refine ⟨nofun, ?_⟩
    rintro ⟨k, ys, hk, htail, -⟩
    rw [(List.append_eq_nil_iff.1 hk.symm).1] at htail
    cases htail
  | cons c xs ih =>
    have behind (k : List Char) : s.offset + byteLength (c :: k) =
        (stepQuoted s start e below c).offset + byteLength k := by
      rw [offset_stepQuoted, Nat.add_assoc]
      rfl
    have first : (∃ k ys, c :: xs = k ++ ys ∧ QuotedTail e k ∧ n = s.offset + byteLength k) ↔
        ∃ k ys, xs = k ++ ys ∧ QuotedTail e (c :: k) ∧
          n = (stepQuoted s start e below c).offset + byteLength k := by
      constructor
      · rintro ⟨_ | ⟨d, k⟩, ys, hk, htail, hn⟩
        · cases htail
        · cases hk
          exact ⟨k, ys, rfl, htail, hn.trans (behind k)⟩
      · rintro ⟨k, ys, rfl, htail, hn⟩
        exact ⟨c :: k, ys, rfl, htail, hn.trans (behind k).symm⟩
    rw [first]
    simp only [quotedTail_cons_iff]
    unfold leavesAt?
    rw [step_quoted s start e below c xs hs]
    dsimp only
    have hstack := stack_stepQuoted (c := c) hs
    by_cases hclose : e = false ∧ c = '"'
    · rw [if_pos hclose] at hstack
      simp only [if_pos hclose]
      rw [if_pos (by rw [hstack])]
      constructor
      · intro h
        exact ⟨[], xs, rfl, rfl, (Option.some.inj h).symm⟩
      · rintro ⟨k, ys, -, rfl, rfl⟩
        rfl
    · rw [if_neg hclose] at hstack
      simp only [if_neg hclose]
      rw [if_neg (by rw [hstack]; simp)]
      exact ih _ _ hstack

/-- Without a quote that closes the literal, its frame is open at the end of the text. -/
theorem exists_run_of_leavesAt? (start : Nat) (below : List Frame) (xs : List Char) (e : Bool) (s : Scan)
    (hs : s.stack = .quoted start e :: below) (h : leavesAt? below.length s xs = none) :
    ∃ t e', run s xs = .ok t ∧ t.stack = .quoted start e' :: below := by
  induction xs generalizing e s with
  | nil => exact ⟨s, e, rfl, hs⟩
  | cons c xs ih =>
    unfold leavesAt? at h
    rw [step_quoted s start e below c xs hs] at h
    dsimp only at h
    have hstack := stack_stepQuoted (c := c) hs
    split at h
    · cases h
    · next hlong =>
      by_cases hclose : e = false ∧ c = '"'
      · rw [hstack, if_pos hclose] at hlong
        exact absurd (Nat.le_refl _) hlong
      · rw [if_neg hclose] at hstack
        obtain ⟨t, e', hrun, ht⟩ := ih _ _ hstack h
        refine ⟨t, e', ?_, ht⟩
        rw [run, step_quoted s start e below c xs hs]
        exact hrun

/-! ## Unterminated literals -/

/-- Behind its place no frame of a literal opens at it. -/
theorem Reads.not_mem_quoted {n : Nat} {s t : Scan} {xs ys : List Char} (h : Reads s xs t ys)
    (hn : n < s.offset) (hs : ∀ e, .quoted n e ∉ s.stack) (e : Bool) : .quoted n e ∉ t.stack := by
  induction h with
  | done => exact hs e
  | @step s t _ c xs _ hstep _ ih =>
    have advances := advances_of_step hstep
    refine ih (by rw [advances.offset_eq]; omega) fun e he => ?_
    rcases advances.stack_of.of_mem he with ⟨g, hg, horigin⟩ | hopens
    · cases g with
      | quoted m e' =>
        cases horigin
        exact hs e' hg
      | _ => cases horigin
    · generalize hf : Frame.quoted n e = f at hopens
      cases hopens with
      | quoted =>
        cases hf
        exact absurd hn (Nat.lt_irrefl _)
      | _ => cases hf

/-- The scanner behind a quote at the start of the text. -/
def Scan.inFirstLiteral : Scan := (Scan.start.advance '"').push (.quoted 0 false)

theorem step_firstQuote (rest : List Char) : step .start '"' rest = .ok .inFirstLiteral := rfl

/-- An error names an unterminated literal only if its frame is open in the end. -/
theorem exists_quoted_of_find {text : List Char} {n : Nat}
    (h : find text = .error ⟨n, .unterminated .stringLiteral⟩) :
    ∃ t e, Reads .start text t [] ∧ .quoted n e ∈ t.stack := by
  rcases (find_eq_error_iff text _).1 h with ⟨s, c, rest, -, hstops⟩ | ⟨t, ht, hfinish⟩
  · cases ((step_eq_error_iff s c rest _).1 hstops).2.2.2
  · obtain ⟨opening, hframe, hfault⟩ := (finish_eq_error_iff t _).1 hfinish
    obtain ⟨f, hf, hopen⟩ := List.exists_of_findSome?_eq_some hframe
    cases f with
    | quoted start e =>
      cases hopen
      cases hfault
      exact ⟨t, e, ht, hf⟩
    | _ => cases hopen <;> cases hfault

/-- A text that begins with a quote begins with an unterminated literal, just if the frame of
the literal is never left. -/
theorem find_eq_unterminated_iff (rest : List Char) :
    find ('"' :: rest) = .error ⟨0, .unterminated .stringLiteral⟩ ↔
      leavesAt? 1 .inFirstLiteral rest = none := by
  constructor
  · intro h
    obtain ⟨t, e, hreads, hmem⟩ := exists_quoted_of_find h
    cases hleaves : leavesAt? 1 .inFirstLiteral rest with
    | none => rfl
    | some n =>
      obtain ⟨k, ys, rfl, hk, -⟩ := (leavesAt?_eq_some_iff 0 [.main 0] n rest false _ rfl).1 hleaves
      have first : Reads .start ('"' :: (k ++ ys)) .inFirstLiteral (k ++ ys) := .step (step_firstQuote _) (.done _ _)
      have passed := first.trans (reads_quoted false k hk .inFirstLiteral 0 [.main 0] ys rfl)
      refine absurd hmem ((hreads.rest passed).not_mem_quoted ?_ (fun e he => ?_) e)
      · show 0 < 1 + _
        omega
      · cases List.mem_singleton.1 he
  · intro h
    obtain ⟨t, e, hrun, hstack⟩ := exists_run_of_leavesAt? 0 [.main 0] rest false .inFirstLiteral rfl h
    unfold find
    rw [run, step_firstQuote]
    dsimp only
    rw [hrun]
    dsimp only
    unfold Scan.finish
    rw [hstack]
    rfl

end ServiceLang.Region
