import ServiceLang.Proofs.Source.Chars
import ServiceLang.Region.Scan

/-!
What one step of the region scanner can do, and what many steps do.

`CodeStep` lists the steps of a scanner that reads code, with the condition under
which each is taken; `stepCode_eq_ok_iff` says that there are no others.  Elsewhere
only the stack changes (`step_cases`).  `step_eq_error_iff` says where the scanner
stops.  `Reads` joins steps: `Reads s xs t ys` if the scanner in the state `s`, with the
text `xs` ahead, comes to the state `t` with `ys` ahead.  A scan of a whole text is such
a reading (`run_eq_ok_iff`), and readings can be put one behind the other
(`Reads.trans`), so a text is read piece by piece.
-/

namespace ServiceLang.Region

/-! ## Many characters at once -/

namespace Scan

/-- The same with all of this text read. -/
def after (s : Scan) (xs : List Char) : Scan :=
  { s with before := xs.reverse ++ s.before, offset := s.offset + byteLength xs }

@[simp] theorem after_nil (s : Scan) : s.after [] = s := by
  simp [after]

@[simp] theorem after_cons (s : Scan) (c : Char) (xs : List Char) :
    s.after (c :: xs) = (s.advance c).after xs := by
  simp [after, advance, Nat.add_assoc]

@[simp] theorem before_after (s : Scan) (xs : List Char) :
    (s.after xs).before = xs.reverse ++ s.before := rfl

@[simp] theorem offset_after (s : Scan) (xs : List Char) :
    (s.after xs).offset = s.offset + byteLength xs := rfl

@[simp] theorem stack_after (s : Scan) (xs : List Char) : (s.after xs).stack = s.stack := rfl

@[simp] theorem pending_after (s : Scan) (xs : List Char) : (s.after xs).pending = s.pending := rfl

@[simp] theorem found_after (s : Scan) (xs : List Char) : (s.after xs).found = s.found := rfl

@[simp] theorem stack_advance (s : Scan) (c : Char) : (s.advance c).stack = s.stack := rfl

@[simp] theorem before_advance (s : Scan) (c : Char) : (s.advance c).before = c :: s.before := rfl

@[simp] theorem offset_advance (s : Scan) (c : Char) :
    (s.advance c).offset = s.offset + c.utf8Size := rfl

@[simp] theorem pending_advance (s : Scan) (c : Char) : (s.advance c).pending = s.pending := rfl

@[simp] theorem found_advance (s : Scan) (c : Char) : (s.advance c).found = s.found := rfl

@[simp] theorem stack_dropPendingIf (s : Scan) (b : Bool) : (s.dropPendingIf b).stack = s.stack := by
  cases b <;> rfl

@[simp] theorem before_dropPendingIf (s : Scan) (b : Bool) :
    (s.dropPendingIf b).before = s.before := by
  cases b <;> rfl

@[simp] theorem offset_dropPendingIf (s : Scan) (b : Bool) :
    (s.dropPendingIf b).offset = s.offset := by
  cases b <;> rfl

@[simp] theorem found_dropPendingIf (s : Scan) (b : Bool) : (s.dropPendingIf b).found = s.found := by
  cases b <;> rfl

@[simp] theorem pending_dropPendingIf_true (s : Scan) : (s.dropPendingIf true).pending = none := rfl

@[simp] theorem dropPendingIf_false (s : Scan) : s.dropPendingIf false = s := rfl

end Scan

/-! ## Steps in code -/

/-- The frames in which code is read. -/
def Frame.IsCode : Frame → Prop
  | .main _ | .region _ _ _ _ => True
  | _ => False

theorem isTopLevel_main (d : Nat) : (Frame.main d).isTopLevel = decide (d = 0) := by
  cases d <;> rfl

theorem eq_main_of_isTopLevel {f : Frame} (h : f.isTopLevel) : f = .main 0 := by
  cases f with
  | main d =>
    rw [isTopLevel_main, decide_eq_true_eq] at h
    rw [h]
  | _ => cases h

theorem insideWord_of_isBlank (a : Bool) (c : Char) (b : List Char) (h : isBlank c) :
    insideWord a (c :: b) = false := by
  rcases (isBlank_iff c).1 h with rfl | rfl | rfl | rfl <;> cases a <;> rfl

/-- No string, comment or brace starts at a character with `next` behind it. -/
def StartsNothing (c : Char) (next : Option Char) : Prop :=
  c ≠ '"' ∧ c ≠ '{' ∧ c ≠ '}' ∧ ¬(c = '/' ∧ (next = some '/' ∨ next = some '*'))

/-- The steps of a scanner that reads code in the frame `top`. -/
inductive CodeStep (s : Scan) (top : Frame) (below : List Frame) :
    Char → List Char → Scan → Prop
  | blank {c : Char} {rest : List Char} : isBlank c → CodeStep s top below c rest (s.advance c)
  | lineComment {rest : List Char} : CodeStep s top below '/' ('/' :: rest)
      ((s.advance '/').push (.lineComment s.offset))
  | blockComment {rest : List Char} : CodeStep s top below '/' ('*' :: rest)
      ((s.advance '/').push (.blockComment s.offset))
  | quote {rest : List Char} : CodeStep s top below '"' rest
      (((s.advance '"').dropPendingIf top.isTopLevel).push (.quoted s.offset false))
  | openBrace {rest : List Char} : CodeStep s top below '{' rest
      (openBrace ((s.advance '{').dropPendingIf top.isTopLevel) top below)
  | closeBrace {rest : List Char} : CodeStep s top below '}' rest
      (closeBrace (s.advance '}') top below)
  | withArguments {rest : List Char} {gap : Nat} : top.isTopLevel → argumentsAhead? rest = some gap →
      CodeStep s top below '@' rest
        ({ s.advance '@' with pending := some (s.pending.getD s.offset) }.push
          (.annotationArgs ((s.advance '@').offset + gap)))
  | withoutArguments {rest : List Char} : top.isTopLevel → argumentsAhead? rest = none →
      CodeStep s top below '@' rest
        { s.advance '@' with pending := some (s.pending.getD s.offset) }
  | insideWord {c : Char} {rest : List Char} : isWordChar c →
      insideWord top.isTopLevel s.before → CodeStep s top below c rest (s.advance c)
  | word {c : Char} {rest : List Char} : isWordChar c →
      insideWord top.isTopLevel s.before = false →
      CodeStep s top below c rest (stepWord s top c rest)
  | other {c : Char} {rest : List Char} : isBlank c = false → isWordChar c = false →
      StartsNothing c rest.head? → isAsciiControl c = false → ¬(c = '@' ∧ top.isTopLevel) →
      CodeStep s top below c rest ((s.advance c).dropPendingIf top.isTopLevel)

/-- A scanner that reads code takes a listed step, or it stops at a control character. -/
theorem stepCode_cases (s : Scan) (top : Frame) (below : List Frame) (c : Char)
    (rest : List Char) :
    (∃ t, stepCode s top below c rest = .ok t ∧ CodeStep s top below c rest t) ∨
      (stepCode s top below c rest = .error ⟨s.offset, .controlCharacter c⟩ ∧
        isAsciiControl c ∧ isBlank c = false) := by
  generalize h : stepCode s top below c rest = result
  unfold stepCode at h
  simp only [] at h
  split at h
  · next hb => exact .inl ⟨_, h.symm, .blank hb⟩
  next hb =>
  split at h
  · next hl =>
    obtain ⟨rfl, h2⟩ : c = '/' ∧ rest.head? = some '/' := by simpa using hl
    obtain ⟨rest, rfl⟩ := List.head?_eq_some_iff.1 h2
    exact .inl ⟨_, h.symm, .lineComment⟩
  next hl =>
  split at h
  · next hk =>
    obtain ⟨rfl, h2⟩ : c = '/' ∧ rest.head? = some '*' := by simpa using hk
    obtain ⟨rest, rfl⟩ := List.head?_eq_some_iff.1 h2
    exact .inl ⟨_, h.symm, .blockComment⟩
  next hk =>
  split at h
  · next hq => subst hq; exact .inl ⟨_, h.symm, .quote⟩
  next hq =>
  split at h
  · next ho => subst ho; exact .inl ⟨_, h.symm, .openBrace⟩
  next ho =>
  split at h
  · next hc => subst hc; exact .inl ⟨_, h.symm, .closeBrace⟩
  next hc =>
  split at h
  · next ha =>
    obtain ⟨rfl, ht⟩ : c = '@' ∧ top.isTopLevel = true := by simpa using ha
    split at h
    · next gap hg => exact .inl ⟨_, h.symm, .withArguments ht hg⟩
    · next hg => exact .inl ⟨_, h.symm, .withoutArguments ht hg⟩
  next ha =>
  split at h
  · next hw =>
    refine .inl ⟨_, h.symm, ?_⟩
    split
    · next hi => exact .insideWord hw hi
    · next hi => exact .word hw (by simpa using hi)
  next hw =>
  split at h
  · next hx => exact .inr ⟨h.symm, hx, by simpa using hb⟩
  next hx =>
  refine .inl ⟨_, h.symm, .other (by simpa using hb) (by simpa using hw) ⟨hq, ho, hc, ?_⟩
    (by simpa using hx) (by simpa using ha)⟩
  rintro ⟨rfl, h2 | h2⟩
  · simp [h2] at hl
  · simp [h2] at hk

theorem codeStep_of_stepCode (s : Scan) (top : Frame) (below : List Frame) (c : Char)
    (rest : List Char) (t : Scan) (h : stepCode s top below c rest = .ok t) :
    CodeStep s top below c rest t := by
  rcases stepCode_cases s top below c rest with ⟨u, hu, hstep⟩ | ⟨hfault, -⟩
  · rw [h] at hu
    cases hu
    exact hstep
  · rw [h] at hfault
    cases hfault

theorem stepCode_of_codeStep (s : Scan) (top : Frame) (below : List Frame) (c : Char)
    (rest : List Char) (t : Scan) (h : CodeStep s top below c rest t) :
    stepCode s top below c rest = .ok t := by
  cases h with
  | blank hb => simp [stepCode, hb]
  | lineComment => rfl
  | blockComment => rfl
  | quote => rfl
  | openBrace => rfl
  | closeBrace => rfl
  | withArguments ht hg => simp [stepCode, isBlank, ht, hg]
  | withoutArguments ht hg => simp [stepCode, isBlank, ht, hg]
  | insideWord hw hi =>
    have hne := fun d hd => ne_of_isWordChar c d hw hd
    simp [stepCode, isBlank_eq_false_of_isWordChar c hw, hw, hi, hne '/' rfl, hne '"' rfl,
      hne '{' rfl, hne '}' rfl, hne '@' rfl]
  | word hw hi =>
    have hne := fun d hd => ne_of_isWordChar c d hw hd
    simp [stepCode, isBlank_eq_false_of_isWordChar c hw, hw, hi, hne '/' rfl, hne '"' rfl,
      hne '{' rfl, hne '}' rfl, hne '@' rfl]
  | other hb hw hs hx ha =>
    obtain ⟨hq, ho, hc, hk⟩ := hs
    have hl : ¬(c = '/' ∧ rest.head? = some '/') := fun h => hk ⟨h.1, .inl h.2⟩
    have hm : ¬(c = '/' ∧ rest.head? = some '*') := fun h => hk ⟨h.1, .inr h.2⟩
    simp [stepCode, hb, hw, hq, ho, hc, hx, hl, hm, ha]

/-- Where code is read, the steps are those listed and no others. -/
theorem stepCode_eq_ok_iff (s : Scan) (top : Frame) (below : List Frame) (c : Char)
    (rest : List Char) (t : Scan) :
    stepCode s top below c rest = .ok t ↔ CodeStep s top below c rest t :=
  ⟨codeStep_of_stepCode s top below c rest t, stepCode_of_codeStep s top below c rest t⟩

theorem step_of_isCode {s : Scan} {top : Frame} {below : List Frame} (c : Char) (rest : List Char)
    (hs : s.stack = top :: below) (ht : top.IsCode) :
    step s c rest = stepCode s top below c rest := by
  unfold step
  rw [hs]
  cases top <;> first | rfl | cases ht

theorem step_code_iff (s t : Scan) (top : Frame) (below : List Frame) (c : Char)
    (rest : List Char) (hs : s.stack = top :: below) (ht : top.IsCode) :
    step s c rest = .ok t ↔ CodeStep s top below c rest t := by
  rw [← stepCode_eq_ok_iff, step_of_isCode c rest hs ht]

/-- Without a frame, characters are read and nothing else happens. -/
theorem step_nil (s : Scan) (c : Char) (rest : List Char) (hs : s.stack = []) :
    step s c rest = .ok (s.advance c) := by
  unfold step
  rw [hs]

/-- What a step does to the stack where no code is read. -/
inductive FrameStep (s : Scan) (c : Char) : List Frame → Prop
  | stay : FrameStep s c s.stack
  | quote {start : Nat} {below : List Frame} : s.stack = .annotationArgs start :: below → c = '"' →
      FrameStep s c (.quoted s.offset false :: s.stack)
  | quoted {start : Nat} {e e' : Bool} {below : List Frame} : s.stack = .quoted start e :: below →
      FrameStep s c (.quoted start e' :: below)
  | shell {start d d' : Nat} {e e' : Bool} {below : List Frame} : s.stack = .shell start d e :: below →
      (1 ≤ d → 1 ≤ d') → d' ≤ d + 1 → FrameStep s c (.shell start d' e' :: below)
  | leave {top : Frame} {below : List Frame} : s.stack = top :: below → ¬ top.IsCode →
      FrameStep s c below

/-- A step that goes on is one of those listed for code, or it changes nothing but the stack. -/
theorem step_cases {s t : Scan} {c : Char} {rest : List Char} (h : step s c rest = .ok t) :
    (∃ top below, s.stack = top :: below ∧ top.IsCode ∧ CodeStep s top below c rest t) ∨
      ∃ fs, FrameStep s c fs ∧ t = { s.advance c with stack := fs } := by
  cases hs : s.stack with
  | nil =>
    rw [step_nil s c rest hs] at h
    cases h
    exact .inr ⟨_, .stay, rfl⟩
  | cons top below =>
  by_cases ht : top.IsCode
  · exact .inl ⟨top, below, rfl, ht, (step_code_iff s t _ _ c rest hs ht).1 h⟩
  right
  unfold step at h
  rw [hs] at h
  cases top with
  | main | region => exact absurd trivial ht
  | annotationArgs start =>
    cases h
    unfold stepAnnotationArgs
    dsimp only
    split
    · next hq => exact ⟨_, .quote hs hq, rfl⟩
    split
    · exact ⟨_, .leave hs ht, rfl⟩
    · exact ⟨_, .stay, rfl⟩
  | quoted start e =>
    cases h
    unfold stepQuoted
    dsimp only
    split
    · exact ⟨_, .quoted hs, rfl⟩
    split
    · exact ⟨_, .quoted hs, rfl⟩
    split
    · exact ⟨_, .leave hs ht, rfl⟩
    · exact ⟨_, .stay, rfl⟩
  | lineComment start =>
    cases h
    unfold stepLineComment
    dsimp only
    split
    · exact ⟨_, .leave hs ht, rfl⟩
    · exact ⟨_, .stay, rfl⟩
  | blockComment start =>
    cases h
    unfold stepBlockComment
    dsimp only
    split
    · exact ⟨_, .leave hs ht, rfl⟩
    · exact ⟨_, .stay, rfl⟩
  | shell start d e =>
    cases h
    unfold stepShell
    dsimp only
    split
    · refine ⟨_, .shell hs (fun hd => ?_) ?_, rfl⟩
      · split <;> omega
      · split <;> omega
    split
    · split
      · exact ⟨_, .leave hs ht, rfl⟩
      · exact ⟨_, .shell hs (by omega) (by omega), rfl⟩
    · exact ⟨_, .stay, rfl⟩

/-- A step goes on from a character that is no control character, or a blank. -/
theorem CodeStep.not_isAsciiControl {s t : Scan} {top : Frame} {below : List Frame} {c : Char}
    {rest : List Char} (h : CodeStep s top below c rest t) :
    isAsciiControl c = false ∨ isBlank c := by
  cases h with
  | blank hb => exact .inr hb
  | insideWord hw | word hw => exact .inl (isAsciiControl_eq_false_of_isWordChar c hw)
  | other _ _ _ hc => exact .inl hc
  | lineComment | blockComment | quote | openBrace | closeBrace | withArguments
  | withoutArguments => exact .inl rfl

/-- Code is read. -/
def Scan.ReadsCode (s : Scan) : Prop := ∃ top below, s.stack = top :: below ∧ top.IsCode

/-- A step fails at a control character where code is read, and nowhere else. -/
theorem step_eq_error_iff (s : Scan) (c : Char) (rest : List Char) (fault : Located Fault) :
    step s c rest = .error fault ↔
      s.ReadsCode ∧ isAsciiControl c ∧ isBlank c = false ∧ fault = ⟨s.offset, .controlCharacter c⟩ := by
  by_cases hcode : s.ReadsCode
  · obtain ⟨top, below, hs, ht⟩ := hcode
    rw [step_of_isCode c rest hs ht]
    rcases stepCode_cases s top below c rest with ⟨t, hstep, hlisted⟩ | ⟨hfault, hc, hb⟩
    · rw [hstep]
      refine ⟨nofun, ?_⟩
      rintro ⟨-, hc, hb, -⟩
      rcases hlisted.not_isAsciiControl with h | h
      · rw [h] at hc
        cases hc
      · rw [h] at hb
        cases hb
    · rw [hfault]
      refine ⟨?_, ?_⟩
      · rintro ⟨⟩
        exact ⟨⟨top, below, hs, ht⟩, hc, hb, rfl⟩
      · rintro ⟨-, -, -, rfl⟩
        rfl
  · refine ⟨fun h => ?_, fun h => absurd h.1 hcode⟩
    unfold step at h
    split at h
    · cases h
    next top below hs =>
    split at h
    · exact absurd ⟨_, below, hs, trivial⟩ hcode
    · exact absurd ⟨_, below, hs, trivial⟩ hcode
    all_goals cases h

/-! ## Many steps -/

/-- The scanner comes from the state `s` with `xs` ahead to `t` with `ys` ahead. -/
inductive Reads : Scan → List Char → Scan → List Char → Prop
  | done (s : Scan) (xs : List Char) : Reads s xs s xs
  | step {s t u : Scan} {c : Char} {xs ys : List Char} :
      step s c xs = .ok t → Reads t xs u ys → Reads s (c :: xs) u ys

theorem Reads.trans {s t u : Scan} {xs ys zs : List Char} (h : Reads s xs t ys)
    (h2 : Reads t ys u zs) : Reads s xs u zs := by
  induction h with
  | done => exact h2
  | step hs _ ih => exact .step hs (ih h2)

theorem Reads.code {s t : Scan} {top : Frame} {below : List Frame} {c : Char} {rest : List Char}
    (hs : s.stack = top :: below) (ht : top.IsCode) (h : CodeStep s top below c rest t) :
    Reads s (c :: rest) t rest :=
  .step ((step_code_iff s t top below c rest hs ht).2 h) (.done _ _)

/-- What a reading has passed is a beginning of the text. -/
theorem Reads.exists_append {s t : Scan} {xs ys : List Char} (h : Reads s xs t ys) :
    ∃ zs, xs = zs ++ ys := by
  induction h with
  | done => exact ⟨[], rfl⟩
  | @step s t u c xs ys hs h ih =>
    obtain ⟨zs, rfl⟩ := ih
    exact ⟨c :: zs, rfl⟩

/-- A scan to the end goes on from wherever a reading has come. -/
theorem Reads.run_eq {s t : Scan} {xs ys : List Char} (h : Reads s xs t ys) :
    run s xs = run t ys := by
  induction h with
  | done => rfl
  | step hs _ ih => rw [run, hs]; exact ih

theorem run_eq_ok_iff (s : Scan) (text : List Char) (t : Scan) :
    run s text = .ok t ↔ Reads s text t [] := by
  constructor
  · intro h
    induction text generalizing s with
    | nil => cases h; exact .done _ _
    | cons c rest ih =>
      rw [run] at h
      cases hs : step s c rest with
      | error e => rw [hs] at h; cases h
      | ok u => rw [hs] at h; exact .step hs (ih u h)
  · intro h
    rw [h.run_eq]; rfl

/-- A scan fails just if it comes to a step that fails. -/
theorem run_eq_error_iff (s : Scan) (text : List Char) (fault : Located Fault) :
    run s text = .error fault ↔
      ∃ t c rest, Reads s text t (c :: rest) ∧ step t c rest = .error fault := by
  constructor
  · intro h
    induction text generalizing s with
    | nil => cases h
    | cons c rest ih =>
      rw [run] at h
      cases hs : step s c rest with
      | error e =>
        rw [hs] at h
        cases h
        exact ⟨s, c, rest, .done _ _, hs⟩
      | ok u =>
        rw [hs] at h
        obtain ⟨t, d, ys, hr, hfails⟩ := ih u h
        exact ⟨t, d, ys, .step hs hr, hfails⟩
  · rintro ⟨t, c, rest, hr, hfails⟩
    rw [hr.run_eq, run, hfails]

theorem Reads.length_le {s t : Scan} {xs ys : List Char} (h : Reads s xs t ys) :
    ys.length ≤ xs.length := by
  obtain ⟨zs, rfl⟩ := h.exists_append
  simp

/-- Of two readings of one text, the longer goes through the end of the shorter. -/
theorem Reads.through {s t u : Scan} {xs ys zs : List Char} (h : Reads s xs u zs)
    (h2 : Reads s xs t ys) (hl : zs.length ≤ ys.length) : Reads t ys u zs := by
  induction h2 with
  | done => exact h
  | @step s v t c xs ys hs h2 ih =>
    cases h with
    | done =>
      have := h2.length_le
      simp at hl
      omega
    | step hs2 h =>
      rw [hs] at hs2
      cases hs2
      exact ih h hl

/-- There is one way to read so much of a text. -/
theorem Reads.unique {s t u : Scan} {xs ys : List Char} (h : Reads s xs t ys)
    (h2 : Reads s xs u ys) : t = u := by
  cases h2.through h (Nat.le_refl _) with
  | done => rfl
  | step _ h3 =>
    have := h3.length_le
    rw [List.length_cons] at this
    omega

end ServiceLang.Region
