import ServiceLang.Proofs.Region.Step

/-!
The pieces of text that the scanner passes under one frame: string literals,
comments, the arguments of annotations, `exec` blocks and the bodies of regions.

Each is an inductive family over what remains of the piece.  Two facts hold of
each: a scanner under the frame that has the rest of a piece ahead passes it and
is rid of the frame (`reads_…`), and a scanner that is rid of the frame in the end
had the rest of a piece ahead (`exists_…`).  So the pieces say what strings,
comments and matching braces are without a stack.
-/

namespace ServiceLang.Region

/-! ## The end of a scan -/

/-- Nothing is left open that has to be closed. -/
def Closed (stack : List Frame) : Prop := ∀ f ∈ stack, f.unterminated? = none

theorem finish_eq_ok_iff (s : Scan) (rs : List Region) :
    s.finish = .ok rs ↔ Closed s.stack ∧ rs = s.found.reverse := by
  unfold Scan.finish Closed
  rw [← List.findSome?_eq_none_iff]
  split
  · next h => simp [h]
  · next h => simp [h, eq_comm]

theorem finish_eq_error_iff (s : Scan) (fault : Located Fault) :
    s.finish = .error fault ↔
      ∃ opening, s.stack.findSome? Frame.unterminated? = some opening ∧
        fault = ⟨opening.offset, .unterminated opening.cause⟩ := by
  unfold Scan.finish
  cases s.stack.findSome? Frame.unterminated? with
  | none => simp
  | some opening => simp [eq_comm]

theorem find_eq_ok_iff (text : List Char) (rs : List Region) :
    find text = .ok rs ↔
      ∃ t, Reads .start text t [] ∧ Closed t.stack ∧ rs = t.found.reverse := by
  unfold find
  cases h : run .start text with
  | error e =>
    simp only [reduceCtorEq, false_iff]
    rintro ⟨t, ht, -⟩
    rw [← run_eq_ok_iff, h] at ht
    cases ht
  | ok t =>
    rw [run_eq_ok_iff] at h
    simp only [finish_eq_ok_iff]
    constructor
    · intro h2; exact ⟨t, h, h2⟩
    · rintro ⟨u, hu, h2⟩
      rw [h.unique hu]; exact h2

/-- A text has no regions if its scan stops, or leaves something open. -/
theorem find_eq_error_iff (text : List Char) (fault : Located Fault) :
    find text = .error fault ↔
      (∃ s c rest, Reads .start text s (c :: rest) ∧ step s c rest = .error fault) ∨
        ∃ s, Reads .start text s [] ∧ s.finish = .error fault := by
  rw [← run_eq_error_iff]
  simp only [← run_eq_ok_iff]
  unfold find
  cases run .start text <;> simp

/-- A reading to the end goes through wherever a reading has come. -/
theorem Reads.rest {s t u : Scan} {xs ys : List Char} (h : Reads s xs u []) (h2 : Reads s xs t ys) :
    Reads t ys u [] :=
  h.through h2 (Nat.zero_le _)

/-! ## Blanks -/

theorem Reads.blanks {s : Scan} {top : Frame} {below : List Frame} {k : List Char}
    (hs : s.stack = top :: below) (ht : top.IsCode) (hk : ∀ c ∈ k, isBlank c) (ys : List Char) :
    Reads s (k ++ ys) (s.after k) ys := by
  induction k generalizing s with
  | nil => exact .done _ _
  | cons c k ih =>
    refine (Reads.code hs ht (.blank (hk c List.mem_cons_self))).trans ?_
    rw [Scan.after_cons]
    exact ih (s := s.advance c) hs fun x hx => hk x (List.mem_cons_of_mem c hx)

/-! ## String literals -/

/-- The rest of a string literal up to its closing quote; `true` behind a backslash. -/
inductive QuotedTail : Bool → List Char → Prop
  | close : QuotedTail false ['"']
  | escape {cs : List Char} : QuotedTail true cs → QuotedTail false ('\\' :: cs)
  | escaped {c : Char} {cs : List Char} : QuotedTail false cs → QuotedTail true (c :: cs)
  | char {c : Char} {cs : List Char} : c ≠ '"' → c ≠ '\\' → QuotedTail false cs →
      QuotedTail false (c :: cs)

theorem step_quoted (s : Scan) (start : Nat) (e : Bool) (below : List Frame) (c : Char)
    (rest : List Char) (hs : s.stack = .quoted start e :: below) :
    step s c rest = .ok (stepQuoted s start e below c) := by
  unfold step
  rw [hs]

theorem reads_quoted (e : Bool) (k : List Char) (hk : QuotedTail e k) (s : Scan) (start : Nat)
    (below : List Frame) (ys : List Char) (hs : s.stack = .quoted start e :: below) :
    Reads s (k ++ ys) { s.after k with stack := below } ys := by
  induction hk generalizing s with
  | close => exact .step (step_quoted s start _ below _ _ hs) (.done _ _)
  | escape hk ih =>
    refine .step (step_quoted s start _ below _ _ hs) ?_
    simpa [stepQuoted] using ih { s.advance '\\' with stack := .quoted start true :: below } rfl
  | @escaped c cs hk ih =>
    refine .step (step_quoted s start _ below _ _ hs) ?_
    simpa [stepQuoted] using ih { s.advance c with stack := .quoted start false :: below } rfl
  | @char c cs h1 h2 hk ih =>
    refine .step (step_quoted s start _ below _ _ hs) ?_
    simpa [stepQuoted, h1, h2] using ih (s.advance c) hs

theorem exists_quotedTail (s t : Scan) (start : Nat) (e : Bool) (below : List Frame)
    (xs : List Char) (hs : s.stack = .quoted start e :: below) (h : Reads s xs t [])
    (ht : Closed t.stack) : ∃ k ys, xs = k ++ ys ∧ QuotedTail e k := by
  induction xs generalizing s e with
  | nil =>
    cases h
    have := ht (.quoted start e) (by rw [hs]; exact List.mem_cons_self)
    cases this
  | cons c cs ih =>
    cases h with
    | step hst h =>
      rw [step_quoted s start e below c cs hs] at hst
      cases hst
      cases e with
      | true =>
        obtain ⟨k, ys, rfl, hk⟩ := ih _ false rfl h
        exact ⟨c :: k, ys, rfl, .escaped hk⟩
      | false =>
        by_cases h1 : c = '\\'
        · subst h1
          obtain ⟨k, ys, rfl, hk⟩ := ih _ true rfl h
          exact ⟨'\\' :: k, ys, rfl, .escape hk⟩
        by_cases h2 : c = '"'
        · subst h2
          exact ⟨['"'], cs, rfl, .close⟩
        simp only [stepQuoted, h1, h2, if_false, Bool.false_eq_true] at h
        obtain ⟨k, ys, rfl, hk⟩ := ih (s.advance c) false hs h
        exact ⟨c :: k, ys, rfl, .char h2 h1 hk⟩

/-! ## Comments -/

/-- The rest of a line comment, with the newline that ends it. -/
inductive LineTail : List Char → Prop
  | close : LineTail ['\n']
  | char {c : Char} {cs : List Char} : c ≠ '\n' → LineTail cs → LineTail (c :: cs)

theorem step_lineComment (s : Scan) (start : Nat) (below : List Frame) (c : Char)
    (rest : List Char) (hs : s.stack = .lineComment start :: below) :
    step s c rest = .ok (stepLineComment s below c) := by
  unfold step
  rw [hs]

theorem reads_lineComment (k : List Char) (hk : LineTail k) (s : Scan) (start : Nat)
    (below : List Frame) (ys : List Char) (hs : s.stack = .lineComment start :: below) :
    Reads s (k ++ ys) { s.after k with stack := below } ys := by
  induction hk generalizing s with
  | close => exact .step (step_lineComment s start below _ _ hs) (.done _ _)
  | @char c cs h1 hk ih =>
    refine .step (step_lineComment s start below _ _ hs) ?_
    simpa [stepLineComment, h1] using ih (s.advance c) hs

/-- A line comment without a newline is not left. -/
theorem reads_openLine (k : List Char) (hk : '\n' ∉ k) (s : Scan) (start : Nat) (below : List Frame)
    (hs : s.stack = .lineComment start :: below) : Reads s k (s.after k) [] := by
  induction k generalizing s with
  | nil => exact .done _ _
  | cons c k ih =>
    have hc : c ≠ '\n' := fun h => hk (by rw [h]; exact List.mem_cons_self)
    refine .step (step_lineComment s start below c k hs) ?_
    have := ih (fun hm => hk (List.mem_cons_of_mem c hm)) (s.advance c) hs
    simpa [stepLineComment, hc] using this

/-- A line comment ends with its line, or with the text. -/
theorem exists_lineTail (s t : Scan) (start : Nat) (below : List Frame) (xs : List Char)
    (hs : s.stack = .lineComment start :: below) (h : Reads s xs t []) :
    (∃ k ys, xs = k ++ ys ∧ LineTail k) ∨ ('\n' ∉ xs ∧ t = s.after xs) := by
  induction xs generalizing s with
  | nil =>
    right
    cases h
    simp
  | cons c cs ih =>
    cases h with
    | step hst h =>
      rw [step_lineComment s start below c cs hs] at hst
      cases hst
      by_cases h1 : c = '\n'
      · subst h1
        exact .inl ⟨['\n'], cs, rfl, .close⟩
      simp only [stepLineComment, h1, if_false] at h
      rcases ih (s.advance c) hs h with ⟨k, ys, rfl, hk⟩ | ⟨h2, ht⟩
      · exact .inl ⟨c :: k, ys, rfl, .char h1 hk⟩
      · right
        exact ⟨by simp [Ne.symm h1, h2], by rw [ht, Scan.after_cons]⟩

/-- The rest of a block comment with the slash that ends it; `true` behind a star
that may be the first of the two closing characters. -/
inductive BlockTail : Bool → List Char → Prop
  | close : BlockTail true ['/']
  | char {star : Bool} {c : Char} {cs : List Char} : ¬(star ∧ c = '/') →
      BlockTail (c = '*') cs → BlockTail star (c :: cs)

/-- The last character read may be the first of the two that close the comment. -/
def starRead (s : Scan) (start : Nat) : Bool := s.before.head? = some '*' && start + 3 ≤ s.offset

theorem step_blockComment (s : Scan) (start : Nat) (below : List Frame) (c : Char)
    (rest : List Char) (hs : s.stack = .blockComment start :: below) :
    step s c rest = .ok (stepBlockComment s start below c) := by
  unfold step
  rw [hs]

theorem starRead_advance (s : Scan) (start : Nat) (c : Char) (h : start + 2 ≤ s.offset) :
    starRead (s.advance c) start = decide (c = '*') := by
  have := c.utf8Size_pos
  have h2 : start + 3 ≤ s.offset + c.utf8Size := by omega
  simp [starRead, h2]

theorem reads_blockComment (star : Bool) (k : List Char) (hk : BlockTail star k) (s : Scan)
    (start : Nat) (below : List Frame) (ys : List Char)
    (hs : s.stack = .blockComment start :: below) (ho : start + 2 ≤ s.offset)
    (hb : starRead s start = star) : Reads s (k ++ ys) { s.after k with stack := below } ys := by
  induction hk generalizing s with
  | close =>
    refine .step (step_blockComment s start below _ _ hs) ?_
    simp only [starRead, Bool.and_eq_true, decide_eq_true_eq] at hb
    simp only [stepBlockComment, hb, decide_true, Bool.and_self, if_true]
    exact .done _ _
  | @char star c cs h1 hk ih =>
    refine .step (step_blockComment s start below _ _ hs) ?_
    have h2 : ¬(c = '/' ∧ starRead s start = true) := by
      rw [hb]
      exact fun h => h1 ⟨h.2, h.1⟩
    have hstep : stepBlockComment s start below c = s.advance c := by
      simp only [starRead, Bool.and_eq_true, decide_eq_true_eq] at h2
      simp only [stepBlockComment, Bool.and_eq_true, decide_eq_true_eq]
      rw [if_neg (by rintro ⟨⟨h3, h4⟩, h5⟩; exact h2 ⟨h3, h4, h5⟩)]
    rw [hstep]
    have ho2 : start + 2 ≤ (s.advance c).offset := by
      simp only [Scan.offset_advance]; omega
    simpa using ih (s.advance c) hs ho2 (starRead_advance s start c ho)

theorem exists_blockTail (s t : Scan) (start : Nat) (below : List Frame) (xs : List Char)
    (hs : s.stack = .blockComment start :: below) (ho : start + 2 ≤ s.offset) (h : Reads s xs t [])
    (ht : Closed t.stack) : ∃ k ys, xs = k ++ ys ∧ BlockTail (starRead s start) k := by
  induction xs generalizing s with
  | nil =>
    cases h
    have := ht (.blockComment start) (by rw [hs]; exact List.mem_cons_self)
    cases this
  | cons c cs ih =>
    cases h with
    | step hst h =>
      rw [step_blockComment s start below c cs hs] at hst
      cases hst
      by_cases h1 : starRead s start ∧ c = '/'
      · obtain ⟨h1, rfl⟩ := h1
        rw [h1]
        exact ⟨['/'], cs, rfl, .close⟩
      have hstep : stepBlockComment s start below c = s.advance c := by
        simp only [starRead, Bool.and_eq_true, decide_eq_true_eq] at h1
        simp only [stepBlockComment, Bool.and_eq_true, decide_eq_true_eq]
        rw [if_neg (by rintro ⟨⟨h3, h4⟩, h5⟩; exact h1 ⟨⟨h4, h5⟩, h3⟩)]
      rw [hstep] at h
      have ho2 : start + 2 ≤ (s.advance c).offset := by
        simp only [Scan.offset_advance]; omega
      obtain ⟨k, ys, rfl, hk⟩ := ih (s.advance c) hs ho2 h
      rw [starRead_advance s start c ho] at hk
      exact ⟨c :: k, ys, rfl, .char h1 hk⟩

/-- A comment; a line comment with the newline that ends it. -/
inductive Comment : List Char → Prop
  | line {cs : List Char} : LineTail cs → Comment ('/' :: '/' :: cs)
  | block {cs : List Char} : BlockTail false cs → Comment ('/' :: '*' :: cs)

/-- Text that counts as one piece where code is read and holds no brace of the code. -/
inductive Skipped : List Char → Prop
  | comment {k : List Char} : Comment k → Skipped k
  | quoted {cs : List Char} : QuotedTail false cs → Skipped ('"' :: cs)

/-- The scanner behind the two characters that open a block comment. -/
def inBlockComment (s : Scan) : Scan := ((s.advance '/').push (.blockComment s.offset)).advance '*'

theorem step_openingStar (s : Scan) (rest : List Char) :
    step ((s.advance '/').push (.blockComment s.offset)) '*' rest = .ok (inBlockComment s) := by
  rw [step_blockComment _ s.offset s.stack '*' _ rfl]
  rfl

theorem starRead_inBlockComment (s : Scan) : starRead (inBlockComment s) s.offset = false := by
  simp [starRead, inBlockComment, Scan.push, Scan.advance, Char.utf8Size]

theorem Reads.comment {s : Scan} {top : Frame} {below : List Frame} {k : List Char}
    (hs : s.stack = top :: below) (ht : top.IsCode) (hk : Comment k) (ys : List Char) :
    Reads s (k ++ ys) (s.after k) ys := by
  cases hk with
  | @line cs hc =>
    refine (Reads.code hs ht .lineComment).trans ?_
    have := reads_lineComment ('/' :: cs) (.char (by decide) hc)
      ((s.advance '/').push (.lineComment s.offset)) s.offset s.stack ys rfl
    simpa [Scan.push, Scan.after, Scan.advance, Nat.add_assoc] using this
  | @block cs hc =>
    refine (Reads.code hs ht .blockComment).trans ?_
    refine .step (step_openingStar s _) ?_
    have := reads_blockComment false cs hc (inBlockComment s) s.offset s.stack ys rfl
      (Nat.le_refl _) (starRead_inBlockComment s)
    simpa [inBlockComment, Scan.push, Scan.after, Scan.advance, Nat.add_assoc] using this

/-- Behind a string at the top level no annotation waits any more. -/
theorem Reads.quoted {s : Scan} {top : Frame} {below : List Frame} {cs : List Char}
    (hs : s.stack = top :: below) (ht : top.IsCode) (hc : QuotedTail false cs) (ys : List Char) :
    Reads s ('"' :: cs ++ ys) ((s.dropPendingIf top.isTopLevel).after ('"' :: cs)) ys := by
  refine (Reads.code hs ht .quote).trans ?_
  have := reads_quoted false cs hc (((s.advance '"').dropPendingIf top.isTopLevel).push
    (.quoted s.offset false)) s.offset s.stack ys (by simp [Scan.push])
  cases htop : top.isTopLevel <;>
    simpa [htop, Scan.push, Scan.after, Scan.advance, Scan.dropPendingIf, Nat.add_assoc] using this

/-- A comment ends before the text does, unless it is a line comment on the last line. -/
theorem exists_comment (s t : Scan) (top : Frame) (below : List Frame) (c : Char)
    (xs : List Char) (hs : s.stack = top :: below) (ht : top.IsCode) (hc : c = '/' ∨ c = '*')
    (h : Reads s ('/' :: c :: xs) t []) (hcl : Closed t.stack) :
    (∃ k ys, '/' :: c :: xs = k ++ ys ∧ Comment k) ∨
      (c = '/' ∧ '\n' ∉ xs ∧ t.stack = .lineComment s.offset :: s.stack ∧ t.found = s.found) := by
  rcases hc with rfl | rfl
  · have h1 := h.rest (Reads.code hs ht .lineComment)
    rcases exists_lineTail _ t s.offset s.stack ('/' :: xs) rfl h1 with ⟨k, ys, hk, hl⟩ | ⟨hn, rfl⟩
    · left
      cases hl with
      | close => cases hk
      | @char c cs _ hl =>
        cases hk
        exact ⟨'/' :: '/' :: cs, ys, rfl, .line hl⟩
    · right
      exact ⟨rfl, by simpa using hn, rfl, rfl⟩
  · left
    have h1 := h.rest (Reads.code hs ht .blockComment)
    have h2 := h1.rest (.step (step_openingStar s xs) (.done _ _))
    obtain ⟨k, ys, rfl, hk⟩ := exists_blockTail (inBlockComment s) t s.offset s.stack xs rfl
      (Nat.le_refl _) h2 hcl
    rw [starRead_inBlockComment] at hk
    exact ⟨'/' :: '*' :: k, ys, rfl, .block hk⟩

/-- A string literal ends before the text does. -/
theorem exists_quoted (s t : Scan) (top : Frame) (below : List Frame) (xs : List Char)
    (hs : s.stack = top :: below) (ht : top.IsCode) (h : Reads s ('"' :: xs) t [])
    (hcl : Closed t.stack) : ∃ k ys, xs = k ++ ys ∧ QuotedTail false k :=
  exists_quotedTail _ t s.offset false s.stack xs (by simp [Scan.push])
    (h.rest (Reads.code hs ht .quote)) hcl

/-! ## Arguments of annotations -/

/-- The rest of an annotation's arguments, up to the parenthesis that ends them. -/
inductive ArgsTail : List Char → Prop
  | close : ArgsTail [')']
  | quoted {k cs : List Char} : QuotedTail false k → ArgsTail cs → ArgsTail ('"' :: k ++ cs)
  | char {c : Char} {cs : List Char} : c ≠ '"' → c ≠ ')' → ArgsTail cs → ArgsTail (c :: cs)

theorem step_annotationArgs (s : Scan) (start : Nat) (below : List Frame) (c : Char)
    (rest : List Char) (hs : s.stack = .annotationArgs start :: below) :
    step s c rest = .ok (stepAnnotationArgs s below c) := by
  unfold step
  rw [hs]

theorem Reads.argumentString {s : Scan} {start : Nat} {below : List Frame} {k : List Char}
    (hs : s.stack = .annotationArgs start :: below) (hk : QuotedTail false k) (ys : List Char) :
    Reads s ('"' :: k ++ ys) (s.after ('"' :: k)) ys := by
  refine .step (step_annotationArgs s start below '"' _ hs) ?_
  have := reads_quoted false k hk ((s.advance '"').push (.quoted s.offset false)) s.offset s.stack
    ys (by simp [Scan.push])
  simpa [stepAnnotationArgs, Scan.push, Scan.after, Scan.advance, Nat.add_assoc] using this

theorem reads_annotationArgs (k : List Char) (hk : ArgsTail k) (s : Scan) (start : Nat)
    (below : List Frame) (ys : List Char) (hs : s.stack = .annotationArgs start :: below) :
    Reads s (k ++ ys) { s.after k with stack := below } ys := by
  induction hk generalizing s with
  | close => exact .step (step_annotationArgs s start below _ _ hs) (.done _ _)
  | @quoted k cs hk _ ih =>
    rw [List.append_assoc]
    refine (Reads.argumentString hs hk (cs ++ ys)).trans ?_
    have := ih (s.after ('"' :: k)) hs
    simpa [Scan.after, Scan.advance, Nat.add_assoc] using this
  | @char c cs h1 h2 _ ih =>
    refine .step (step_annotationArgs s start below _ _ hs) ?_
    simpa [stepAnnotationArgs, h1, h2] using ih (s.advance c) hs

/-- The arguments of an annotation end before the text does. -/
theorem exists_argsTail (s t : Scan) (start : Nat) (below : List Frame) (xs : List Char)
    (hs : s.stack = .annotationArgs start :: below) (h : Reads s xs t []) (ht : Closed t.stack) :
    ∃ k ys, xs = k ++ ys ∧ ArgsTail k := by
  induction hn : xs.length using Nat.strongRecOn generalizing xs s with
  | ind n ih =>
  subst hn
  cases h with
  | done =>
    have := ht (.annotationArgs start) (by rw [hs]; exact List.mem_cons_self)
    cases this
  | @step _ u _ c rest _ hst hr =>
  have h2 : Reads s (c :: rest) t [] := .step hst hr
  rw [step_annotationArgs s start below c rest hs] at hst
  cases hst
  by_cases h3 : c = '"'
  · subst h3
    obtain ⟨k, ys, rfl, hk⟩ := exists_quotedTail ((s.advance '"').push (.quoted s.offset false)) t
      s.offset false s.stack rest (by simp [Scan.push]) hr ht
    have hlt : ys.length < ('"' :: (k ++ ys)).length := by
      rw [List.length_cons, List.length_append]
      omega
    obtain ⟨k2, zs, rfl, hk2⟩ := ih ys.length hlt (s.after ('"' :: k)) ys hs
      (h2.rest (Reads.argumentString hs hk ys)) rfl
    exact ⟨'"' :: k ++ k2, zs, by simp, .quoted hk hk2⟩
  by_cases h4 : c = ')'
  · subst h4
    exact ⟨[')'], rest, rfl, .close⟩
  simp only [stepAnnotationArgs, h3, h4, if_false] at hr
  obtain ⟨k, ys, rfl, hk⟩ := ih rest.length (by simp) (s.advance c) rest hs hr rfl
  exact ⟨c :: k, ys, rfl, .char h3 h4 hk⟩

/-! ## Shell text -/

/-- The rest of an `exec` block in which so many braces are open, none before the
first.  Braces count wherever they stand. -/
inductive ShellTail : Nat → List Char → Prop
  | last {d : Nat} : d ≤ 1 → ShellTail d ['}']
  | close {d : Nat} {cs : List Char} : ShellTail (d + 1) cs → ShellTail (d + 2) ('}' :: cs)
  | brace {d : Nat} {cs : List Char} : ShellTail (d + 1) cs → ShellTail d ('{' :: cs)
  | char {d : Nat} {c : Char} {cs : List Char} : c ≠ '{' → c ≠ '}' → ShellTail d cs →
      ShellTail d (c :: cs)

/-- The frame of an `exec` block in which so many braces are open. -/
def shellFrame (start : Nat) : Nat → Frame
  | 0 => .shell start 1 false
  | d + 1 => .shell start (d + 1) true

theorem step_shell (s : Scan) (start d : Nat) (below : List Frame) (c : Char) (rest : List Char)
    (hs : s.stack = shellFrame start d :: below) :
    step s c rest = .ok (stepShell s start (max d 1) (0 < d) below c) := by
  unfold step
  rw [hs]
  cases d with
  | zero => rfl
  | succ d => simp [shellFrame]

theorem stepShell_open (s : Scan) (start d : Nat) (below : List Frame) :
    stepShell s start (max d 1) (0 < d) below '{' =
      { s.advance '{' with stack := shellFrame start (d + 1) :: below } := by
  cases d with
  | zero => rfl
  | succ d => simp [stepShell, shellFrame]

theorem stepShell_close (s : Scan) (start d : Nat) (below : List Frame) :
    stepShell s start (max (d + 2) 1) (0 < d + 2) below '}' =
      { s.advance '}' with stack := shellFrame start (d + 1) :: below } := by
  simp [stepShell, shellFrame]

theorem stepShell_last (s : Scan) (start d : Nat) (below : List Frame) (hd : d ≤ 1) :
    stepShell s start (max d 1) (0 < d) below '}' = { s.advance '}' with stack := below } := by
  simp [stepShell, show max d 1 = 1 by omega]

theorem stepShell_other (s : Scan) (start d : Nat) (below : List Frame) (c : Char) (ho : c ≠ '{')
    (hc : c ≠ '}') : stepShell s start (max d 1) (0 < d) below c = s.advance c := by
  simp [stepShell, ho, hc]

theorem reads_shell (d : Nat) (k : List Char) (hk : ShellTail d k) (s : Scan) (start : Nat)
    (below : List Frame) (ys : List Char) (hs : s.stack = shellFrame start d :: below) :
    Reads s (k ++ ys) { s.after k with stack := below } ys := by
  induction hk generalizing s with
  | last hd =>
    refine .step (step_shell s start _ below _ _ hs) ?_
    rw [stepShell_last s start _ below hd]
    exact .done _ _
  | @close d cs _ ih =>
    refine .step (step_shell s start _ below _ _ hs) ?_
    rw [stepShell_close]
    simpa using ih { s.advance '}' with stack := shellFrame start (d + 1) :: below } rfl
  | @brace d cs _ ih =>
    refine .step (step_shell s start _ below _ _ hs) ?_
    rw [stepShell_open]
    simpa using ih { s.advance '{' with stack := shellFrame start (d + 1) :: below } rfl
  | @char d c cs h1 h2 _ ih =>
    refine .step (step_shell s start _ below _ _ hs) ?_
    rw [stepShell_other s start d below c h1 h2]
    simpa using ih (s.advance c) hs

/-- An `exec` block ends before the text does. -/
theorem exists_shellTail (s t : Scan) (start d : Nat) (below : List Frame) (xs : List Char)
    (hs : s.stack = shellFrame start d :: below) (h : Reads s xs t []) (ht : Closed t.stack) :
    ∃ k ys, xs = k ++ ys ∧ ShellTail d k := by
  induction xs generalizing s d with
  | nil =>
    cases h
    have := ht (shellFrame start d) (by rw [hs]; exact List.mem_cons_self)
    cases d <;> cases this
  | cons c cs ih =>
    cases h with
    | step hst h =>
      rw [step_shell s start d below c cs hs] at hst
      cases hst
      by_cases h1 : c = '{'
      · subst h1
        rw [stepShell_open] at h
        obtain ⟨k, ys, rfl, hk⟩ := ih _ (d + 1) rfl h
        exact ⟨'{' :: k, ys, rfl, .brace hk⟩
      by_cases h2 : c = '}'
      · subst h2
        match d with
        | 0 => exact ⟨['}'], cs, rfl, .last (by omega)⟩
        | 1 => exact ⟨['}'], cs, rfl, .last (by omega)⟩
        | d + 2 =>
          rw [stepShell_close] at h
          obtain ⟨k, ys, rfl, hk⟩ := ih _ (d + 1) rfl h
          exact ⟨'}' :: k, ys, rfl, .close hk⟩
      rw [stepShell_other s start d below c h1 h2] at h
      obtain ⟨k, ys, rfl, hk⟩ := ih (s.advance c) d hs h
      exact ⟨c :: k, ys, rfl, .char h1 h2 hk⟩

/-! ## Braces -/

/-- A character that stands for itself where code is read, with `next` behind it. -/
def IsPlain (c : Char) (next : Option Char) : Prop :=
  StartsNothing c next ∧ (isBlank c ∨ isAsciiControl c = false)

theorem isPlain_of_isBlank (c : Char) (next : Option Char) (h : isBlank c) : IsPlain c next := by
  refine ⟨?_, .inl h⟩
  rcases (isBlank_iff c).1 h with rfl | rfl | rfl | rfl <;> simp [StartsNothing]

theorem isPlain_of_isWordChar (c : Char) (next : Option Char) (h : isWordChar c) :
    IsPlain c next := by
  refine ⟨⟨?_, ?_, ?_, ?_⟩, .inr (isAsciiControl_eq_false_of_isWordChar c h)⟩
  · exact ne_of_isWordChar c _ h rfl
  · exact ne_of_isWordChar c _ h rfl
  · exact ne_of_isWordChar c _ h rfl
  · exact fun h2 => ne_of_isWordChar c '/' h rfl h2.1

/-- Text that closes so many open braces, the last of them with its last character.
Without an open brace, the first brace that opens has to be closed, and closing
braces before it close nothing. -/
inductive BracesTo : Nat → List Char → Prop
  | last : BracesTo 1 ['}']
  | close {d : Nat} {cs : List Char} : BracesTo (d + 1) cs → BracesTo (d + 2) ('}' :: cs)
  | stray {cs : List Char} : BracesTo 0 cs → BracesTo 0 ('}' :: cs)
  | brace {d : Nat} {cs : List Char} : BracesTo (d + 1) cs → BracesTo d ('{' :: cs)
  | skip {d : Nat} {k cs : List Char} : Skipped k → BracesTo d cs → BracesTo d (k ++ cs)
  | char {d : Nat} {c : Char} {cs : List Char} : IsPlain c cs.head? → BracesTo d cs →
      BracesTo d (c :: cs)

theorem BracesTo.ne_nil {d : Nat} {cs : List Char} (h : BracesTo d cs) : cs ≠ [] := by
  induction h with
  | skip _ _ ih => simp [ih]
  | _ => simp

/-- Where code is read below the top level, a plain character is passed. -/
theorem Reads.plain {s : Scan} {top : Frame} {below : List Frame} {c : Char} {rest : List Char}
    (hs : s.stack = top :: below) (ht : top.IsCode) (hw : ∀ rest, stepWord s top c rest = s.advance c)
    (htop : top.isTopLevel = false) (hc : IsPlain c rest.head?) :
    Reads s (c :: rest) (s.advance c) rest := by
  refine Reads.code hs ht ?_
  obtain ⟨hn, hx⟩ := hc
  cases hb : isBlank c with
  | true => exact .blank hb
  | false =>
    cases hwc : isWordChar c with
    | true =>
      cases hi : insideWord top.isTopLevel s.before with
      | true => exact .insideWord hwc hi
      | false => rw [← hw rest]; exact .word hwc hi
    | false =>
      have hx2 : isAsciiControl c = false := by simpa [hb] using hx
      have h : CodeStep s top below c rest _ := .other hb hwc hn hx2 (by simp [htop])
      rwa [htop] at h

/-- The state behind the last brace of a region. -/
def Scan.closeRegion (s : Scan) (kind : Kind) (start : Nat) (below : List Frame)
    (k : List Char) : Scan :=
  { s.after k with
    stack := below
    found := ⟨kind, start, s.offset + byteLength k⟩ :: s.found }

theorem Reads.region (kind : Kind) (start : Nat) (below : List Frame) {d : Nat} {k : List Char}
    (hk : BracesTo d k) (s : Scan) (hs : s.stack = .region kind start d (0 < d) :: below)
    (ys : List Char) : Reads s (k ++ ys) (s.closeRegion kind start below k) ys := by
  induction hk generalizing s with
  | last =>
    refine (Reads.code hs trivial .closeBrace).trans ?_
    exact .done _ _
  | @close d cs hk ih =>
    refine (Reads.code hs trivial .closeBrace).trans ?_
    have := ih (closeBrace (s.advance '}') (.region kind start (d + 2) (0 < d + 2)) below)
      (by simp [closeBrace])
    simpa [closeBrace, Scan.closeRegion, Scan.after, Scan.advance, Nat.add_assoc] using this
  | @stray cs hk ih =>
    refine (Reads.code hs trivial .closeBrace).trans ?_
    have := ih (closeBrace (s.advance '}') (.region kind start 0 (0 < 0)) below) (by simp [closeBrace])
    simpa [closeBrace, Scan.closeRegion, Scan.after, Scan.advance, Nat.add_assoc] using this
  | @brace d cs hk ih =>
    refine (Reads.code hs trivial .openBrace).trans ?_
    have := ih (openBrace (s.advance '{') (.region kind start d (0 < d)) below) (by simp [openBrace])
    simpa [openBrace, Frame.isTopLevel, Scan.closeRegion, Scan.after, Scan.advance, Nat.add_assoc]
      using this
  | @skip d k cs hk _ ih =>
    have h1 : Reads s (k ++ (cs ++ ys)) (s.after k) (cs ++ ys) := by
      cases hk with
      | comment hk => exact Reads.comment hs trivial hk _
      | quoted hk => exact Reads.quoted hs trivial hk _
    rw [List.append_assoc]
    refine h1.trans ?_
    have := ih (s.after k) hs
    simpa [Scan.closeRegion, Scan.after, Nat.add_assoc] using this
  | @char d c cs hc hk ih =>
    have hh : (cs ++ ys).head? = cs.head? := by
      obtain ⟨x, xs, rfl⟩ := List.exists_cons_of_ne_nil hk.ne_nil
      rfl
    rw [List.cons_append]
    refine (Reads.plain hs trivial (fun _ => rfl) rfl (by rw [hh]; exact hc)).trans ?_
    have := ih (s.advance c) hs
    simpa [Scan.closeRegion, Scan.after, Scan.advance, Nat.add_assoc] using this

/-- A plain character was read, so its successor is the one that was in sight. -/
theorem BracesTo.plain {d : Nat} {c : Char} {k ys : List Char} (hk : BracesTo d k)
    (hc : IsPlain c (k ++ ys).head?) : BracesTo d (c :: k) := by
  obtain ⟨x, xs, rfl⟩ := List.exists_cons_of_ne_nil hk.ne_nil
  exact .char hc hk

/-- A region that is closed in the end had text ahead that closes its braces. -/
theorem exists_bracesTo (kind : Kind) (start : Nat) (below : List Frame) (d : Nat) (s t : Scan)
    (xs : List Char) (hs : s.stack = .region kind start d (0 < d) :: below) (h : Reads s xs t [])
    (ht : Closed t.stack) : ∃ k ys, xs = k ++ ys ∧ BracesTo d k := by
  induction hn : xs.length using Nat.strongRecOn generalizing xs s d with
  | ind n ih =>
  subst hn
  -- what lies behind a piece, read in a region of the same start
  have next : ∀ (e : Nat) (u : Scan) (k ys : List Char), k ≠ [] → xs = k ++ ys → Reads s xs u ys →
      u.stack = .region kind start e (0 < e) :: below →
      ∃ k2 zs, ys = k2 ++ zs ∧ BracesTo e k2 := by
    intro e u k ys hk hxs hr hu
    refine ih ys.length ?_ e u ys hu (h.rest hr) rfl
    have := List.length_pos_iff.2 hk
    simp [hxs]; omega
  cases h with
  | done =>
    have := ht (.region kind start d (0 < d)) (by rw [hs]; exact List.mem_cons_self)
    cases this
  | @step _ u _ c rest _ hst hr =>
  have h1 : Reads s (c :: rest) u rest := .step hst (.done _ _)
  have plain : IsPlain c rest.head? → u = s.advance c →
      ∃ k ys, c :: rest = k ++ ys ∧ BracesTo d k := by
    intro hc hu
    obtain ⟨k, ys, rfl, hk⟩ := next d u [c] rest (by simp) rfl h1 (by rw [hu]; exact hs)
    exact ⟨c :: k, ys, rfl, hk.plain hc⟩
  have h2 : Reads s (c :: rest) t [] := .step hst hr
  cases (step_code_iff s u _ below c rest hs trivial).1 hst with
  | blank hb => exact plain (isPlain_of_isBlank c _ hb) rfl
  | insideWord hw _ => exact plain (isPlain_of_isWordChar c _ hw) rfl
  | word hw _ => exact plain (isPlain_of_isWordChar c _ hw) rfl
  | other _ _ hn hx _ => exact plain ⟨hn, .inr hx⟩ rfl
  | withArguments htop _ => cases htop
  | withoutArguments htop _ => cases htop
  | @lineComment rest =>
    rcases exists_comment s t _ below '/' rest hs trivial (.inl rfl) h2 ht with
      ⟨k, ys, hxs, hk⟩ | ⟨-, -, htst, -⟩
    · obtain ⟨k2, zs, rfl, hk2⟩ := next d (s.after k) k ys (by rintro rfl; cases hk) hxs
        (by rw [hxs]; exact Reads.comment hs trivial hk ys) hs
      exact ⟨k ++ k2, zs, by rw [hxs, List.append_assoc], .skip (.comment hk) hk2⟩
    · have := ht (.region kind start d (0 < d)) (by rw [htst, hs]; simp)
      cases this
  | @blockComment rest =>
    rcases exists_comment s t _ below '*' rest hs trivial (.inr rfl) h2 ht with
      ⟨k, ys, hxs, hk⟩ | ⟨hc, -⟩
    · obtain ⟨k2, zs, rfl, hk2⟩ := next d (s.after k) k ys (by rintro rfl; cases hk) hxs
        (by rw [hxs]; exact Reads.comment hs trivial hk ys) hs
      exact ⟨k ++ k2, zs, by rw [hxs, List.append_assoc], .skip (.comment hk) hk2⟩
    · cases hc
  | quote =>
    obtain ⟨k, ys, rfl, hk⟩ := exists_quoted s t _ below rest hs trivial h2 ht
    obtain ⟨k2, zs, rfl, hk2⟩ := next d (s.after ('"' :: k)) ('"' :: k) ys (by simp) rfl
      (Reads.quoted hs trivial hk ys) hs
    exact ⟨'"' :: k ++ k2, zs, by simp, .skip (.quoted hk) hk2⟩
  | openBrace =>
    obtain ⟨k, ys, rfl, hk⟩ := next (d + 1) _ ['{'] rest (by simp) rfl h1 (by simp [openBrace])
    exact ⟨'{' :: k, ys, rfl, .brace hk⟩
  | closeBrace =>
    match d with
    | 0 =>
      obtain ⟨k, ys, rfl, hk⟩ := next 0 _ ['}'] rest (by simp) rfl h1 (by simp [closeBrace])
      exact ⟨'}' :: k, ys, rfl, .stray hk⟩
    | 1 => exact ⟨['}'], rest, rfl, .last⟩
    | d + 2 =>
      obtain ⟨k, ys, rfl, hk⟩ := next (d + 1) _ ['}'] rest (by simp) rfl h1 (by simp [closeBrace])
      exact ⟨'}' :: k, ys, rfl, .close hk⟩

end ServiceLang.Region
