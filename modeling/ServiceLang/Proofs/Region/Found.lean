import ServiceLang.Proofs.Region.Declaration
import ServiceLang.Proofs.Region.Word

/-!
What a scan can still find.

A step reads one character, opens at most one frame or changes or leaves the
innermost one (`StackStep`), and finds at most the region that it closes
(`Advances`).  So once the scanner has passed an offset with nothing of it open or
pending, every region that it finds later starts behind that offset
(`StartsFrom`), and what it had found before stays as it is.  Main text lies under
all other frames (`Reads.stack_main`), and every shell block was opened by the word
where it starts (`opensShell_iff`).
-/

namespace ServiceLang.Region

/-- Main text lies under all other frames. -/
def Scan.Grounded (s : Scan) : Prop := ∀ d below, .main d :: below <:+ s.stack → below = []

/-- What stays of a frame as long as it is open. -/
def Frame.origin : Frame → Frame
  | .main _ => .main 0
  | .quoted start _ => .quoted start false
  | .shell start _ _ => .shell start 1 false
  | .region kind start _ _ => .region kind start 0 false
  | f => f

/-- A comment begins ahead of a scanner that reads code. -/
def CommentAhead (s : Scan) (c : Char) (rest : List Char) : Prop :=
  (∃ top below, s.stack = top :: below ∧ top.IsCode) ∧
    c = '/' ∧ (rest.head? = some '/' ∨ rest.head? = some '*')

/-- The frames that a step may open. -/
inductive Opens (s : Scan) (c : Char) (rest : List Char) : Frame → Prop
  | lineComment : CommentAhead s c rest → Opens s c rest (.lineComment s.offset)
  | blockComment : CommentAhead s c rest → Opens s c rest (.blockComment s.offset)
  | quoted : Opens s c rest (.quoted s.offset false)
  | annotationArgs {start : Nat} : Opens s c rest (.annotationArgs start)
  | shell : OpensExec s (c :: rest) → Opens s c rest (.shell s.offset 1 false)
  | region {kind : Kind} {start : Nat} : start = s.offset ∨ s.pending = some start →
      Opens s c rest (.region kind start 0 false)

/-- What a step may do to the stack. -/
inductive StackStep (s : Scan) (c : Char) (rest : List Char) : List Frame → Prop
  | stay : StackStep s c rest s.stack
  | push {f : Frame} : Opens s c rest f → StackStep s c rest (f :: s.stack)
  | change {top f : Frame} {below : List Frame} : s.stack = top :: below → f.origin = top.origin →
      StackStep s c rest (f :: below)
  | leave {top : Frame} {below : List Frame} : s.stack = top :: below → StackStep s c rest below

namespace StackStep

variable {s : Scan} {c : Char} {rest : List Char} {fs : List Frame}

/-- A frame that is open behind a step was open before, or it opens here. -/
theorem of_mem (h : StackStep s c rest fs) {f : Frame} (hf : f ∈ fs) :
    (∃ g ∈ s.stack, g.origin = f.origin) ∨ Opens s c rest f := by
  cases h with
  | stay => exact .inl ⟨f, hf, rfl⟩
  | push ho =>
    rcases List.mem_cons.1 hf with rfl | hf
    · exact .inr ho
    · exact .inl ⟨f, hf, rfl⟩
  | @change top _ below hs ho =>
    left
    rw [hs]
    rcases List.mem_cons.1 hf with rfl | hf
    · exact ⟨top, List.mem_cons_self, ho.symm⟩
    · exact ⟨f, List.mem_cons_of_mem top hf, rfl⟩
  | @leave top below hs =>
    left
    rw [hs]
    exact ⟨f, List.mem_cons_of_mem top hf, rfl⟩

theorem region_of_mem (h : StackStep s c rest fs) {kind : Kind} {start d : Nat} {b : Bool}
    (hf : .region kind start d b ∈ fs) :
    (∃ d' b', .region kind start d' b' ∈ s.stack) ∨ start = s.offset ∨ s.pending = some start := by
  rcases h.of_mem hf with ⟨g, hg, hgf⟩ | ho
  · left
    cases g with
    | region => cases hgf; exact ⟨_, _, hg⟩
    | _ => cases hgf
  · cases ho with
    | region ho => exact .inr ho

theorem grounded (h : StackStep s c rest fs) (hs : s.Grounded) (t : Scan) (ht : t.stack = fs) :
    t.Grounded := by
  intro d below hb
  rw [ht] at hb
  cases h with
  | stay => exact hs d below hb
  | push ho =>
    rcases List.suffix_cons_iff.1 hb with heq | hb
    · cases heq
      cases ho
    · exact hs d below hb
  | @change top f rest hst ho =>
    rcases List.suffix_cons_iff.1 hb with heq | hb
    · -- main text stays where it is
      cases heq
      cases top with
      | main e => exact hs e below (hst ▸ List.suffix_rfl)
      | _ => cases ho
    · refine hs d below ?_
      rw [hst]
      exact hb.trans (List.suffix_cons top rest)
  | @leave top rest hst =>
    refine hs d below ?_
    rw [hst]
    exact hb.trans (List.suffix_cons top fs)

end StackStep

/-- What every step does. -/
structure Advances (s : Scan) (c : Char) (rest : List Char) (t : Scan) : Prop where
  before_eq : t.before = c :: s.before
  offset_eq : t.offset = s.offset + c.utf8Size
  pending_of : ∀ p, t.pending = some p → s.pending = some p ∨ p = s.offset
  stack_of : StackStep s c rest t.stack
  found_of : t.found = s.found ∨ ∃ kind start d b, .region kind start d b ∈ s.stack ∧
    t.found = ⟨kind, start, t.offset⟩ :: s.found

/-- Pending annotations start where some have been pending, or here. -/
theorem pending_getD (s : Scan) (p : Nat) (h : s.pending.getD s.offset = p) :
    s.pending = some p ∨ p = s.offset := by
  cases hs : s.pending with
  | none => rw [hs] at h; exact .inr h.symm
  | some q => rw [hs] at h; left; rw [← h]; rfl

/-- A step that finds nothing, and drops at most the pending annotations. -/
theorem advances_of_stack {s : Scan} {c : Char} {rest : List Char} (b : Bool) {fs : List Frame} {t : Scan}
    (ht : t = { (s.advance c).dropPendingIf b with stack := fs }) (h : StackStep s c rest fs) :
    Advances s c rest t := by
  subst ht
  refine ⟨by simp, by simp, ?_, h, .inl (by simp)⟩
  intro p hp
  cases b with
  | true => cases hp
  | false => exact .inl hp

/-- A step at a word of main text. -/
theorem advances_of_word {s : Scan} {d : Nat} {below : List Frame} {c : Char} {rest : List Char}
    (hs : s.stack = .main d :: below) (hc : isWordChar c)
    (hi : insideWord (Frame.main d).isTopLevel s.before = false) :
    Advances s c rest (stepWord s (.main d) c rest) := by
  rw [stepWord_main]
  split
  · next hx => exact advances_of_stack true rfl (.push (.shell ((opensExec_iff hs c rest).2 ⟨hc, hi, hx⟩)))
  split
  · exact advances_of_stack false rfl .stay
  split
  · exact advances_of_stack true rfl .stay
  · exact advances_of_stack true rfl (.push (.region (pending_getD s _ rfl).symm))
  · exact advances_of_stack true rfl (.push (.region (.inl rfl)))

theorem advances_of_codeStep (s : Scan) (top : Frame) (below : List Frame) (c : Char)
    (rest : List Char) (t : Scan) (hs : s.stack = top :: below) (ht : top.IsCode)
    (h : CodeStep s top below c rest t) : Advances s c rest t := by
  cases h with
  | blank => exact advances_of_stack false rfl .stay
  | lineComment =>
    exact advances_of_stack false rfl (.push (.lineComment ⟨⟨top, below, hs, ht⟩, rfl, .inl rfl⟩))
  | blockComment =>
    exact advances_of_stack false rfl (.push (.blockComment ⟨⟨top, below, hs, ht⟩, rfl, .inr rfl⟩))
  | quote =>
    cases hb : top.isTopLevel with
    | true => exact advances_of_stack true rfl (.push .quoted)
    | false => exact advances_of_stack false rfl (.push .quoted)
  | openBrace =>
    cases top with
    | main d => exact advances_of_stack (Frame.main d).isTopLevel rfl (.change hs rfl)
    | region => exact advances_of_stack false rfl (.change hs rfl)
    | _ => cases ht
  | closeBrace =>
    cases top with
    | main d => exact advances_of_stack false rfl (.change hs rfl)
    | region kind start d b =>
      unfold closeBrace
      dsimp only
      split
      · refine ⟨rfl, rfl, fun p hp => .inl hp, .leave hs, .inr ⟨kind, start, d, b, ?_, rfl⟩⟩
        rw [hs]
        exact List.mem_cons_self
      · exact advances_of_stack false rfl (.change hs rfl)
    | _ => cases ht
  | withArguments =>
    refine ⟨rfl, rfl, ?_, .push .annotationArgs, .inl rfl⟩
    exact fun p hp => pending_getD s p (Option.some.inj hp)
  | withoutArguments =>
    refine ⟨rfl, rfl, ?_, .stay, .inl rfl⟩
    exact fun p hp => pending_getD s p (Option.some.inj hp)
  | insideWord => exact advances_of_stack false rfl .stay
  | other =>
    cases hb : top.isTopLevel with
    | true => exact advances_of_stack true rfl .stay
    | false => exact advances_of_stack false rfl .stay
  | word hc hi =>
    cases top with
    | main d => exact advances_of_word hs hc hi
    | region => exact advances_of_stack false rfl .stay
    | _ => cases ht

theorem advances_of_step {s t : Scan} {c : Char} {rest : List Char} (h : step s c rest = .ok t) :
    Advances s c rest t := by
  rcases step_cases h with ⟨top, below, hs, ht, hcode⟩ | ⟨fs, hframe, ht⟩
  · exact advances_of_codeStep s top below c rest t hs ht hcode
  refine advances_of_stack false ht ?_
  cases hframe with
  | stay => exact .stay
  | quote => exact .push .quoted
  | quoted hs => exact .change hs rfl
  | shell hs => exact .change hs rfl
  | leave hs => exact .leave hs

/-- What a reading has passed, from both ends. -/
theorem Reads.exists_read {s t : Scan} {xs ys : List Char} (h : Reads s xs t ys) :
    ∃ k, xs = k ++ ys ∧ t.before = k.reverse ++ s.before ∧ t.offset = s.offset + byteLength k := by
  induction h with
  | done => exact ⟨[], rfl, rfl, rfl⟩
  | @step s u t c xs ys hst _ ih =>
    obtain ⟨k, rfl, hb, ho⟩ := ih
    have hadv := advances_of_step hst
    refine ⟨c :: k, rfl, ?_, ?_⟩
    · rw [hb, hadv.before_eq]
      simp
    · rw [ho, hadv.offset_eq, byteLength_cons, Nat.add_assoc]

theorem Reads.before_start {text ys : List Char} {t : Scan} (h : Reads .start text t ys) :
    text = t.before.reverse ++ ys ∧ t.offset = byteLength t.before.reverse := by
  obtain ⟨k, hk, hb, ho⟩ := h.exists_read
  have hb : t.before.reverse = k := by rw [hb]; simp [Scan.start]
  rw [hb]
  exact ⟨hk, by simpa [Scan.start] using ho⟩

theorem Reads.grounded {s t : Scan} {xs ys : List Char} (h : Reads s xs t ys) (hs : s.Grounded) :
    t.Grounded := by
  induction h with
  | done => exact hs
  | @step _ u _ _ _ _ hst _ ih => exact ih ((advances_of_step hst).stack_of.grounded hs u rfl)

theorem grounded_start : Scan.start.Grounded := by
  intro d below hs
  rcases List.suffix_cons_iff.1 hs with heq | hs
  · cases heq; rfl
  · cases List.suffix_nil.1 hs

/-- Where main text is read, nothing else is open. -/
theorem Reads.stack_main {text ys : List Char} {t : Scan} {d : Nat} (h : Reads .start text t ys)
    (ht : t.stack.head? = some (.main d)) : t.stack = [.main d] := by
  obtain ⟨below, hb⟩ := List.head?_eq_some_iff.1 ht
  have := h.grounded grounded_start d below (hb ▸ List.suffix_rfl)
  rw [hb, this]

theorem Reads.stack_of_mainDepth? {text ys : List Char} {t : Scan} {d : Nat}
    (h : Reads .start text t ys) (ht : t.mainDepth? = some d) : t.stack = [.main d] :=
  h.stack_main ((mainDepth?_eq_some_iff t d).1 ht)

/-- Whatever annotations wait, they have been read. -/
theorem Reads.pending_le {s t : Scan} {xs ys : List Char} (h : Reads s xs t ys)
    (hs : ∀ p, s.pending = some p → p ≤ s.offset) : ∀ p, t.pending = some p → p ≤ t.offset := by
  induction h with
  | done => exact hs
  | @step s u t c xs ys hst _ ih =>
    have hadv := advances_of_step hst
    refine ih ?_
    intro p hp
    have ho := hadv.offset_eq
    rcases hadv.pending_of p hp with h | h
    · have := hs p h
      omega
    · omega

/-- The scanner has passed `o`, with nothing of it open or pending, and `base` found. -/
structure StartsFrom (o : Nat) (base : List Region) (s : Scan) : Prop where
  offset_le : o ≤ s.offset
  pending_le : ∀ p, s.pending = some p → o ≤ p
  frame_le : ∀ kind start d b, .region kind start d b ∈ s.stack → o ≤ start
  found_eq : ∃ more, s.found = more ++ base ∧ ∀ r ∈ more, o ≤ r.start

theorem StartsFrom.step {o : Nat} {base : List Region} {s t : Scan} {c : Char} {rest : List Char}
    (h : StartsFrom o base s) (hs : Region.step s c rest = .ok t) : StartsFrom o base t := by
  have hadv := advances_of_step hs
  have ho := h.offset_le
  have hsize := hadv.offset_eq
  obtain ⟨more, hm, hall⟩ := h.found_eq
  refine ⟨by omega, ?_, ?_, ?_⟩
  · intro p hp
    rcases hadv.pending_of p hp with h2 | h2
    · exact h.pending_le p h2
    · omega
  · intro kind start d b hf
    rcases hadv.stack_of.region_of_mem hf with ⟨d2, b2, h2⟩ | h2 | h2
    · exact h.frame_le kind start d2 b2 h2
    · omega
    · exact h.pending_le start h2
  · rcases hadv.found_of with h2 | ⟨kind, start, d, b, hf, h2⟩
    · exact ⟨more, by rw [h2, hm], hall⟩
    · refine ⟨⟨kind, start, t.offset⟩ :: more, by rw [h2, hm]; rfl, ?_⟩
      intro r hr
      rcases List.mem_cons.1 hr with rfl | hr
      · exact h.frame_le kind start d b hf
      · exact hall r hr

/-- From there on, only regions behind `o` are found. -/
theorem StartsFrom.reads {o : Nat} {base : List Region} {s t : Scan} {xs ys : List Char}
    (h : StartsFrom o base s) (hr : Reads s xs t ys) : StartsFrom o base t := by
  induction hr with
  | done => exact h
  | step hs _ ih => exact ih (h.step hs)

theorem Reads.exists_found {s t : Scan} {xs ys : List Char} (h : Reads s xs t ys) :
    ∃ more, t.found = more ++ s.found := by
  have hs : StartsFrom 0 s.found s :=
    ⟨Nat.zero_le _, fun _ _ => Nat.zero_le _, fun _ _ _ _ _ => Nat.zero_le _, [], rfl, nofun⟩
  obtain ⟨more, hm, -⟩ := (hs.reads h).found_eq
  exact ⟨more, hm⟩

/-! ## Declarations that open -/

/-- Behind a declaration that opens, its region is found before all others. -/
theorem exists_found_of_region {s t : Scan} {xs : List Char} {kind : Kind} {start : Nat}
    {below : List Frame} (hs : s.stack = .region kind start 0 false :: below) (h : Reads s xs t [])
    (ht : Closed t.stack) : ∃ more stop, t.found = more ++ ⟨kind, start, stop⟩ :: s.found := by
  obtain ⟨k, ys, rfl, hk⟩ := exists_bracesTo kind start below 0 s t xs hs h ht
  obtain ⟨more, hm⟩ := (h.rest (Reads.region kind start below hk s hs ys)).exists_found
  exact ⟨more, _, hm⟩

/-- Behind a word that opens nothing, regions start behind the word. -/
theorem startsFrom_of_main {s : Scan} {c : Char} (hs : s.stack = [.main 0]) :
    StartsFrom (s.offset + 1) s.found ((s.advance c).dropPendingIf true) := by
  have := c.utf8Size_pos
  refine ⟨?_, ?_, ?_, [], by simp, by simp⟩
  · simp
    omega
  · simp
  · intro kind start d b hm
    have hm : Frame.region kind start d b ∈ s.stack := hm
    rw [hs] at hm
    cases List.mem_singleton.1 hm

/-- What a scanner at a word finds in the end: the region that the word opens, or
only regions behind it. -/
theorem found_of_headAt {s e : Scan} {c : Char} {rest : List Char} (hs : s.stack = [.main 0])
    (hc : isWordChar c) (hi : insideWord true s.before = false) (hx : execAt (c :: rest) = false)
    (he : Reads s (c :: rest) e []) (hcl : Closed e.stack) :
    (headAt s.before (c :: rest) = none ∧ StartsFrom (s.offset + 1) s.found e) ∨
      ∃ kind more stop, headAt s.before (c :: rest) = some kind ∧
        e.found = more ++ ⟨kind, Scanned.regionStart s kind, stop⟩ :: s.found := by
  have h1 : Reads s (c :: rest) (stepWord s (.main 0) c rest) rest :=
    Reads.code hs trivial (.word hc hi)
  rw [stepWord_main, hx, if_neg (by simp), if_neg (by simp)] at h1
  cases hk : headAt s.before (c :: rest) with
  | none =>
    rw [hk] at h1
    exact .inl ⟨rfl, (startsFrom_of_main hs).reads (he.rest h1)⟩
  | some kind =>
    right
    rw [hk] at h1
    have opened : ∀ u : Scan, u.stack = .region kind (Scanned.regionStart s kind) 0 false :: s.stack →
        u.found = s.found → Reads s (c :: rest) u rest → ∃ kind' more stop,
          some kind = some kind' ∧
          e.found = more ++ ⟨kind', Scanned.regionStart s kind', stop⟩ :: s.found := by
      intro u hu huf hr
      obtain ⟨more, stop, hm⟩ := exists_found_of_region hu (he.rest hr) hcl
      exact ⟨kind, more, stop, rfl, by rw [hm, huf]⟩
    cases kind with
    | endpoint => refine opened _ ?_ ?_ h1 <;> rfl
    | flow => refine opened _ ?_ ?_ h1 <;> rfl

/-! ## Shell blocks that open -/

/-- Where the shell block of a frame starts. -/
def Frame.shellStart? : Frame → Option Nat
  | .shell start _ _ => some start
  | _ => none

theorem shellStart?_origin (f : Frame) : f.origin.shellStart? = f.shellStart? := by
  cases f <;> rfl

/-- The scanner comes to read the text of a shell block that starts at this offset. -/
def OpensShell (text : List Char) (offset : Nat) : Prop :=
  ∃ s ahead, Reads .start text s ahead ∧ ∃ f ∈ s.stack, f.shellStart? = some offset

/-- A shell block that is open behind a step was open before, or it opens here. -/
theorem shell_of_step {s t : Scan} {f : Frame} {c : Char} {rest : List Char} {offset : Nat}
    (h : step s c rest = .ok t) (hf : f ∈ t.stack) (ho : f.shellStart? = some offset) :
    (∃ g ∈ s.stack, g.shellStart? = some offset) ∨ s.offset = offset ∧ OpensExec s (c :: rest) := by
  rcases (advances_of_step h).stack_of.of_mem hf with ⟨g, hg, hgf⟩ | hopens
  · left
    refine ⟨g, hg, ?_⟩
    rw [← ho, ← shellStart?_origin, hgf, shellStart?_origin]
  · right
    cases hopens with
    | shell hx => cases ho; exact ⟨rfl, hx⟩
    | _ => cases ho

/-- Behind every shell block that is open or has been before lies the word that opened it. -/
theorem Reads.exists_opensExec {s t : Scan} {xs ys : List Char} {f : Frame} {offset : Nat}
    (h : Reads s xs t ys) (hs : ∀ g ∈ s.stack, g.shellStart? ≠ some offset) (hf : f ∈ t.stack)
    (ho : f.shellStart? = some offset) :
    ∃ u ahead, Reads s xs u ahead ∧ u.offset = offset ∧ OpensExec u ahead := by
  induction h with
  | done => exact absurd ho (hs f hf)
  | @step s u t c xs ys hst h ih =>
    by_cases hu : ∃ g ∈ u.stack, g.shellStart? = some offset
    · obtain ⟨g, hg, hgo⟩ := hu
      rcases shell_of_step hst hg hgo with ⟨g2, hg2, hgo2⟩ | ⟨heq, hx⟩
      · exact absurd hgo2 (hs g2 hg2)
      · exact ⟨s, c :: xs, .done _ _, heq, hx⟩
    · have hu2 : ∀ g ∈ u.stack, g.shellStart? ≠ some offset := fun g hg hgo => hu ⟨g, hg, hgo⟩
      obtain ⟨v, ahead, hr, heq, hx⟩ := ih hu2 hf
      exact ⟨v, ahead, .step hst hr, heq, hx⟩

/-- A word that opens an `exec` block is followed by the block. -/
theorem opensShell_of_opensExec {text ahead : List Char} {s : Scan} (h : Reads .start text s ahead)
    (hx : OpensExec s ahead) : OpensShell text s.offset := by
  obtain ⟨d, hd⟩ := Option.isSome_iff_exists.1 hx.1
  have hs := h.stack_of_mainDepth? hd
  cases ahead with
  | nil => cases hx.2.1.1
  | cons c rest =>
  obtain ⟨hw, hi, hx⟩ := (opensExec_iff hs c rest).1 hx
  have hstep : Reads s (c :: rest) _ rest := Reads.code hs trivial (.word hw hi)
  rw [stepWord_main, if_pos hx] at hstep
  exact ⟨_, rest, h.trans hstep, _, List.mem_cons_self, rfl⟩

/-- The shell blocks of a scan are those that words open. -/
theorem opensShell_iff (text : List Char) (offset : Nat) :
    OpensShell text offset ↔
      ∃ s ahead, Reads .start text s ahead ∧ s.offset = offset ∧ OpensExec s ahead := by
  constructor
  · rintro ⟨s, ahead, h, f, hf, ho⟩
    refine h.exists_opensExec ?_ hf ho
    intro g hg
    rw [List.mem_singleton.1 hg]
    nofun
  · rintro ⟨s, ahead, h, rfl, hx⟩
    exact opensShell_of_opensExec h hx

end ServiceLang.Region
