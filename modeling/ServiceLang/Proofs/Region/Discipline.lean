import ServiceLang.Proofs.Region.Opened
import ServiceLang.Proofs.Region.Quoted

/-!
The stacks that a scan can have.

Main text lies at the bottom.  On it lies at most one construct that is read in its own
way, and on top of both at most one string or comment (`Disciplined`).  `Turn` lists what
a step may do to the stack, with the frames that it may open (`Enters`), and every turn
keeps the discipline (`Turn.disciplined`).  So it holds wherever a scan comes
(`Reads.disciplined`): no step finds the stack empty, no brace is counted below zero, and
no counter goes beyond the bytes read (`Reads.depth_le`).
-/

namespace ServiceLang.Region

/-! ## Disciplined stacks -/

/-- The frames in which a quote begins a string literal: code, and the arguments of an
annotation. -/
def Frame.HoldsStrings : Frame → Prop
  | .main _ | .region _ _ _ _ | .annotationArgs _ => True
  | _ => False

/-- The number of braces that a frame counts as open. -/
def Frame.depth : Frame → Nat
  | .main depth | .shell _ depth _ | .region _ _ depth _ => depth
  | _ => 0

/-- The stacks with no string or comment on top.  Annotations and declarations lie on main
text outside all braces.  A shell block has its own brace open throughout, a declaration
from its first brace on. -/
inductive Uncovered : List Frame → Prop
  | main (depth : Nat) : Uncovered [.main depth]
  | annotationArgs (start : Nat) : Uncovered [.annotationArgs start, .main 0]
  | shell {depth : Nat} (start : Nat) (entered : Bool) (outer : Nat) : 1 ≤ depth →
      Uncovered [.shell start depth entered, .main outer]
  | unopened (kind : Kind) (start : Nat) : Uncovered [.region kind start 0 false, .main 0]
  | opened {depth : Nat} (kind : Kind) (start : Nat) : 1 ≤ depth →
      Uncovered [.region kind start depth true, .main 0]

/-- The stacks that a scan can have.  A string lies on code or on the arguments of an
annotation, a comment on code alone. -/
inductive Disciplined : List Frame → Prop
  | uncovered {fs : List Frame} : Uncovered fs → Disciplined fs
  | quoted {top : Frame} {below : List Frame} (start : Nat) (escaped : Bool) : top.HoldsStrings →
      Uncovered (top :: below) → Disciplined (.quoted start escaped :: top :: below)
  | lineComment {top : Frame} {below : List Frame} (start : Nat) : top.IsCode →
      Uncovered (top :: below) → Disciplined (.lineComment start :: top :: below)
  | blockComment {top : Frame} {below : List Frame} (start : Nat) : top.IsCode →
      Uncovered (top :: below) → Disciplined (.blockComment start :: top :: below)

theorem Frame.holdsStrings_of_isCode {f : Frame} (h : f.IsCode) : f.HoldsStrings := by
  cases f <;> trivial

theorem Disciplined.ne_nil {fs : List Frame} (h : Disciplined fs) : fs ≠ [] := by
  rintro rfl
  cases h with
  | uncovered h => cases h

/-- Under a frame that holds strings lies no string or comment. -/
theorem Disciplined.uncovered_of_holdsStrings {top : Frame} {below : List Frame}
    (h : Disciplined (top :: below)) (ht : top.HoldsStrings) : Uncovered (top :: below) := by
  cases h with
  | uncovered h => exact h
  | quoted | lineComment | blockComment => cases ht

/-- Where main text is on top, it is all there is. -/
theorem Disciplined.eq_main {d : Nat} {below : List Frame} (h : Disciplined (.main d :: below)) :
    below = [] := by
  cases h.uncovered_of_holdsStrings trivial
  rfl

/-- What is left without the innermost frame is a stack, unless that frame is main text. -/
theorem Disciplined.below {top : Frame} {below : List Frame} (h : Disciplined (top :: below))
    (ht : ∀ d, top ≠ .main d) : Disciplined below := by
  cases h with
  | uncovered h =>
    cases h with
    | main d => exact absurd rfl (ht d)
    | annotationArgs | shell | unopened | opened => exact .uncovered (.main _)
  | quoted _ _ _ h => exact .uncovered h
  | lineComment _ _ h => exact .uncovered h
  | blockComment _ _ h => exact .uncovered h

/-! ## Turns -/

/-- The frames that a step opens, and the frames on which it opens them. -/
inductive Enters (s : Scan) (c : Char) (rest : List Char) : Frame → Frame → Prop
  | quoted {top : Frame} : top.HoldsStrings → c = '"' → Enters s c rest top (.quoted s.offset false)
  | lineComment {top : Frame} : top.IsCode → c = '/' → rest.head? = some '/' →
      Enters s c rest top (.lineComment s.offset)
  | blockComment {top : Frame} : top.IsCode → c = '/' → rest.head? = some '*' →
      Enters s c rest top (.blockComment s.offset)
  | annotationArgs {gap : Nat} : c = '@' → argumentsAhead? rest = some gap →
      Enters s c rest (.main 0) (.annotationArgs (s.offset + c.utf8Size + gap))
  | shell {d : Nat} : execAt (c :: rest) → Enters s c rest (.main d) (.shell s.offset 1 false)
  | region {kind : Kind} : OpensRegion s c rest kind →
      Enters s c rest (.main 0) (.region kind (Scanned.regionStart s kind) 0 false)

/-- What a step may do to the stack: nothing, open a frame, change or leave the innermost
one.  A brace that leaves a declaration open was not its last. -/
inductive Turn (s : Scan) (c : Char) (rest : List Char) : List Frame → Prop
  | stay : Turn s c rest s.stack
  | enter {top f : Frame} {below : List Frame} : s.stack = top :: below → Enters s c rest top f →
      Turn s c rest (f :: s.stack)
  | main {d d' : Nat} {below : List Frame} : s.stack = .main d :: below → d' ≤ d + 1 →
      Turn s c rest (.main d' :: below)
  | openRegion {kind : Kind} {start d : Nat} {opened : Bool} {below : List Frame} :
      s.stack = .region kind start d opened :: below →
      Turn s c rest (.region kind start (d + 1) true :: below)
  | closeInRegion {kind : Kind} {start d : Nat} {opened : Bool} {below : List Frame} :
      s.stack = .region kind start d opened :: below → (opened = true → d ≠ 1) →
      Turn s c rest (.region kind start (d - 1) opened :: below)
  | shell {start d d' : Nat} {e e' : Bool} {below : List Frame} :
      s.stack = .shell start d e :: below → (1 ≤ d → 1 ≤ d') → d' ≤ d + 1 →
      Turn s c rest (.shell start d' e' :: below)
  | quoted {start : Nat} {e e' : Bool} {below : List Frame} : s.stack = .quoted start e :: below →
      Turn s c rest (.quoted start e' :: below)
  | leave {top : Frame} {below : List Frame} : s.stack = top :: below → (∀ d, top ≠ .main d) →
      Turn s c rest below

/-- A step at a word of main text. -/
theorem turn_of_word {s : Scan} {d : Nat} {below : List Frame} {c : Char} {rest : List Char}
    (hs : s.stack = .main d :: below) (hc : isWordChar c)
    (hi : insideWord (Frame.main d).isTopLevel s.before = false) :
    Turn s c rest (stepWord s (.main d) c rest).stack := by
  rw [stepWord_main]
  split
  · next hx => exact .enter hs (.shell hx)
  next hx =>
  split
  · exact .stay
  next hd =>
  obtain rfl : d = 0 := by omega
  have hx : execAt (c :: rest) = false := by simpa using hx
  split
  · exact .stay
  · next hk =>
    have opens : OpensRegion s c rest .endpoint := ⟨hc, hi, hk, hx⟩
    exact .enter hs (.region opens)
  · next hk =>
    have opens : OpensRegion s c rest .flow := ⟨hc, hi, hk, hx⟩
    exact .enter hs (.region opens)

theorem turn_of_codeStep {s t : Scan} {top : Frame} {below : List Frame} {c : Char} {rest : List Char}
    (hs : s.stack = top :: below) (ht : top.IsCode) (h : CodeStep s top below c rest t) :
    Turn s c rest t.stack := by
  cases h with
  | blank => exact .stay
  | lineComment => exact .enter hs (.lineComment ht rfl rfl)
  | blockComment => exact .enter hs (.blockComment ht rfl rfl)
  | quote =>
    have h : Turn s '"' rest (.quoted s.offset false :: s.stack) :=
      .enter hs (.quoted (Frame.holdsStrings_of_isCode ht) rfl)
    simpa [Scan.push] using h
  | openBrace =>
    cases top with
    | main d => exact .main hs (Nat.le_refl _)
    | region => exact .openRegion hs
    | _ => cases ht
  | closeBrace =>
    cases top with
    | main d => exact .main hs (by omega)
    | region kind start d opened =>
      unfold closeBrace
      dsimp only
      split
      · exact .leave hs fun _ => by simp
      · next hlast =>
        refine .closeInRegion hs ?_
        rintro rfl rfl
        exact hlast rfl
    | _ => cases ht
  | withArguments htop ha =>
    obtain rfl := eq_main_of_isTopLevel htop
    exact .enter hs (.annotationArgs rfl ha)
  | withoutArguments => exact .stay
  | insideWord => exact .stay
  | other => simpa using Turn.stay
  | word hc hi =>
    cases top with
    | main d => exact turn_of_word hs hc hi
    | region => exact .stay
    | _ => cases ht

theorem turn_of_step {s t : Scan} {c : Char} {rest : List Char} (h : step s c rest = .ok t) :
    Turn s c rest t.stack := by
  rcases step_cases h with ⟨top, below, hs, ht, hcode⟩ | ⟨fs, hframe, rfl⟩
  · exact turn_of_codeStep hs ht hcode
  cases hframe with
  | stay => exact .stay
  | quote hs hc => exact .enter hs (.quoted trivial hc)
  | quoted hs => exact .quoted hs
  | shell hs hd hd' => exact .shell hs hd hd'
  | leave hs ht =>
    refine .leave hs ?_
    rintro d rfl
    exact ht trivial

/-! ## What every turn keeps -/

theorem Enters.disciplined {s : Scan} {c : Char} {rest : List Char} {top f : Frame}
    {below : List Frame} (h : Enters s c rest top f) (hs : Disciplined (top :: below)) :
    Disciplined (f :: top :: below) := by
  cases h with
  | quoted ht => exact .quoted _ _ ht (hs.uncovered_of_holdsStrings ht)
  | lineComment ht =>
    exact .lineComment _ ht (hs.uncovered_of_holdsStrings (Frame.holdsStrings_of_isCode ht))
  | blockComment ht =>
    exact .blockComment _ ht (hs.uncovered_of_holdsStrings (Frame.holdsStrings_of_isCode ht))
  | annotationArgs =>
    obtain rfl := hs.eq_main
    exact .uncovered (.annotationArgs _)
  | shell =>
    obtain rfl := hs.eq_main
    exact .uncovered (.shell _ _ _ (Nat.le_refl 1))
  | region =>
    obtain rfl := hs.eq_main
    exact .uncovered (.unopened _ _)

theorem Turn.disciplined {s : Scan} {c : Char} {rest : List Char} {fs : List Frame}
    (h : Turn s c rest fs) (hs : Disciplined s.stack) : Disciplined fs := by
  cases h with
  | stay => exact hs
  | enter hst he =>
    rw [hst] at hs ⊢
    exact he.disciplined hs
  | main hst =>
    obtain rfl := (hst ▸ hs).eq_main
    exact .uncovered (.main _)
  | openRegion hst =>
    cases (hst ▸ hs).uncovered_of_holdsStrings trivial with
    | unopened | opened => exact .uncovered (.opened _ _ (Nat.le_add_left 1 _))
  | closeInRegion hst hlast =>
    cases (hst ▸ hs).uncovered_of_holdsStrings trivial with
    | unopened => exact .uncovered (.unopened _ _)
    | opened _ _ hd =>
      have := hlast rfl
      exact .uncovered (.opened _ _ (by omega))
  | shell hst hd =>
    rw [hst] at hs
    cases hs with
    | uncovered hs =>
      cases hs with
      | shell _ _ _ h => exact .uncovered (.shell _ _ _ (hd h))
  | quoted hst =>
    rw [hst] at hs
    cases hs with
    | uncovered hs => cases hs
    | quoted _ _ ht hs => exact .quoted _ _ ht hs
  | leave hst ht => exact (hst ▸ hs).below ht

/-- A counter goes up by one at most. -/
theorem Turn.depth_le {s : Scan} {c : Char} {rest : List Char} {fs : List Frame} {n : Nat}
    (h : Turn s c rest fs) (hs : ∀ f ∈ s.stack, f.depth ≤ n) : ∀ f ∈ fs, f.depth ≤ n + 1 := by
  have kept {below : List Frame} (hb : ∀ f ∈ below, f ∈ s.stack) : ∀ f ∈ below, f.depth ≤ n + 1 :=
    fun f hf => Nat.le_succ_of_le (hs f (hb f hf))
  have changed {top f : Frame} {below : List Frame} (hst : s.stack = top :: below)
      (hf : f.depth ≤ top.depth + 1) : ∀ g ∈ f :: below, g.depth ≤ n + 1 := by
    rw [List.forall_mem_cons]
    refine ⟨?_, kept fun g hg => hst ▸ List.mem_cons_of_mem top hg⟩
    exact Nat.le_trans hf (Nat.succ_le_succ (hs top (hst ▸ List.mem_cons_self)))
  cases h with
  | stay => exact kept fun f hf => hf
  | enter _ he =>
    rw [List.forall_mem_cons]
    refine ⟨?_, kept fun f hf => hf⟩
    cases he <;> simp [Frame.depth]
  | main hst hd => exact changed hst hd
  | openRegion hst => exact changed hst (Nat.le_refl _)
  | closeInRegion hst => exact changed hst (by simp only [Frame.depth]; omega)
  | shell hst _ hd => exact changed hst hd
  | quoted hst => exact changed hst (Nat.zero_le _)
  | @leave top _ hst => exact kept fun f hf => hst ▸ List.mem_cons_of_mem top hf

/-! ## Wherever a scan comes -/

/-- What holds at the start of a scan and is kept by its steps holds wherever it comes. -/
theorem Reads.invariant {text ys : List Char} {t : Scan} {P : Scan → List Char → Prop}
    (h : Reads .start text t ys) (start : P .start text)
    (step : ∀ s c rest u, Reads .start text s (c :: rest) → P s (c :: rest) →
      Region.step s c rest = .ok u → P u rest) : P t ys := by
  have keep {s u : Scan} {xs zs : List Char} (hs : Reads .start text s xs) (hp : P s xs)
      (h : Reads s xs u zs) : P u zs := by
    induction h with
    | done => exact hp
    | step hst _ ih => exact ih (hs.trans (.step hst (.done _ _))) (step _ _ _ _ hs hp hst)
  exact keep (.done _ _) start h

theorem Reads.disciplined {text ys : List Char} {t : Scan} (h : Reads .start text t ys) :
    Disciplined t.stack :=
  h.invariant (P := fun s _ => Disciplined s.stack) (.uncovered (.main 0))
    fun _ _ _ _ _ hs hst => (turn_of_step hst).disciplined hs

/-- No more braces are counted than bytes have been read. -/
theorem Reads.depth_le {text ys : List Char} {t : Scan} (h : Reads .start text t ys) :
    ∀ f ∈ t.stack, f.depth ≤ t.offset := by
  refine h.invariant (P := fun s _ => ∀ f ∈ s.stack, f.depth ≤ s.offset) ?_ ?_
  · intro f hf
    rw [List.mem_singleton.1 hf]
    rfl
  · intro s c rest u _ hs hst f hf
    have := (turn_of_step hst).depth_le hs f hf
    have := (advances_of_step hst).offset_eq
    have := c.utf8Size_pos
    omega

end ServiceLang.Region
