import ServiceLang.Proofs.Region.Discipline
import ServiceLang.Region.Cut

/-!
When a text cannot be cut, and where the fault is reported.

A scan stops early at a control character where code is read, and nowhere else
(`step_eq_error_iff`).  If it comes to the end, main text and line comments may be open;
of all other frames the innermost is reported, at its start.  That is the place of the
token that opens it (`Reads.openedOn`).  `cut_disciplined` puts this together with the
discipline of the stack.
-/

namespace ServiceLang.Region

/-! ## Opening tokens -/

/-- The text ahead begins with a token that opens the construct. -/
inductive Construct.Begins : Construct → List Char → Prop
  | annotationArguments {rest : List Char} : Begins .annotationArguments ('(' :: rest)
  | stringLiteral {rest : List Char} : Begins .stringLiteral ('"' :: rest)
  | blockComment {rest : List Char} : Begins .blockComment ('/' :: '*' :: rest)
  | execBlock {gap rest : List Char} : (∀ c ∈ gap, isBlank c) →
      Begins .execBlock ("exec".toList ++ gap ++ '{' :: rest)
  | declaration {kind : Kind} {word : String} {rest : List Char} : word ∈ kind.keywords →
      rest.head?.any isWordChar = false → Begins (.declaration kind) (word.toList ++ rest)
  | annotated {rest : List Char} : Begins (.declaration .endpoint) ('@' :: rest)

/-- The text has a token at this offset that opens the construct. -/
def Construct.OpensAt (text : List Char) (opening : Located Construct) : Prop :=
  ∃ b a, text = b ++ a ∧ byteLength b = opening.offset ∧ opening.cause.Begins a

/-- The frame was put on top of `below` by a step of the scan, and it starts at the token
that opens it. -/
structure OpenedOn (text : List Char) (f : Frame) (below : List Frame) : Prop where
  opensAt : ∀ opening, f.unterminated? = some opening → Construct.OpensAt text opening
  entered : ∃ s c rest t, Reads .start text s (c :: rest) ∧ s.stack = below ∧
    step s c rest = .ok t ∧ t.stack = f.origin :: below

theorem unterminated?_origin (f : Frame) : f.origin.unterminated? = f.unterminated? := by
  cases f <;> rfl

/-- Only the start of a frame matters, not how far it has been read. -/
theorem OpenedOn.of_origin {text : List Char} {f g : Frame} {below : List Frame}
    (h : OpenedOn text g below) (ho : f.origin = g.origin) : OpenedOn text f below where
  opensAt := by
    rw [← unterminated?_origin f, ho, unterminated?_origin]
    exact h.opensAt
  entered := by
    rw [ho]
    exact h.entered

/-- The parenthesis of an annotation's arguments stands where it is looked for. -/
theorem exists_parenthesis {rest : List Char} {gap : Nat} (h : argumentsAhead? rest = some gap) :
    ∃ lead more, rest = lead ++ '(' :: more ∧ byteLength lead = gap := by
  unfold argumentsAhead? at h
  dsimp only at h
  split at h
  · next hn =>
    cases h
    obtain ⟨more, hmore⟩ := List.head?_eq_some_iff.1 (of_decide_eq_true hn)
    refine ⟨rest.takeWhile isWordChar ++ (rest.dropWhile isWordChar).takeWhile isBlank, more, ?_,
      byteLength_append _ _⟩
    rw [List.append_assoc, ← hmore, skipBlanks, List.takeWhile_append_dropWhile,
      List.takeWhile_append_dropWhile]
  · cases h

/-- An `exec` and its brace lie ahead. -/
theorem begins_of_execAt {ahead : List Char} (h : execAt ahead) : Construct.execBlock.Begins ahead := by
  obtain ⟨hword, hbrace⟩ : String.ofList (ahead.takeWhile isWordChar) = "exec" ∧
      nextIs '{' (ahead.dropWhile isWordChar) := by simpa [execAt] using h
  obtain ⟨gap, rest, hrest, hgap⟩ := (nextIs_iff '{' _ rfl).1 hbrace
  have hahead : ahead = "exec".toList ++ gap ++ '{' :: rest := by
    rw [← hword, String.toList_ofList, List.append_assoc, ← hrest, List.takeWhile_append_dropWhile]
  rw [hahead]
  exact .execBlock hgap

/-- A keyword lies ahead. -/
theorem begins_of_headAt {before ahead : List Char} {kind : Kind} (h : headAt before ahead = some kind) :
    (Construct.declaration kind).Begins ahead := by
  have hahead : ahead = (String.ofList (ahead.takeWhile isWordChar)).toList ++ ahead.dropWhile isWordChar := by
    rw [String.toList_ofList, List.takeWhile_append_dropWhile]
  rw [hahead]
  refine .declaration (mem_keywords_of_declares? _ _ _ _ h) ?_
  have hend := List.head?_dropWhile_not isWordChar ahead
  cases hhead : (ahead.dropWhile isWordChar).head? with
  | none => rfl
  | some c =>
    rw [hhead] at hend
    exact hend

/-- The text has the mark of an annotation at this offset. -/
def MarkAt (text : List Char) (offset : Nat) : Prop :=
  ∃ b a, text = b ++ '@' :: a ∧ byteLength b = offset

/-- A frame that a step opens starts at its token. -/
theorem Enters.opensAt {text : List Char} {s : Scan} {c : Char} {rest : List Char} {top f : Frame}
    (h : Enters s c rest top f) (hs : Reads .start text s (c :: rest))
    (hp : ∀ p, s.pending = some p → MarkAt text p) (opening : Located Construct)
    (hf : f.unterminated? = some opening) : Construct.OpensAt text opening := by
  obtain ⟨htext, hoffset⟩ := hs.before_start
  have here {construct : Construct} (hb : construct.Begins (c :: rest)) :
      Construct.OpensAt text ⟨s.offset, construct⟩ := ⟨_, _, htext, hoffset.symm, hb⟩
  cases h with
  | quoted _ hc =>
    cases hf
    exact here (hc ▸ .stringLiteral)
  | lineComment => cases hf
  | blockComment _ hc hrest =>
    cases hf
    obtain ⟨rest, rfl⟩ := List.head?_eq_some_iff.1 hrest
    exact here (hc ▸ .blockComment)
  | annotationArgs _ ha =>
    cases hf
    obtain ⟨lead, more, rfl, rfl⟩ := exists_parenthesis ha
    refine ⟨s.before.reverse ++ c :: lead, '(' :: more, ?_, ?_, .annotationArguments⟩
    · rw [htext, List.append_assoc, List.cons_append]
    · rw [byteLength_append, byteLength_cons, ← hoffset, Nat.add_assoc]
  | shell hx =>
    cases hf
    exact here (begins_of_execAt hx)
  | @region kind ho =>
    cases hf
    have keyword := here (begins_of_headAt ho.headAt)
    cases kind with
    | flow => exact keyword
    | endpoint =>
      -- the region starts at the first of the annotations that wait, if any do
      unfold Scanned.regionStart
      cases hw : s.pending with
      | none => exact keyword
      | some p =>
        obtain ⟨b, a, hb, hlength⟩ := hp p hw
        exact ⟨b, '@' :: a, hb, hlength, .annotated⟩

theorem Enters.origin_eq {s : Scan} {c : Char} {rest : List Char} {top f : Frame}
    (h : Enters s c rest top f) : f.origin = f := by
  cases h <;> rfl

/-- Annotations that wait begin at a mark. -/
theorem Reads.markAt {text ys : List Char} {t : Scan} (h : Reads .start text t ys) :
    ∀ p, t.pending = some p → MarkAt text p := by
  refine h.invariant (P := fun s _ => ∀ p, s.pending = some p → MarkAt text p) nofun ?_
  intro s c rest u hs ih hst p hp
  cases regionStep_of_step (hs.grounded grounded_start) hst with
  | keep _ hkept =>
    rcases hkept with hkept | hkept
    · exact ih p (hkept ▸ hp)
    · rw [hkept] at hp
      cases hp
  | await hc _ _ hwait =>
    rw [hwait] at hp
    rcases pending_getD s p (Option.some.inj hp) with hw | rfl
    · exact ih p hw
    · obtain ⟨htext, hoffset⟩ := hs.before_start
      exact ⟨_, rest, hc ▸ htext, hoffset.symm⟩
  | declare _ _ hu =>
    rw [hu] at hp
    cases hp

/-- Every frame but main text has been opened by a step, at its token, on the frames below it. -/
theorem Reads.openedOn {text ys : List Char} {t : Scan} (h : Reads .start text t ys) :
    ∀ f below, f :: below <:+ t.stack → (∀ d, f ≠ .main d) → OpenedOn text f below := by
  refine h.invariant (P := fun s _ => ∀ f below, f :: below <:+ s.stack → (∀ d, f ≠ .main d) →
    OpenedOn text f below) ?_ ?_
  · intro f below hb hf
    rcases List.suffix_cons_iff.1 hb with heq | hb
    · cases heq
      exact absurd rfl (hf 0)
    · cases List.suffix_nil.1 hb
  intro s c rest u hs ih hst f below hb hf
  -- the frame on top is the one that was there, read further
  have changed {top g : Frame} {fs : List Frame} (hb : f :: below <:+ g :: fs)
      (hstack : s.stack = top :: fs) (ho : g.origin = top.origin) : OpenedOn text f below := by
    rcases List.suffix_cons_iff.1 hb with heq | hb
    · cases heq
      refine (ih top below (hstack ▸ List.suffix_rfl) ?_).of_origin ho
      rintro d rfl
      cases f with
      | main d => exact hf d rfl
      | _ => cases ho
    · exact ih f below (hstack ▸ hb.trans (List.suffix_cons top fs)) hf
  generalize hfs : u.stack = fs at hb
  cases hfs ▸ turn_of_step hst with
  | stay => exact ih f below hb hf
  | enter hstack he =>
    rcases List.suffix_cons_iff.1 hb with heq | hb
    · cases heq
      refine ⟨he.opensAt hs hs.markAt, s, c, rest, u, hs, rfl, hst, ?_⟩
      rw [he.origin_eq]
      exact hfs
    · exact ih f below hb hf
  | main hstack => exact changed hb hstack rfl
  | openRegion hstack => exact changed hb hstack rfl
  | closeInRegion hstack => exact changed hb hstack rfl
  | shell hstack => exact changed hb hstack rfl
  | quoted hstack => exact changed hb hstack rfl
  | @leave top _ hstack => exact ih f below (hstack ▸ hb.trans (List.suffix_cons top _)) hf

/-! ## Faults -/

theorem cut_eq_error_iff (text : List Char) (fault : Located Fault) :
    cut text = .error fault ↔ find text = .error fault := by
  unfold cut
  cases find text <;> simp

/-- A text may end inside these frames. -/
def Frame.MayEndText : Frame → Prop
  | .main _ | .lineComment _ => True
  | _ => False

theorem unterminated?_eq_none_iff (f : Frame) : f.unterminated? = none ↔ f.MayEndText := by
  cases f <;> simp [Frame.unterminated?, Frame.MayEndText]

/-- The scan stops at a control character that stands where code is read. -/
structure StopsAt (text : List Char) (offset : Nat) (c : Char) : Prop where
  isAsciiControl : isAsciiControl c
  not_isBlank : isBlank c = false
  reads : ∃ s rest, Reads .start text s (c :: rest) ∧ s.ReadsCode ∧ s.offset = offset

/-- The text ends inside the frame, which lies on `below`, and inside no other above it that
has to be closed. -/
structure EndsInside (text : List Char) (f : Frame) (below : List Frame) : Prop where
  not_mayEndText : ¬ f.MayEndText
  reads : ∃ s above, Reads .start text s [] ∧ s.stack = above ++ f :: below ∧ ∀ g ∈ above, g.MayEndText

theorem exists_stopsAt_iff (text : List Char) (fault : Located Fault) :
    (∃ s c rest, Reads .start text s (c :: rest) ∧ step s c rest = .error fault) ↔
      ∃ c, StopsAt text fault.offset c ∧ fault.cause = .controlCharacter c := by
  simp only [step_eq_error_iff]
  constructor
  · rintro ⟨s, c, rest, hs, hcode, hc, hb, rfl⟩
    exact ⟨c, ⟨hc, hb, s, rest, hs, hcode, rfl⟩, rfl⟩
  · rintro ⟨c, ⟨hc, hb, s, rest, hs, hcode, hoffset⟩, hcause⟩
    refine ⟨s, c, rest, hs, hcode, hc, hb, ?_⟩
    rw [hoffset, ← hcause]

theorem exists_endsInside_iff (text : List Char) (fault : Located Fault) :
    (∃ s, Reads .start text s [] ∧ s.finish = .error fault) ↔
      ∃ f below construct, EndsInside text f below ∧
        f.unterminated? = some ⟨fault.offset, construct⟩ ∧ fault.cause = .unterminated construct := by
  simp only [finish_eq_error_iff, List.findSome?_eq_some_iff, unterminated?_eq_none_iff]
  constructor
  · rintro ⟨s, hs, opening, ⟨above, f, below, hstack, hf, habove⟩, rfl⟩
    refine ⟨f, below, opening.cause, ⟨?_, s, above, hs, hstack, habove⟩, hf, rfl⟩
    rw [← unterminated?_eq_none_iff, hf]
    nofun
  · rintro ⟨f, below, construct, ⟨-, s, above, hs, hstack, habove⟩, hf, hcause⟩
    refine ⟨s, hs, _, ⟨above, f, below, hstack, hf, habove⟩, ?_⟩
    rw [← hcause]

/-! ## The whole scan -/

/-- Where the scanner looks next.  An escape takes the byte behind it along, even where the
text has none. -/
def Scan.resume (s : Scan) : Nat :=
  match s.stack with
  | .quoted _ true :: _ => s.offset + 1
  | _ => s.offset

theorem Scan.offset_le_resume (s : Scan) : s.offset ≤ s.resume := by
  unfold resume
  split <;> omega

theorem Scan.resume_le (s : Scan) : s.resume ≤ s.offset + 1 := by
  unfold resume
  split <;> omega

/-- What holds of the scanner of `text` at a place where `ahead` is left. -/
structure InOrder (text : List Char) (s : Scan) (ahead : List Char) : Prop where
  disciplined : Disciplined s.stack
  stack_ne_nil : s.stack ≠ []
  /-- A counter never goes beyond the number of bytes read. -/
  depth_le : ∀ f ∈ s.stack, f.depth ≤ s.offset
  offset_eq : s.offset + byteLength ahead = byteLength text
  resume_le : s.resume ≤ byteLength text + 1
  /-- The scanner moves on, unless a control character stops it. -/
  progress : ∀ c rest, ahead = c :: rest →
    (∃ t, step s c rest = .ok t ∧ s.offset < t.offset ∧ s.resume ≤ t.resume) ∨ StopsAt text s.offset c

theorem Reads.inOrder {text ahead : List Char} {s : Scan} (h : Reads .start text s ahead) :
    InOrder text s ahead := by
  obtain ⟨htext, hoffset⟩ := h.before_start
  have hlength : s.offset + byteLength ahead = byteLength text := by
    rw [htext, byteLength_append, ← hoffset]
  refine ⟨h.disciplined, h.disciplined.ne_nil, h.depth_le, hlength, ?_, ?_⟩
  · have := s.resume_le
    omega
  · rintro c rest rfl
    cases hst : Region.step s c rest with
    | error fault =>
      obtain ⟨hcode, hc, hb, -⟩ := (step_eq_error_iff s c rest fault).1 hst
      exact .inr ⟨hc, hb, s, rest, h, hcode, rfl⟩
    | ok t =>
      have hadvance := (advances_of_step hst).offset_eq
      have hsize := c.utf8Size_pos
      have hbefore := s.resume_le
      have hbehind := t.offset_le_resume
      exact .inl ⟨t, rfl, by omega, by omega⟩

/-- The scanner keeps its discipline wherever it comes.  A text cannot be cut just if a
control character stands where code is read, or if the text ends inside a construct that
has to be closed; the innermost such construct is reported at the token that opens it. -/
theorem cut_disciplined (text : List Char) :
    (∀ s ahead, Reads .start text s ahead → InOrder text s ahead) ∧
    ∀ fault, cut text = .error fault ↔
      (∃ c, StopsAt text fault.offset c ∧ fault.cause = .controlCharacter c) ∨
      ∃ f below construct, EndsInside text f below ∧ OpenedOn text f below ∧
        f.unterminated? = some ⟨fault.offset, construct⟩ ∧ fault.cause = .unterminated construct := by
  refine ⟨fun s ahead h => h.inOrder, fun fault => ?_⟩
  rw [cut_eq_error_iff, find_eq_error_iff, exists_stopsAt_iff, exists_endsInside_iff]
  refine or_congr_right ?_
  constructor
  · rintro ⟨f, below, construct, hends, hf, hcause⟩
    obtain ⟨s, above, hs, hstack, -⟩ := hends.reads
    have hopened : OpenedOn text f below := by
      refine hs.openedOn f below (hstack ▸ List.suffix_append above _) ?_
      rintro d rfl
      exact hends.not_mayEndText trivial
    exact ⟨f, below, construct, hends, hopened, hf, hcause⟩
  · rintro ⟨f, below, construct, hends, -, hf, hcause⟩
    exact ⟨f, below, construct, hends, hf, hcause⟩

/-- The arguments of an annotation end behind the backslash of a string.  The scanner looks one
byte beyond the text, and reports the quote. -/
theorem cut_disciplined_string :
    let text := "é\n@a (\"\\".toList
    (∃ s, Reads .start text s [] ∧ InOrder text s [] ∧ s.stack = [.quoted 7 true, .annotationArgs 6, .main 0] ∧
      s.resume = byteLength text + 1) ∧
    cut text = .error ⟨7, .unterminated .stringLiteral⟩ ∧
    OpenedOn text (.quoted 7 true) [.annotationArgs 6, .main 0] := by
  intro text
  obtain ⟨s, hrun, hstack, hresume⟩ : ∃ s, run .start text = .ok s ∧
      s.stack = [.quoted 7 true, .annotationArgs 6, .main 0] ∧ s.resume = byteLength text + 1 :=
    ⟨_, rfl, rfl, rfl⟩
  have hs : Reads .start text s [] := (run_eq_ok_iff _ _ _).1 hrun
  have hcut : cut text = .error ⟨7, .unterminated .stringLiteral⟩ := rfl
  refine ⟨⟨s, hs, (cut_disciplined text).1 s [] hs, hstack, hresume⟩, hcut, ?_⟩
  rcases ((cut_disciplined text).2 _).1 hcut with ⟨c, -, hcause⟩ | ⟨f, below, construct, hends, hopened, -⟩
  · cases hcause
  obtain ⟨t, above, ht, hends, habove⟩ := hends.reads
  rw [← hs.unique ht, hstack] at hends
  cases above with
  | nil =>
    cases hends
    exact hopened
  | cons g above =>
    obtain ⟨rfl, -⟩ := List.cons.inj hends
    exact (habove _ List.mem_cons_self).elim

end ServiceLang.Region
