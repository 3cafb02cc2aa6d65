import ServiceLang.Proofs.Region.Cut
import ServiceLang.Proofs.Region.Found

/-!
Comments and regions.

`withoutComments` overwrites the comments that the scanner reads.  The scanner of
the text and that of the text without comments stand side by side (`Mirror`): in
code they have the same frames open, and in a comment the second one reads blanks.
They part where what is decided from the characters around a place comes out
differently: whether a word begins a declaration, whether `exec` begins a block,
whether an annotation has arguments.

Nothing in the scanner makes the first decision the same in both texts.
`find_withoutComments_iff` says that it is just this decision on which the regions
depend.
-/

namespace ServiceLang.Region

/-! ## Texts without comments -/

def Frame.isComment : Frame → Bool
  | .lineComment _ | .blockComment _ => true
  | _ => false

theorem isComment_of_isCode {f : Frame} (h : f.IsCode) : f.isComment = false := by
  cases f <;> first | rfl | cases h

def Scan.inComment (s : Scan) : Bool := s.stack.head?.any Frame.isComment

/-- The text that a scanner has ahead, with its comments overwritten. -/
def blankComments (s : Scan) : List Char → List Char
  | [] => []
  | c :: rest =>
    match step s c rest with
    | .error _ => c :: rest
    | .ok next =>
      (if s.inComment || next.inComment then blankFor c else [c]) ++ blankComments next rest

/-- The text with its comments overwritten, newlines kept. -/
def withoutComments (text : List Char) : List Char := blankComments .start text

theorem blankComments_cons {s t : Scan} {c : Char} {rest : List Char} (h : step s c rest = .ok t) :
    blankComments s (c :: rest) =
      (if s.inComment || t.inComment then blankFor c else [c]) ++ blankComments t rest := by
  rw [blankComments, h]

theorem blankFor_ne_nil (c : Char) : blankFor c ≠ [] := by
  intro h
  have := byteLength_blankFor c
  have := c.utf8Size_pos
  rw [h] at *
  simp at *
  omega

/-- What follows a character is left as it is, or it is blank. -/
theorem head?_blankComments (s : Scan) (xs : List Char) :
    (blankComments s xs).head? = xs.head? ∨ ∃ c, (blankComments s xs).head? = some c ∧ isBlank c := by
  cases xs with
  | nil => exact .inl rfl
  | cons c rest =>
    unfold blankComments
    split
    · exact .inl rfl
    split
    · right
      obtain ⟨x, k, hx⟩ := List.exists_cons_of_ne_nil (blankFor_ne_nil c)
      refine ⟨x, ?_, isBlank_of_mem_blankFor (c := c) ?_⟩
      · rw [hx]; rfl
      · rw [hx]; exact List.mem_cons_self
    · exact .inl rfl

/-! ## What is decided around a place -/

/-- Before an offset of the text without comments, the last character first. -/
def plainBefore (text : List Char) (offset : Nat) : List Char :=
  (takeBytes offset (withoutComments text)).reverse

/-- From an offset of the text without comments on. -/
def plainAhead (text : List Char) (offset : Nat) : List Char :=
  dropBytes offset (withoutComments text)

/-- Without comments, a word here opens the same region. -/
def HeadAgrees (text : List Char) (s : Scan) (ahead : List Char) : Prop :=
  s.mainDepth? = some 0 → StartsWord true s.before ahead →
    headAt s.before ahead = headAt (plainBefore text s.offset) (plainAhead text s.offset)

/-- Without comments, a word here opens an `exec` block just if it does with them, and
an annotation here has arguments just if it does. -/
def OpenerAgrees (text : List Char) (s : Scan) (ahead : List Char) : Prop :=
  (s.mainDepth?.isSome → StartsWord (s.mainDepth? = some 0) s.before ahead →
    execAt ahead = execAt (plainAhead text s.offset)) ∧
  (s.mainDepth? = some 0 → ahead.head? = some '@' →
    argumentsAhead? ahead.tail = argumentsAhead? (plainAhead text s.offset).tail)

/-- Wherever the scanner comes, the regions that open do not depend on comments. -/
def HeadsAgree (text : List Char) : Prop :=
  ∀ s ahead, Reads .start text s ahead → HeadAgrees text s ahead

/-- Wherever the scanner comes, the other things that open do not depend on comments. -/
def OpenersAgree (text : List Char) : Prop :=
  ∀ s ahead, Reads .start text s ahead → OpenerAgrees text s ahead

instance (text : List Char) (s : Scan) (ahead : List Char) : Decidable (HeadAgrees text s ahead) :=
  inferInstanceAs (Decidable (_ → _ → _))

instance (text : List Char) (s : Scan) (ahead : List Char) :
    Decidable (OpenerAgrees text s ahead) :=
  inferInstanceAs (Decidable ((_ → _ → _) ∧ (_ → _ → _)))

instance (text : List Char) : Decidable (HeadsAgree text) :=
  decidable_of_iff' _ (forall_reads_iff text (HeadAgrees text))

instance (text : List Char) : Decidable (OpenersAgree text) :=
  decidable_of_iff' _ (forall_reads_iff text (OpenerAgrees text))

/-! ## Side by side -/

/-- The scanner `u` of the text without comments stands beside `s`: in code with the
same frames, in a comment in the code around it. -/
inductive Mirror (s : Scan) : Scan → Prop
  | code {b : List Char} : (∀ f ∈ s.stack, f.isComment = false) →
      (∀ a, insideWord a b = insideWord a s.before) → Mirror s { s with before := b }
  | comment {b : List Char} {f top : Frame} {below : List Frame} : s.stack = f :: top :: below →
      f.isComment → top.IsCode → (∀ g ∈ top :: below, g.isComment = false) →
      (∀ a, insideWord a b = false) → Mirror s { s with before := b, stack := top :: below }

theorem inComment_of_code (s : Scan) (h : ∀ f ∈ s.stack, f.isComment = false) :
    s.inComment = false := by
  unfold Scan.inComment
  cases hs : s.stack with
  | nil => rfl
  | cons f fs => exact h f (by rw [hs]; exact List.mem_cons_self)

/-- A step that leaves the comment-free frames comment-free, seen from both sides. -/
theorem mirror_of_step {s t : Scan} {c : Char} (b : List Char) (h : t.before = c :: s.before)
    (ht : ∀ f ∈ t.stack, f.isComment = false) : Mirror t { t with before := c :: b } := by
  refine .code ht ?_
  intro a
  rw [h]
  rfl

/-- The text ahead of a scanner in code, behind the step that it takes. -/
theorem blankComments_code {s t : Scan} {c : Char} {rest : List Char} (h : step s c rest = .ok t)
    (hs : ∀ f ∈ s.stack, f.isComment = false) (ht : ∀ f ∈ t.stack, f.isComment = false) :
    blankComments s (c :: rest) = c :: blankComments t rest := by
  rw [blankComments_cons h, inComment_of_code s hs, inComment_of_code t ht]
  rfl

/-- The decisions of a scanner that reads code come out the same with `b` before the
place and `rest'` behind the character ahead. -/
structure SameDecisions (s : Scan) (top : Frame) (c : Char) (rest b rest' : List Char) : Prop where
  head : top = .main 0 → StartsWord true s.before (c :: rest) →
    headAt s.before (c :: rest) = headAt b (c :: rest')
  exec : ∀ d, top = .main d → StartsWord top.isTopLevel s.before (c :: rest) →
    execAt (c :: rest) = execAt (c :: rest')
  arguments : top = .main 0 → c = '@' → argumentsAhead? rest = argumentsAhead? rest'

theorem stepWord_mirror (s : Scan) (top : Frame) (c : Char) (rest b rest' : List Char)
    (hc : isWordChar c) (hi : insideWord top.isTopLevel s.before = false)
    (h : SameDecisions s top c rest b rest') :
    stepWord { s with before := b } top c rest' =
      { stepWord s top c rest with before := c :: b } := by
  cases top with
  | main d =>
    have hw : StartsWord (Frame.main d).isTopLevel s.before (c :: rest) := ⟨hc, hi⟩
    rw [stepWord_main, stepWord_main, ← h.exec d rfl hw]
    split
    · rfl
    split
    · rfl
    next hd =>
    obtain rfl : d = 0 := by omega
    rw [h.head rfl hw]
    dsimp only
    cases headAt b (c :: rest') with
    | none => rfl
    | some kind => cases kind <;> rfl
  | _ => rfl

theorem isComment_origin (f : Frame) : f.origin.isComment = f.isComment := by
  cases f <;> rfl

/-- Where no comment begins, none is open behind the step either. -/
theorem commentFree_of_step {s t : Scan} {c : Char} {rest : List Char} (h : step s c rest = .ok t)
    (hf : ∀ f ∈ s.stack, f.isComment = false) (hc : ¬ CommentAhead s c rest) :
    ∀ f ∈ t.stack, f.isComment = false := by
  intro f hft
  rcases (advances_of_step h).stack_of.of_mem hft with ⟨g, hg, ho⟩ | ho
  · rw [← isComment_origin, ← ho, isComment_origin]
    exact hf g hg
  · cases ho with
    | lineComment ho => exact absurd ho hc
    | blockComment ho => exact absurd ho hc
    | _ => rfl

/-- A step in code opens a comment, or it leaves the frames without comments. -/
theorem opens_of_codeStep {s t : Scan} {top : Frame} {below : List Frame} {c : Char} {rest : List Char}
    (h : CodeStep s top below c rest t) (hs : s.stack = top :: below) (ht : top.IsCode)
    (hf : ∀ f ∈ s.stack, f.isComment = false) :
    (∀ f ∈ t.stack, f.isComment = false) ∨
      ∃ f, f.isComment = true ∧ t = (s.advance c).push f ∧ c = '/' := by
  by_cases hc : CommentAhead s c rest
  · right
    obtain ⟨-, rfl, hahead⟩ := hc
    cases h with
    | lineComment => exact ⟨_, rfl, rfl, rfl⟩
    | blockComment => exact ⟨_, rfl, rfl, rfl⟩
    | blank hb => cases hb
    | insideWord hw => cases hw
    | word hw => cases hw
    | other _ _ hn => exact absurd ⟨rfl, hahead⟩ hn.2.2.2
  · exact .inl (commentFree_of_step ((step_code_iff s t top below c rest hs ht).2 h) hf hc)

/-- The same step is taken with other text around, if it decides the same. -/
theorem codeStep_mirror {s t : Scan} {top : Frame} {below : List Frame} {c : Char}
    {rest b rest' : List Char} (h : CodeStep s top below c rest t) (ht : top.IsCode)
    (hf : ∀ f ∈ t.stack, f.isComment = false) (hb : ∀ a, insideWord a b = insideWord a s.before)
    (hn : rest'.head? = rest.head? ∨ ∃ x, rest'.head? = some x ∧ isBlank x)
    (hd : SameDecisions s top c rest b rest') :
    CodeStep { s with before := b } top below c rest' { t with before := c :: b } := by
  cases h with
  | blank h => exact .blank h
  | lineComment => cases hf _ List.mem_cons_self
  | blockComment => cases hf _ List.mem_cons_self
  | quote =>
    have h : CodeStep { s with before := b } top below '"' rest' _ := .quote
    cases hb : top.isTopLevel <;> (rw [hb] at h; exact h)
  | openBrace =>
    have h : CodeStep { s with before := b } top below '{' rest' _ := .openBrace
    cases top with
    | main d => cases hb : (Frame.main d).isTopLevel <;> (rw [hb] at h; exact h)
    | region => exact h
    | _ => cases ht
  | closeBrace =>
    have h : CodeStep { s with before := b } top below '}' rest' _ := .closeBrace
    cases top with
    | main d => exact h
    | region kind start d o =>
      unfold closeBrace at h ⊢
      dsimp only at h ⊢
      split at h <;> split <;> first | exact h | contradiction
    | _ => cases ht
  | withArguments htop hg =>
    obtain rfl := eq_main_of_isTopLevel htop
    rw [hd.arguments rfl rfl] at hg
    exact .withArguments htop hg
  | withoutArguments htop hg =>
    obtain rfl := eq_main_of_isTopLevel htop
    rw [hd.arguments rfl rfl] at hg
    exact .withoutArguments htop hg
  | insideWord hw hi => exact .insideWord hw ((hb _).trans hi)
  | word hw hi =>
    rw [← stepWord_mirror s top c rest b rest' hw hi hd]
    exact .word hw ((hb _).trans hi)
  | other hbl hw hsn hx ha =>
    obtain ⟨h1, h2, h3, h4⟩ := hsn
    have hsn2 : StartsNothing c rest'.head? := by
      refine ⟨h1, h2, h3, ?_⟩
      rintro ⟨hc, hh⟩
      rcases hn with hn | ⟨x, hx, hxb⟩
      · exact h4 ⟨hc, by rwa [hn] at hh⟩
      · rw [hx] at hh
        rcases hh with hh | hh <;> (cases hh; cases hxb)
    have h : CodeStep { s with before := b } top below c rest' _ := .other hbl hw hsn2 hx ha
    cases hb : top.isTopLevel <;> (rw [hb] at h; exact h)

/-- In strings, arguments and shell text only the character ahead counts. -/
theorem step_inert {s t : Scan} {top : Frame} {below : List Frame} {c : Char} {rest : List Char}
    (b rest' : List Char) (hs : s.stack = top :: below) (hc : ¬ top.IsCode)
    (hf : top.isComment = false) (h : step s c rest = .ok t) :
    step { s with before := b } c rest' = .ok { t with before := c :: b } := by
  obtain ⟨before, offset, stack, pending, found⟩ := s
  obtain rfl : stack = top :: below := hs
  unfold step at h ⊢
  cases top with
  | main | region => exact absurd trivial hc
  | lineComment | blockComment => cases hf
  | annotationArgs start =>
    cases h
    unfold stepAnnotationArgs
    dsimp only
    split
    · rfl
    split <;> rfl
  | quoted start e =>
    cases h
    unfold stepQuoted
    dsimp only
    split
    · rfl
    split
    · rfl
    split <;> rfl
  | shell start d e =>
    cases h
    unfold stepShell
    dsimp only
    split
    · rfl
    split
    · split <;> rfl
    · rfl

/-- A step inside a comment stays there or closes it. -/
theorem step_inside {s t : Scan} {f : Frame} {below : List Frame} {c : Char} {rest : List Char}
    (hs : s.stack = f :: below) (hf : f.isComment) (h : step s c rest = .ok t) :
    t = s.advance c ∨
      t = { s.advance c with stack := below } ∧ isWordChar c = false ∧ c ≠ '@' := by
  unfold step at h
  rw [hs] at h
  cases f with
  | lineComment start =>
    cases h
    unfold stepLineComment
    dsimp only
    split
    · next hc => subst hc; exact .inr ⟨rfl, rfl, by decide⟩
    · exact .inl rfl
  | blockComment start =>
    cases h
    unfold stepBlockComment
    dsimp only
    split
    · next hc =>
      obtain rfl : c = '/' := by
        simp only [Bool.and_eq_true, decide_eq_true_eq] at hc
        exact hc.1.1
      exact .inr ⟨rfl, rfl, by decide⟩
    · exact .inl rfl
  | _ => cases hf

theorem insideWord_blankFor (a : Bool) (c : Char) (b : List Char) :
    insideWord a ((blankFor c).reverse ++ b) = false := by
  obtain ⟨x, k, hx⟩ := List.exists_cons_of_ne_nil (List.reverse_ne_nil_iff.2 (blankFor_ne_nil c))
  rw [hx]
  have hm : x ∈ blankFor c := by
    rw [← List.mem_reverse, hx]
    exact List.mem_cons_self
  exact insideWord_of_isBlank a x _ (isBlank_of_mem_blankFor hm)

/-- In code the scanners take the step together, but for a blank in the place of a comment
that opens. -/
theorem mirror_step_code {s t : Scan} {c : Char} {b rest : List Char}
    (hf : ∀ f ∈ s.stack, f.isComment = false) (hb : ∀ a, insideWord a b = insideWord a s.before)
    (hs : Region.step s c rest = .ok t)
    (hd : ∀ top below, s.stack = top :: below → top.IsCode →
      SameDecisions s top c rest b (blankComments t rest)) :
    ∃ v, Reads { s with before := b } (blankComments s (c :: rest)) v (blankComments t rest) ∧
      Mirror t v := by
  have hbefore := (advances_of_step hs).before_eq
  have follows : Region.step { s with before := b } c (blankComments t rest) =
      .ok { t with before := c :: b } → (∀ f ∈ t.stack, f.isComment = false) →
      ∃ v, Reads { s with before := b } (blankComments s (c :: rest)) v (blankComments t rest) ∧
        Mirror t v := by
    intro hstep ht
    refine ⟨_, ?_, mirror_of_step b hbefore ht⟩
    rw [blankComments_code hs hf ht]
    exact .step hstep (.done _ _)
  obtain hst | ⟨top, below, hst⟩ : s.stack = [] ∨ ∃ top below, s.stack = top :: below := by
    cases s.stack <;> simp
  · rw [step_nil s c rest hst] at hs
    cases hs
    refine follows ?_ (by rw [Scan.stack_advance, hst]; nofun)
    exact step_nil { s with before := b } c _ hst
  by_cases hc : top.IsCode
  · have hcode := (step_code_iff s t top below c rest hst hc).1 hs
    rcases opens_of_codeStep hcode hst hc hf with ht | ⟨f, hfc, rfl, rfl⟩
    · refine follows ?_ ht
      have hsame := hd top below hst hc
      exact (step_code_iff _ _ top below c _ (by exact hst) hc).2
        (codeStep_mirror hcode hc ht hb (head?_blankComments t rest) hsame)
    · -- a comment opens, and a blank is read in its place
      refine ⟨Scan.advance { s with before := b } ' ', ?_, ?_⟩
      · have hopen : ((s.advance '/').push f).inComment = true := hfc
        rw [blankComments_cons hs, hopen, Bool.or_true, if_pos rfl]
        exact Reads.code (by exact hst) hc (.blank rfl)
      · have hstack : ((s.advance '/').push f).stack = f :: top :: below := by
          show f :: s.stack = _
          rw [hst]
        have hfree : ∀ g ∈ top :: below, g.isComment = false := by rw [← hst]; exact hf
        have := Mirror.comment (b := ' ' :: b) hstack hfc hc hfree
          (fun a => insideWord_of_isBlank a ' ' b rfl)
        rw [← hst] at this
        exact this
  · have htop : top.isComment = false := hf top (by rw [hst]; exact List.mem_cons_self)
    have hfree : ∀ f ∈ t.stack, f.isComment = false := by
      refine commentFree_of_step hs hf ?_
      rintro ⟨⟨top2, below2, hst2, hc2⟩, -⟩
      rw [hst] at hst2
      cases hst2
      exact hc hc2
    exact follows (step_inert b (blankComments t rest) hst hc htop hs) hfree

/-- In a comment the scanner of the text without comments reads blanks. -/
theorem mirror_step_comment {s t : Scan} {f top : Frame} {below : List Frame} {c : Char}
    {b rest : List Char} (hst : s.stack = f :: top :: below) (hfc : f.isComment) (hc : top.IsCode)
    (hfree : ∀ g ∈ top :: below, g.isComment = false) (hs : Region.step s c rest = .ok t) :
    ∃ v, Reads { s with before := b, stack := top :: below } (blankComments s (c :: rest)) v
      (blankComments t rest) ∧ Mirror t v := by
  have hin : s.inComment = true := by
    unfold Scan.inComment
    rw [hst]
    exact hfc
  let u : Scan := { s with before := b, stack := top :: below }
  refine ⟨u.after (blankFor c), ?_, ?_⟩
  · rw [blankComments_cons hs, hin, Bool.true_or, if_pos rfl]
    exact Reads.blanks rfl hc (fun x hx => isBlank_of_mem_blankFor hx) _
  · have hlen := byteLength_blankFor c
    rcases step_inside hst hfc hs with rfl | ⟨rfl, hw, ha⟩
    · have := Mirror.comment (s := s.advance c) (b := (blankFor c).reverse ++ b) hst hfc hc hfree
        (fun a => insideWord_blankFor a c b)
      simpa [u, Scan.after, Scan.advance, hlen] using this
    · let t : Scan := { s.advance c with stack := top :: below }
      have hword : ∀ a, insideWord a ((blankFor c).reverse ++ b) = insideWord a t.before := by
        intro a
        rw [insideWord_blankFor]
        simp [t, insideWord, hw, ha]
      have := Mirror.code (s := t) hfree hword
      simpa [t, u, Scan.after, Scan.advance, hlen] using this

/-- The scanner of the text without comments follows a step that decides the same. -/
theorem Mirror.step {s u t : Scan} {c : Char} {rest : List Char} (hm : Mirror s u)
    (hs : Region.step s c rest = .ok t)
    (hd : ∀ top below, s.stack = top :: below → top.IsCode →
      SameDecisions s top c rest u.before (blankComments t rest)) :
    ∃ v, Reads u (blankComments s (c :: rest)) v (blankComments t rest) ∧ Mirror t v := by
  cases hm with
  | code hf hb => exact mirror_step_code hf hb hs hd
  | comment hst hfc hc hfree _ => exact mirror_step_comment hst hfc hc hfree hs

/-! ## Whole texts -/

theorem Mirror.offset_eq {s u : Scan} (h : Mirror s u) : u.offset = s.offset := by
  cases h <;> rfl

theorem Mirror.pending_eq {s u : Scan} (h : Mirror s u) : u.pending = s.pending := by
  cases h <;> rfl

theorem Mirror.found_eq {s u : Scan} (h : Mirror s u) : u.found = s.found := by
  cases h <;> rfl

theorem Mirror.closed {s u : Scan} (h : Mirror s u) (hs : Closed s.stack) : Closed u.stack := by
  cases h with
  | code => exact hs
  | comment hst => exact fun f hf => hs f (by rw [hst]; exact List.mem_cons_of_mem _ hf)

theorem Mirror.stack_eq {s u : Scan} {top : Frame} {below : List Frame} (h : Mirror s u)
    (hs : s.stack = top :: below) (ht : top.IsCode) :
    u.stack = s.stack ∧ (∀ f ∈ s.stack, f.isComment = false) ∧
      ∀ a, insideWord a u.before = insideWord a s.before := by
  cases h with
  | code hf hb => exact ⟨rfl, hf, hb⟩
  | @comment b f _ _ hst hfc =>
    rw [hs] at hst
    cases hst
    rw [isComment_of_isCode ht] at hfc
    cases hfc

/-- The two scanners have come to the same place of their texts. -/
structure Beside (text : List Char) (s : Scan) (ahead : List Char) (u : Scan) : Prop where
  reads : Reads .start text s ahead
  reads_plain : Reads .start (withoutComments text) u (blankComments s ahead)
  mirror : Mirror s u

namespace Beside

variable {text ahead : List Char} {s u : Scan}

theorem start (text : List Char) : Beside text .start text .start := by
  refine ⟨.done _ _, .done _ _, ?_⟩
  have := Mirror.code (s := .start) (b := []) (by decide) (fun _ => rfl)
  exact this

/-- Before and behind the place in the text without comments. -/
theorem plain_eq (h : Beside text s ahead u) :
    plainBefore text s.offset = u.before ∧ plainAhead text s.offset = blankComments s ahead := by
  obtain ⟨htext, ho⟩ := h.reads_plain.before_start
  rw [h.mirror.offset_eq] at ho
  unfold plainBefore plainAhead
  rw [ho, htext, takeBytes_append, dropBytes_append, List.reverse_reverse]
  exact ⟨rfl, rfl⟩

theorem step {c : Char} {rest : List Char} {t : Scan} (h : Beside text s (c :: rest) u)
    (hs : Region.step s c rest = .ok t)
    (hd : ∀ top below, s.stack = top :: below → top.IsCode →
      SameDecisions s top c rest u.before (blankComments t rest)) :
    ∃ v, Beside text t rest v := by
  obtain ⟨v, hv, hm⟩ := h.mirror.step hs hd
  exact ⟨v, h.reads.trans (.step hs (.done _ _)), h.reads_plain.trans hv, hm⟩

/-- A character of code that opens no comment stands in both texts. -/
theorem ahead_eq {c : Char} {rest : List Char} {t : Scan} {top : Frame} {below : List Frame}
    (h : Beside text s (c :: rest) u) (hs : Region.step s c rest = .ok t)
    (hst : s.stack = top :: below) (ht : top.IsCode) (hc : c ≠ '/') :
    blankComments s (c :: rest) = c :: blankComments t rest := by
  obtain ⟨-, hf, -⟩ := h.mirror.stack_eq hst ht
  rcases opens_of_codeStep ((step_code_iff s t top below c rest hst ht).1 hs) hst ht hf with
    hft | ⟨-, -, -, hc2⟩
  · exact blankComments_code hs hf hft
  · exact absurd hc2 hc

/-- If the heads of declarations agree here, and the openers everywhere, the two
scanners decide the same. -/
theorem sameDecisions {c : Char} {rest : List Char} {t : Scan} {top : Frame} {below : List Frame}
    (h : Beside text s (c :: rest) u) (hs : Region.step s c rest = .ok t)
    (hst : s.stack = top :: below) (ht : top.IsCode) (ho : OpenersAgree text)
    (hh : s.mainDepth? = some 0 → StartsWord true s.before (c :: rest) →
      headAt s.before (c :: rest) = headAt u.before (blankComments s (c :: rest))) :
    SameDecisions s top c rest u.before (blankComments t rest) := by
  have hmain : ∀ d, top = .main d → s.mainDepth? = some d := by
    rintro d rfl
    rw [mainDepth?_eq_some_iff, hst]
    rfl
  have wordAhead : StartsWord top.isTopLevel s.before (c :: rest) →
      blankComments s (c :: rest) = c :: blankComments t rest :=
    fun hw => h.ahead_eq hs hst ht (ne_of_isWordChar c _ hw.1 rfl)
  refine ⟨?_, ?_, ?_⟩
  · rintro htop hw
    have hw2 := wordAhead (by rw [htop]; exact hw)
    rw [hh (hmain 0 htop) hw, hw2]
  · rintro d htop hw
    have hd := hmain d htop
    have hw2 : StartsWord (s.mainDepth? = some 0) s.before (c :: rest) := by
      rw [htop, isTopLevel_main] at hw
      rw [hd]
      simpa using hw
    have := (ho s (c :: rest) h.reads).1 (by rw [hd]; rfl) hw2
    rw [this, h.plain_eq.2, wordAhead hw]
  · rintro htop rfl
    have := (ho s ('@' :: rest) h.reads).2 (hmain 0 htop) rfl
    rw [h.plain_eq.2, h.ahead_eq hs hst ht (by decide)] at this
    exact this

/-- Side by side from place to place, as long as the heads of declarations agree. -/
theorem follow {t : Scan} {ys : List Char} (h : Beside text s ahead u) (hr : Reads s ahead t ys)
    (ho : OpenersAgree text)
    (hh : ∀ s ahead u, Beside text s ahead u → s.mainDepth? = some 0 → StartsWord true s.before ahead →
      headAt s.before ahead = headAt u.before (blankComments s ahead)) :
    ∃ v, Beside text t ys v := by
  induction hr generalizing u with
  | done => exact ⟨u, h⟩
  | @step s s2 t c xs ys hs _ ih =>
    obtain ⟨v, hv⟩ := h.step hs fun top below hst ht =>
      h.sameDecisions hs hst ht ho (hh s (c :: xs) u h)
    exact ih hv

end Beside

/-! ## What the regions depend on -/

/-- If one scanner finds a region where the other passes a word, they do not find the same. -/
theorem found_ne {o p stop : Nat} {kind : Kind} {base more : List Region} {t : Scan}
    (h : StartsFrom (o + 1) base t) (hp : p ≤ o) : t.found ≠ more ++ ⟨kind, p, stop⟩ :: base := by
  intro heq
  obtain ⟨others, hm, hall⟩ := h.found_eq
  have hsplit : others = more ++ [⟨kind, p, stop⟩] := by
    rw [hm] at heq
    refine (List.append_left_inj base).1 ?_
    rw [heq]
    simp
  have := hall ⟨kind, p, stop⟩ (by rw [hsplit]; simp)
  have : o + 1 ≤ p := this
  omega

theorem kind_eq_of_found {p q stop stop2 : Nat} {kind kind2 : Kind} {base more more2 : List Region}
    (h : more ++ ⟨kind, p, stop⟩ :: base = more2 ++ ⟨kind2, q, stop2⟩ :: base) : kind = kind2 := by
  have h2 : more ++ [(⟨kind, p, stop⟩ : Region)] = more2 ++ [⟨kind2, q, stop2⟩] := by
    refine (List.append_left_inj base).1 ?_
    simpa using h
  have h3 := List.append_inj_right' h2 rfl
  cases h3
  rfl

/-- Scanners that find the same regions have opened one at the same words. -/
theorem headAt_eq_of_found {s u e e' : Scan} {c : Char} {rest rest' : List Char}
    (hs : s.stack = [.main 0]) (hu : u.stack = [.main 0]) (hoff : u.offset = s.offset)
    (hpend : u.pending = s.pending) (hfound : u.found = s.found) (hc : isWordChar c)
    (hi : insideWord true s.before = false) (hi' : insideWord true u.before = false)
    (hx : execAt (c :: rest) = execAt (c :: rest')) (hp : ∀ p, s.pending = some p → p ≤ s.offset)
    (he : Reads s (c :: rest) e []) (he' : Reads u (c :: rest') e' []) (hcl : Closed e.stack)
    (hcl' : Closed e'.stack) (hf : e.found = e'.found) :
    headAt s.before (c :: rest) = headAt u.before (c :: rest') := by
  by_cases hx2 : execAt (c :: rest) = true
  · rw [headAt_of_execAt _ _ hx2, headAt_of_execAt _ _ (hx ▸ hx2)]
  have hx3 : execAt (c :: rest) = false := by simpa using hx2
  have hstart : ∀ kind, Scanned.regionStart s kind ≤ s.offset := by
    intro kind
    cases kind with
    | flow => exact Nat.le_refl _
    | endpoint =>
      show s.pending.getD s.offset ≤ s.offset
      cases hq : s.pending with
      | none => exact Nat.le_refl _
      | some p => exact hp p hq
  have hsame : ∀ kind, Scanned.regionStart u kind = Scanned.regionStart s kind := by
    intro kind
    cases kind <;> simp [Scanned.regionStart, hoff, hpend]
  rcases found_of_headAt hs hc hi hx3 he hcl with ⟨h1, hf1⟩ | ⟨kind, more, stop, h1, hf1⟩
  · rcases found_of_headAt hu hc hi' (hx ▸ hx3) he' hcl' with ⟨h2, -⟩ | ⟨kind2, more2, stop2, -, hf2⟩
    · rw [h1, h2]
    · rw [hfound, hsame] at hf2
      exact absurd (hf.trans hf2) (found_ne hf1 (hstart kind2))
  · rcases found_of_headAt hu hc hi' (hx ▸ hx3) he' hcl' with ⟨-, hf2⟩ | ⟨kind2, more2, stop2, h2, hf2⟩
    · rw [hfound, hoff] at hf2
      exact absurd (hf.symm.trans hf1) (found_ne hf2 (hstart kind))
    · rw [hfound] at hf2
      rw [h1, h2, kind_eq_of_found (hf1.symm.trans (hf.trans hf2))]

/-- At a place that both scanners have reached, the heads agree if the same regions are
found in the end. -/
theorem Beside.headAt_eq {text ahead : List Char} {s u e e' : Scan} (h : Beside text s ahead u)
    (hs : s.mainDepth? = some 0) (hw : StartsWord true s.before ahead) (ho : OpenersAgree text)
    (he : Reads .start text e []) (he' : Reads .start (withoutComments text) e' [])
    (hcl : Closed e.stack) (hcl' : Closed e'.stack) (hf : e.found = e'.found) :
    headAt s.before ahead = headAt u.before (blankComments s ahead) := by
  obtain ⟨hwc, hi⟩ := hw
  cases ahead with
  | nil => cases hwc
  | cons c rest =>
  have hc : isWordChar c := hwc
  have hst := h.reads.stack_of_mainDepth? hs
  obtain ⟨hu, -, hb⟩ := h.mirror.stack_eq hst trivial
  have hstep : Region.step s c rest = .ok (stepWord s (.main 0) c rest) :=
    (step_code_iff s _ _ _ c rest hst trivial).2 (.word hc hi)
  have hahead := h.ahead_eq hstep hst trivial (ne_of_isWordChar c _ hc rfl)
  have hx := (ho s (c :: rest) h.reads).1 (by rw [hs]; rfl) (by rw [hs]; exact ⟨hwc, hi⟩)
  have hplain := he'.rest h.reads_plain
  rw [h.plain_eq.2, hahead] at hx
  rw [hahead] at hplain ⊢
  exact headAt_eq_of_found hst (hu.trans hst) h.mirror.offset_eq h.mirror.pending_eq
    h.mirror.found_eq hc hi ((hb true).trans hi) hx (h.reads.pending_le nofun) (he.rest h.reads)
    hplain hcl hcl' hf

/-- Overwriting its comments leaves a text its regions just if the same words begin
declarations without them; provided that comments do not part an `exec` from its
brace, nor an annotation from its arguments. -/
theorem find_withoutComments_iff (text : List Char) (regions : List Region)
    (h : find text = .ok regions) (ho : OpenersAgree text) :
    find (withoutComments text) = .ok regions ↔ HeadsAgree text := by
  obtain ⟨e, he, hcl, rfl⟩ := (find_eq_ok_iff text regions).1 h
  constructor
  · intro h2
    obtain ⟨e', he', hcl', hf⟩ := (find_eq_ok_iff _ _).1 h2
    have hf : e.found = e'.found := List.reverse_inj.1 hf
    have hh : ∀ s ahead u, Beside text s ahead u → s.mainDepth? = some 0 →
        StartsWord true s.before ahead →
        headAt s.before ahead = headAt u.before (blankComments s ahead) :=
      fun s ahead u hb hs hw => hb.headAt_eq hs hw ho he he' hcl hcl' hf
    intro s ahead hr hs hw
    obtain ⟨u, hu⟩ := (Beside.start text).follow hr ho hh
    rw [hu.plain_eq.1, hu.plain_eq.2]
    exact hh s ahead u hu hs hw
  · intro hh
    have hbeside : ∀ s ahead u, Beside text s ahead u → s.mainDepth? = some 0 →
        StartsWord true s.before ahead →
        headAt s.before ahead = headAt u.before (blankComments s ahead) := by
      intro s ahead u hb hs hw
      have := hh s ahead hb.reads hs hw
      rwa [hb.plain_eq.1, hb.plain_eq.2] at this
    obtain ⟨v, hv⟩ := (Beside.start text).follow he ho hbeside
    refine (find_eq_ok_iff _ _).2 ⟨v, hv.reads_plain, hv.mirror.closed hcl, ?_⟩
    rw [hv.mirror.found_eq]

/-- A comment before a job leaves it a region. -/
theorem find_withoutComments_job :
    find (withoutComments "/* nightly */ job tidy \x7b \x7d".toList) =
      .ok [⟨.flow, 14, 26⟩] :=
  (find_withoutComments_iff "/* nightly */ job tidy \x7b \x7d".toList _ rfl
    (by decide +kernel)).2 (by decide +kernel)

/-- A comment that ends in a word which binds names hides the workflow behind it. -/
theorem find_withoutComments_ne :
    ¬ ∀ text regions, find text = .ok regions → find (withoutComments text) = .ok regions := by
  intro h
  have hidden : find "// var\nworkflow a \x7b\x7d".toList = .ok [] := rfl
  have shown : find (withoutComments "// var\nworkflow a \x7b\x7d".toList) =
      .ok [⟨.flow, 7, 20⟩] := by decide +kernel
  have same := h _ _ hidden
  rw [shown] at same
  cases same

end ServiceLang.Region
