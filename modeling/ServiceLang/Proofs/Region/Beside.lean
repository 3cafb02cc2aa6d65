import Mathlib.Data.List.DropRight
import Mathlib.Data.List.Forall2
import Mathlib.Data.Option.Basic
import ServiceLang.Proofs.Region.Found

/-!
Two scanners side by side.

What a scanner sees of the text around it is little.  Ahead, it looks for single
characters behind blanks and words, so nothing behind an opening brace is seen from in
front of it (`step_append`, `Reads.swap`).  Behind, it looks back over blanks and one
word, so two scanners see the same as soon as they have read the same character that is
no blank, or nothing but what they do not look for (`SameBehind`).  Two scanners that differ
in nothing but offsets and what lies far behind take the same steps on the same text, in
whatever frame they are (`Beside.step`, `Beside.reads`), and find the same regions further on.
-/

namespace ServiceLang.Region

/-! ## Looking ahead as far as a brace -/

section Ahead

variable {cs ys : List Char} {x : Char} {p : Char → Bool}

theorem dropWhile_append_cons (q : List Char) (hp : p x = false) :
    (q ++ x :: ys).dropWhile p = q.dropWhile p ++ x :: ys := by
  induction q with
  | nil => simp [hp]
  | cons c q ih =>
    rw [List.cons_append, List.dropWhile_cons, List.dropWhile_cons, ih]
    split <;> rfl

theorem takeWhile_append_cons (q : List Char) (hp : p x = false) :
    (q ++ x :: ys).takeWhile p = q.takeWhile p := by
  induction q with
  | nil => simp [hp]
  | cons c q ih => rw [List.cons_append, List.takeWhile_cons, List.takeWhile_cons, ih]

theorem dropWhile_append_of_mem (ys : List Char) (hx : x ∈ cs) (hp : p x = false) :
    (cs ++ ys).dropWhile p = cs.dropWhile p ++ ys ∧ x ∈ cs.dropWhile p := by
  obtain ⟨q, r, rfl⟩ := List.append_of_mem hx
  rw [List.append_assoc, List.cons_append, dropWhile_append_cons q hp, dropWhile_append_cons q hp]
  simp

theorem takeWhile_append_of_mem (hx : x ∈ cs) (hp : p x = false) :
    (cs ++ ys).takeWhile p = cs.takeWhile p := by
  obtain ⟨q, r, rfl⟩ := List.append_of_mem hx
  rw [List.append_assoc, List.cons_append, takeWhile_append_cons q hp, takeWhile_append_cons q hp]

theorem head?_append_of_mem (hx : x ∈ cs) : (cs ++ ys).head? = cs.head? := by
  cases cs with
  | nil => cases hx
  | cons c cs => rfl

theorem nextIs_append (c : Char) (hx : '{' ∈ cs) : nextIs c (cs ++ ys) = nextIs c cs := by
  obtain ⟨heq, hmem⟩ := dropWhile_append_of_mem ys hx (p := isBlank) rfl
  unfold nextIs skipBlanks
  rw [heq, head?_append_of_mem hmem]

theorem followedByMethodAndPath_append (hx : '{' ∈ cs) :
    followedByMethodAndPath (cs ++ ys) = followedByMethodAndPath cs := by
  obtain ⟨heq, hmem⟩ := dropWhile_append_of_mem ys hx (p := isBlank) rfl
  obtain ⟨heq₂, hmem₂⟩ := dropWhile_append_of_mem ys hmem (p := Char.isAlpha) rfl
  unfold followedByMethodAndPath skipBlanks
  dsimp only
  rw [heq, head?_append_of_mem hmem, heq₂, nextIs_append _ hmem₂]

theorem followedByNameAndBrace_append (hx : '{' ∈ cs) :
    followedByNameAndBrace (cs ++ ys) = followedByNameAndBrace cs := by
  obtain ⟨heq, hmem⟩ := dropWhile_append_of_mem ys hx (p := isBlank) rfl
  obtain ⟨heq₂, hmem₂⟩ := dropWhile_append_of_mem ys hmem (p := isWordChar) rfl
  unfold followedByNameAndBrace skipBlanks
  dsimp only
  rw [heq, head?_append_of_mem hmem, heq₂, nextIs_append _ hmem₂]

theorem argumentsAhead?_append (hx : '{' ∈ cs) : argumentsAhead? (cs ++ ys) = argumentsAhead? cs := by
  obtain ⟨heq, hmem⟩ := dropWhile_append_of_mem ys hx (p := isWordChar) rfl
  unfold argumentsAhead?
  dsimp only
  rw [heq, nextIs_append _ hmem, takeWhile_append_of_mem hx rfl, takeWhile_append_of_mem hmem rfl]

theorem stepWord_append (s : Scan) (top : Frame) (c : Char) (hx : '{' ∈ cs) :
    stepWord s top c (cs ++ ys) = stepWord s top c cs := by
  have hmem : '{' ∈ c :: cs := List.mem_cons_of_mem c hx
  obtain ⟨heq, hmem₂⟩ := dropWhile_append_of_mem ys hmem (p := isWordChar) rfl
  unfold stepWord declares?
  dsimp only
  rw [← List.cons_append, heq, takeWhile_append_of_mem hmem rfl, nextIs_append _ hmem₂,
    followedByMethodAndPath_append hmem₂, followedByNameAndBrace_append hmem₂]

/-- A step sees nothing behind the next opening brace. -/
theorem step_append (s : Scan) (c : Char) (hx : '{' ∈ cs) : step s c (cs ++ ys) = step s c cs := by
  unfold step stepCode
  rw [head?_append_of_mem hx, argumentsAhead?_append hx]
  simp only [stepWord_append _ _ _ hx]

/-- Up to a brace, a text is read alike whatever follows the brace. -/
theorem Reads.swap {s t : Scan} {k : List Char} (h : Reads s (k ++ '{' :: ys) t ('{' :: ys))
    (zs : List Char) : Reads s (k ++ '{' :: zs) t ('{' :: zs) := by
  induction k generalizing s with
  | nil =>
    rw [h.unique (.done s ('{' :: ys))]
    exact .done _ _
  | cons c k ih =>
    rw [List.cons_append] at h
    generalize hxs : k ++ '{' :: ys = xs at h
    cases h with
    | done =>
      have := congrArg List.length hxs
      simp at this
      omega
    | step hs h =>
      subst hxs
      refine .step ?_ (ih h)
      have hmem : '{' ∈ k ++ ['{'] := by simp
      show Region.step s c (k ++ '{' :: zs) = _
      rw [List.append_cons, step_append s c hmem] at hs ⊢
      exact hs

end Ahead

/-! ## Looking back as far as a character that is no blank -/

/-- The scanner looks for this character behind it in no place: it is in no word, no mark of
an annotation and no operator. -/
def isQuiet (c : Char) : Bool := !(isWordChar c || c = '@' || continuationMarks.contains c)

/-- Behind blanks, the text that was read ends in a quiet character, if there is one. -/
def Quiet (b : List Char) : Prop := ∀ z ∈ (skipBlanks b).head?, isQuiet z

/-- A character that is no blank was read alike behind both places, with all that
follows it, and no word runs into it; or what was not read alike is quiet. -/
inductive SameBehind : List Char → List Char → Prop
  | solid (q : List Char) {z : Char} {x x' : List Char} : isBlank z = false →
      (isWordChar z → x.head?.any isWordChar = false ∧ x'.head?.any isWordChar = false) →
      SameBehind (q ++ z :: x) (q ++ z :: x')
  | quiet (q : List Char) {u u' : List Char} : Quiet u → Quiet u' → SameBehind (q ++ u) (q ++ u')

theorem isQuiet_of_isBlank {c : Char} (hc : isBlank c) : isQuiet c := by
  rcases (isBlank_iff c).1 hc with rfl | rfl | rfl | rfl <;> decide

namespace Quiet

variable {u : List Char}

theorem skipBlanks (h : Quiet u) : Quiet (skipBlanks u) := by
  unfold Quiet Region.skipBlanks at *
  rwa [List.dropWhile_idempotent isBlank u]

theorem of_blanks {b : List Char} (hb : ∀ c ∈ b, isBlank c) : Quiet b := by
  have hnil : Region.skipBlanks b = [] := List.dropWhile_eq_nil_iff.2 hb
  unfold Quiet
  rw [hnil]
  nofun

theorem of_cons {z : Char} {x : List Char} (hz : isBlank z = false) (hq : isQuiet z) :
    Quiet (z :: x) := by
  unfold Quiet Region.skipBlanks
  rw [List.dropWhile_cons, if_neg (by simp [hz])]
  rintro _ ⟨⟩
  exact hq

theorem head? (h : Quiet u) : ∀ c ∈ u.head?, isQuiet c := by
  cases u with
  | nil => nofun
  | cons c u =>
    rintro _ ⟨⟩
    cases hc : isBlank c with
    | true => exact isQuiet_of_isBlank hc
    | false =>
      refine h c ?_
      unfold Region.skipBlanks
      rw [List.dropWhile_cons, if_neg (by simp [hc])]
      rfl

theorem any_head? (h : Quiet u) {p : Char → Bool} (hp : ∀ c, isQuiet c → p c = false) :
    u.head?.any p = false := by
  cases u with
  | nil => rfl
  | cons c u => exact hp c (h.head? c rfl)

end Quiet

theorem isWordChar_of_isQuiet {c : Char} (hc : isQuiet c) : isWordChar c = false := by
  simp only [isQuiet, Bool.not_eq_true', Bool.or_eq_false_iff] at hc
  exact hc.1.1

namespace SameBehind

variable {b b' : List Char}

theorem cons (h : SameBehind b b') (c : Char) : SameBehind (c :: b) (c :: b') := by
  cases h with
  | solid q hz hw => exact .solid (c :: q) hz hw
  | quiet q hu hu' => exact .quiet (c :: q) hu hu'

/-- Whatever is looked for in the last character is seen in both texts. -/
theorem any_head?_eq (h : SameBehind b b') {p : Char → Bool} (hp : ∀ c, isQuiet c → p c = false) :
    b.head?.any p = b'.head?.any p := by
  cases h with
  | solid q => cases q <;> rfl
  | quiet q hu hu' =>
    cases q with
    | nil => exact (hu.any_head? hp).trans (hu'.any_head? hp).symm
    | cons c q => rfl

theorem insideWord_eq (h : SameBehind b b') (atTop : Bool) :
    insideWord atTop b = insideWord atTop b' := by
  refine h.any_head?_eq fun c hc => ?_
  simp only [isQuiet, Bool.not_eq_true', Bool.or_eq_false_iff] at hc
  rw [hc.1.1, hc.1.2, Bool.and_false, Bool.or_false]

theorem head?_eq_star_iff (h : SameBehind b b') : b.head? = some '*' ↔ b'.head? = some '*' := by
  have hany := h.any_head?_eq (p := (· = '*')) fun c hc => by
    refine decide_eq_false ?_
    rintro rfl
    exact absurd hc (by decide)
  have iff_any (l : List Char) : l.head? = some '*' ↔ l.head?.any (· = '*') := by
    cases l <;> simp
  rw [iff_any, iff_any, hany]

/-- Behind the blanks, the same is seen. -/
theorem skipBlanks (h : SameBehind b b') : SameBehind (skipBlanks b) (skipBlanks b') := by
  cases h with
  | solid q hz hw =>
    unfold Region.skipBlanks
    rw [dropWhile_append_cons q hz, dropWhile_append_cons q hz]
    exact .solid _ hz hw
  | quiet q hu hu' =>
    unfold Region.skipBlanks
    rw [List.dropWhile_append, List.dropWhile_append]
    split
    · exact .quiet [] hu.skipBlanks hu'.skipBlanks
    · exact .quiet _ hu hu'

theorem takeWhile_eq (h : SameBehind b b') : b.takeWhile isWordChar = b'.takeWhile isWordChar := by
  have short (q : List Char) {x : List Char} (hx : x.head?.any isWordChar = false) :
      (q ++ x).takeWhile isWordChar = q.takeWhile isWordChar := by
    cases x with
    | nil => rw [List.append_nil]
    | cons y x => exact takeWhile_append_cons q hx
  cases h with
  | quiet q hu hu' =>
    rw [short q (hu.any_head? fun _ => isWordChar_of_isQuiet),
      short q (hu'.any_head? fun _ => isWordChar_of_isQuiet)]
  | @solid q z x x' _ h =>
    cases hz : isWordChar z with
    | false => rw [takeWhile_append_cons q hz, takeWhile_append_cons q hz]
    | true =>
      have whole {x : List Char} (hx : x.head?.any isWordChar = false) :
          (q ++ z :: x).takeWhile isWordChar = (q ++ [z]).takeWhile isWordChar := by
        rw [List.append_cons, short _ hx]
      exact (whole (h hz).1).trans (whole (h hz).2).symm

theorem headAt_eq (h : SameBehind b b') (ahead : List Char) : headAt b ahead = headAt b' ahead := by
  have hmarks : continuesExpression b = continuesExpression b' :=
    h.skipBlanks.any_head?_eq fun c hc => by
      simp only [isQuiet, Bool.not_eq_true', Bool.or_eq_false_iff] at hc
      exact hc.2
  unfold headAt declares? followsBindingWord
  rw [hmarks, h.skipBlanks.takeWhile_eq]

end SameBehind

/-! ## Taking the same steps -/

/-- The frames are the same, but `n` bytes of one text stand for `m` of the other. -/
inductive Frame.Beside (n m : Nat) : Frame → Frame → Prop
  | main (d : Nat) : Beside n m (.main d) (.main d)
  | annotationArgs {x y : Nat} : x + m = y + n → Beside n m (.annotationArgs x) (.annotationArgs y)
  | quoted {x y : Nat} (e : Bool) : x + m = y + n → Beside n m (.quoted x e) (.quoted y e)
  | lineComment {x y : Nat} : x + m = y + n → Beside n m (.lineComment x) (.lineComment y)
  | blockComment {x y : Nat} : x + m = y + n → Beside n m (.blockComment x) (.blockComment y)
  | shell {x y : Nat} (d : Nat) (e : Bool) : x + m = y + n → Beside n m (.shell x d e) (.shell y d e)
  | region {x y : Nat} (kind : Kind) (d : Nat) (o : Bool) : x + m = y + n →
      Beside n m (.region kind x d o) (.region kind y d o)

/-- The second region is the first one in the other text. -/
structure Moved (n m : Nat) (r r' : Region) : Prop where
  kind_eq : r'.kind = r.kind
  start_eq : r.start + m = r'.start + n
  stop_eq : r.stop + m = r'.stop + n

/-- The scanners stand side by side, and behind `old` and `old'` they have found the same. -/
structure Scan.Beside (n m : Nat) (old old' : List Region) (s s' : Scan) : Prop where
  behind : SameBehind s.before s'.before
  offset : s.offset + m = s'.offset + n
  stack : List.Forall₂ (Frame.Beside n m) s.stack s'.stack
  pending : Option.Rel (fun x y => x + m = y + n) s.pending s'.pending
  found : ∃ new new', s.found = new ++ old ∧ s'.found = new' ++ old' ∧
    List.Forall₂ (Moved n m) new new'

theorem Frame.Beside.isTopLevel_eq {n m : Nat} {f f' : Frame} (h : f.Beside n m f') :
    f.isTopLevel = f'.isTopLevel := by
  cases h <;> rfl

theorem Frame.Beside.isCode {n m : Nat} {f f' : Frame} (h : f.Beside n m f') (hf : f.IsCode) :
    f'.IsCode := by
  cases h <;> exact hf

namespace Scan.Beside

variable {n m : Nat} {old old' : List Region} {s s' t : Scan} {c : Char} {rest : List Char}

theorem advance (h : s.Beside n m old old' s') (c : Char) :
    (s.advance c).Beside n m old old' (s'.advance c) where
  behind := h.behind.cons c
  offset := by
    have := h.offset
    simp only [offset_advance]
    omega
  stack := h.stack
  pending := h.pending
  found := h.found

theorem dropPendingIf (h : s.Beside n m old old' s') (b : Bool) :
    (s.dropPendingIf b).Beside n m old old' (s'.dropPendingIf b) := by
  cases b with
  | false => exact h
  | true => exact ⟨h.behind, h.offset, h.stack, .none, h.found⟩

theorem withStack (h : s.Beside n m old old' s') {fs fs' : List Frame}
    (hs : List.Forall₂ (Frame.Beside n m) fs fs') :
    { s with stack := fs }.Beside n m old old' { s' with stack := fs' } :=
  ⟨h.behind, h.offset, hs, h.pending, h.found⟩

theorem push (h : s.Beside n m old old' s') {f f' : Frame} (hf : f.Beside n m f') :
    (s.push f).Beside n m old old' (s'.push f') :=
  h.withStack (.cons hf h.stack)

/-- Where annotations wait that may begin here. -/
theorem pending_getD (h : s.Beside n m old old' s') :
    s.pending.getD s.offset + m = s'.pending.getD s'.offset + n := by
  have hp := h.pending
  cases hs : s.pending with
  | none =>
    rw [hs] at hp
    cases hs' : s'.pending with
    | none => exact h.offset
    | some y => rw [hs'] at hp; cases hp
  | some x =>
    rw [hs] at hp
    cases hs' : s'.pending with
    | none => rw [hs'] at hp; cases hp
    | some y =>
      rw [hs'] at hp
      cases hp with
      | some hp => exact hp

theorem await (h : s.Beside n m old old' s') :
    { s.advance '@' with pending := some (s.pending.getD s.offset) }.Beside n m old old'
      { s'.advance '@' with pending := some (s'.pending.getD s'.offset) } := by
  have hpending : Option.Rel (fun x y => x + m = y + n) (some (s.pending.getD s.offset))
      (some (s'.pending.getD s'.offset)) := .some h.pending_getD
  have hnext := h.advance '@'
  exact ⟨hnext.behind, hnext.offset, hnext.stack, hpending, hnext.found⟩

theorem stepWord (h : s.Beside n m old old' s') {f f' : Frame} (hf : f.Beside n m f') (c : Char)
    (rest : List Char) :
    (Region.stepWord s f c rest).Beside n m old old' (Region.stepWord s' f' c rest) := by
  cases hf with
  | main d =>
    rw [stepWord_main, stepWord_main, h.behind.headAt_eq]
    split
    · exact ((h.advance c).dropPendingIf true).push (.shell 1 false h.offset)
    split
    · exact h.advance c
    split
    · exact (h.advance c).dropPendingIf true
    · exact ((h.advance c).dropPendingIf true).push (.region .endpoint 0 false h.pending_getD)
    · exact ((h.advance c).dropPendingIf true).push (.region .flow 0 false h.offset)
  | _ => exact h.advance c

/-- A closing brace finds the same region, if any. -/
theorem closeBrace (h : s.Beside n m old old' s') {f f' : Frame} {below below' : List Frame}
    (hf : f.Beside n m f') (hb : List.Forall₂ (Frame.Beside n m) below below') :
    (Region.closeBrace s f below).Beside n m old old' (Region.closeBrace s' f' below') := by
  cases hf with
  | main d => exact h.withStack (.cons (.main (d - 1)) hb)
  | @region x y kind d o hxy =>
    unfold Region.closeBrace
    dsimp only
    split
    · obtain ⟨new, new', hnew, hnew', hmoved⟩ := h.found
      refine ⟨h.behind, h.offset, hb, h.pending, ⟨kind, x, s.offset⟩ :: new,
        ⟨kind, y, s'.offset⟩ :: new', ?_, ?_, .cons ⟨rfl, hxy, h.offset⟩ hmoved⟩
      · rw [hnew]; rfl
      · rw [hnew']; rfl
    · exact h.withStack (.cons (.region kind (d - 1) o hxy) hb)
  | _ => exact h

theorem codeStep (h : s.Beside n m old old' s') {f f' : Frame} {below below' : List Frame}
    (hs : s.stack = f :: below) (hf : f.Beside n m f')
    (hb : List.Forall₂ (Frame.Beside n m) below below') (ht : CodeStep s f below c rest t) :
    ∃ t', CodeStep s' f' below' c rest t' ∧ t.Beside n m old old' t' := by
  have htop := hf.isTopLevel_eq
  cases ht with
  | blank hc => exact ⟨_, .blank hc, h.advance c⟩
  | lineComment => exact ⟨_, .lineComment, (h.advance '/').push (.lineComment h.offset)⟩
  | blockComment => exact ⟨_, .blockComment, (h.advance '/').push (.blockComment h.offset)⟩
  | quote =>
    rw [htop]
    exact ⟨_, .quote, ((h.advance '"').dropPendingIf _).push (.quoted false h.offset)⟩
  | openBrace =>
    refine ⟨_, .openBrace, ?_⟩
    rw [htop]
    have hnext := (h.advance '{').dropPendingIf f'.isTopLevel
    cases hf with
    | main d => exact hnext.withStack (.cons (.main (d + 1)) hb)
    | region kind d o hxy => exact hnext.withStack (.cons (.region kind (d + 1) true hxy) hb)
    | _ => exact hnext
  | closeBrace => exact ⟨_, .closeBrace, (h.advance '}').closeBrace hf hb⟩
  | @withArguments _ gap ht ha =>
    refine ⟨_, .withArguments (htop ▸ ht) ha, h.await.push (.annotationArgs ?_)⟩
    have := (h.advance '@').offset
    omega
  | withoutArguments ht ha => exact ⟨_, .withoutArguments (htop ▸ ht) ha, h.await⟩
  | insideWord hc hi =>
    rw [htop, h.behind.insideWord_eq] at hi
    exact ⟨_, .insideWord hc hi, h.advance c⟩
  | word hc hi =>
    rw [htop, h.behind.insideWord_eq] at hi
    exact ⟨_, .word hc hi, h.stepWord hf c rest⟩
  | other hb hw hn hx ha =>
    rw [htop] at ha ⊢
    exact ⟨_, .other hb hw hn hx ha, (h.advance c).dropPendingIf _⟩

section

variable {below below' : List Frame} (hb : List.Forall₂ (Frame.Beside n m) below below')
include hb

theorem stepAnnotationArgs (h : s.Beside n m old old' s') (c : Char) :
    (Region.stepAnnotationArgs s below c).Beside n m old old' (Region.stepAnnotationArgs s' below' c) := by
  have hnext := h.advance c
  unfold Region.stepAnnotationArgs
  dsimp only
  split
  · exact hnext.push (.quoted false h.offset)
  split
  · exact hnext.withStack hb
  · exact hnext

theorem stepQuoted (h : s.Beside n m old old' s') {x y : Nat} (hxy : x + m = y + n) (e : Bool)
    (c : Char) :
    (Region.stepQuoted s x e below c).Beside n m old old' (Region.stepQuoted s' y e below' c) := by
  have hnext := h.advance c
  unfold Region.stepQuoted
  dsimp only
  split
  · exact hnext.withStack (.cons (.quoted false hxy) hb)
  split
  · exact hnext.withStack (.cons (.quoted true hxy) hb)
  split
  · exact hnext.withStack hb
  · exact hnext

theorem stepLineComment (h : s.Beside n m old old' s') (c : Char) :
    (Region.stepLineComment s below c).Beside n m old old' (Region.stepLineComment s' below' c) := by
  have hnext := h.advance c
  unfold Region.stepLineComment
  dsimp only
  split
  · exact hnext.withStack hb
  · exact hnext

/-- Both scanners see whether the star was there before, and how far the comment has come. -/
theorem stepBlockComment (h : s.Beside n m old old' s') {x y : Nat} (hxy : x + m = y + n) (c : Char) :
    (Region.stepBlockComment s x below c).Beside n m old old' (Region.stepBlockComment s' y below' c) := by
  have hnext := h.advance c
  have hoffset := h.offset
  have hle : decide (x + 3 ≤ s.offset) = decide (y + 3 ≤ s'.offset) :=
    decide_eq_decide.2 (by omega)
  have hstar : decide (s.before.head? = some '*') = decide (s'.before.head? = some '*') :=
    decide_eq_decide.2 h.behind.head?_eq_star_iff
  unfold Region.stepBlockComment
  rw [hstar, hle]
  dsimp only
  split
  · exact hnext.withStack hb
  · exact hnext

theorem stepShell (h : s.Beside n m old old' s') {x y : Nat} (hxy : x + m = y + n) (d : Nat)
    (e : Bool) (c : Char) :
    (Region.stepShell s x d e below c).Beside n m old old' (Region.stepShell s' y d e below' c) := by
  have hnext := h.advance c
  unfold Region.stepShell
  dsimp only
  split
  · exact hnext.withStack (.cons (.shell _ true hxy) hb)
  split
  · split
    · exact hnext.withStack hb
    · exact hnext.withStack (.cons (.shell _ e hxy) hb)
  · exact hnext

end

/-- Scanners side by side take the same step. -/
theorem step (h : s.Beside n m old old' s') (ht : Region.step s c rest = .ok t) :
    ∃ t', Region.step s' c rest = .ok t' ∧ t.Beside n m old old' t' := by
  have hstack := h.stack
  cases hs : s.stack with
  | nil =>
    have hs' : s'.stack = [] := List.forall₂_nil_left_iff.1 (hs ▸ hstack)
    rw [step_nil s c rest hs] at ht
    cases ht
    exact ⟨_, step_nil s' c rest hs', h.advance c⟩
  | cons f below =>
    obtain ⟨f', below', hf, hb, hs'⟩ := List.forall₂_cons_left_iff.1 (hs ▸ hstack)
    by_cases hcode : f.IsCode
    · obtain ⟨t', ht', hbeside⟩ :=
        h.codeStep hs hf hb ((step_code_iff s t f below c rest hs hcode).1 ht)
      exact ⟨t', (step_code_iff s' t' f' below' c rest hs' (hf.isCode hcode)).2 ht', hbeside⟩
    unfold Region.step at ht ⊢
    rw [hs] at ht
    rw [hs']
    cases hf with
    | main | region => exact absurd trivial hcode
    | annotationArgs =>
      cases ht
      exact ⟨_, rfl, h.stepAnnotationArgs hb c⟩
    | quoted e hxy =>
      cases ht
      exact ⟨_, rfl, h.stepQuoted hb hxy e c⟩
    | lineComment =>
      cases ht
      exact ⟨_, rfl, h.stepLineComment hb c⟩
    | blockComment hxy =>
      cases ht
      exact ⟨_, rfl, h.stepBlockComment hb hxy c⟩
    | shell d e hxy =>
      cases ht
      exact ⟨_, rfl, h.stepShell hb hxy d e c⟩

/-- Scanners side by side read the same. -/
theorem reads {xs ys : List Char} (h : s.Beside n m old old' s') (hr : Reads s xs t ys) :
    ∃ t', Reads s' xs t' ys ∧ t.Beside n m old old' t' := by
  induction hr generalizing s' with
  | done => exact ⟨s', .done _ _, h⟩
  | step hs _ ih =>
    obtain ⟨u, hu, hbeside⟩ := h.step hs
    obtain ⟨t', ht', hbeside⟩ := ih hbeside
    exact ⟨t', .step hu ht', hbeside⟩

/-- Where one of them may stop, the other may. -/
theorem closed (h : s.Beside n m old old' s') (hs : Closed s.stack) : Closed s'.stack := by
  have hstack := h.stack
  generalize s.stack = fs at hs hstack
  generalize s'.stack = fs' at hstack
  induction hstack with
  | nil => nofun
  | @cons f f' fs fs' hf _ ih =>
    intro g hg
    rcases List.mem_cons.1 hg with rfl | hg
    · have := hs f List.mem_cons_self
      cases hf <;> first | rfl | cases this
    · exact ih (fun f hf => hs f (List.mem_cons_of_mem _ hf)) g hg

/-- Two texts that come to scanners side by side are cut alike further on. -/
theorem find {text text' : List Char} {regions : List Region} (h : s.Beside n m old old' s')
    (hs : Reads .start text s rest) (hs' : Reads .start text' s' rest)
    (hf : Region.find text = .ok regions) :
    ∃ new new', regions = old.reverse ++ new ∧ Region.find text' = .ok (old'.reverse ++ new') ∧
      List.Forall₂ (Moved n m) new new' := by
  obtain ⟨t, ht, hcl, rfl⟩ := (find_eq_ok_iff text regions).1 hf
  obtain ⟨t', ht', hbeside⟩ := h.reads (ht.rest hs)
  obtain ⟨new, new', hnew, hnew', hmoved⟩ := hbeside.found
  refine ⟨new.reverse, new'.reverse, ?_, ?_, List.rel_reverse hmoved⟩
  · rw [hnew, List.reverse_append]
  · rw [← List.reverse_append, ← hnew']
    exact (find_eq_ok_iff _ _).2 ⟨t', hs'.trans ht', hbeside.closed hcl, rfl⟩

end Scan.Beside

end ServiceLang.Region
