import ServiceLang.Proofs.Region.Opened

/-!
Annotations in front of an endpoint, as the scanner reads them.

A region that the scanner opens at a word goes up to the end of the text if its braces do
(`find_of_opensRegion`).  Whether an endpoint and its annotations are one region is decided on
the way to the keyword: `InHead` holds as long as everything read since the start of the text
belongs to the endpoint that comes.  An annotation keeps it if its name stands right behind its
mark (`InHead.withoutArguments`, `InHead.withArguments`), and otherwise the annotation is lost
(`InHead.find_ne_of_blank`).  At the keyword, a binding word before it is all that
can go wrong (`InHead.find_iff_of_keyword`).
-/

namespace ServiceLang.Region

/-! ## Words and what follows them -/

section

variable {w after : List Char}

theorem takeWhile_word (hw : ∀ x ∈ w, isWordChar x) (ha : after.head?.any isWordChar = false) :
    (w ++ after).takeWhile isWordChar = w ∧ (w ++ after).dropWhile isWordChar = after := by
  rw [List.takeWhile_append_of_pos hw, List.dropWhile_append_of_pos hw]
  cases after with
  | nil => simp
  | cons x after =>
    have hx : isWordChar x = false := ha
    simp [hx]

/-- What the word ahead opens is decided by the text around it. -/
theorem headAt_append (before : List Char) (hw : ∀ x ∈ w, isWordChar x)
    (ha : after.head?.any isWordChar = false) :
    headAt before (w ++ after) = declares? before (String.ofList w) after := by
  unfold headAt
  rw [(takeWhile_word hw ha).1, (takeWhile_word hw ha).2]

theorem execAt_append (hw : ∀ x ∈ w, isWordChar x) (ha : after.head?.any isWordChar = false) :
    execAt (w ++ after) = (String.ofList w = "exec" && nextIs '\x7b' after) := by
  unfold execAt
  rw [(takeWhile_word hw ha).1, (takeWhile_word hw ha).2]

end

section

variable {bs : List Char} (hbs : ∀ x ∈ bs, isBlank x)
include hbs

theorem skipBlanks_append (ys : List Char) : skipBlanks (bs ++ ys) = skipBlanks ys :=
  List.dropWhile_append_of_pos hbs

theorem nextIs_append_blanks (c : Char) (ys : List Char) : nextIs c (bs ++ ys) = nextIs c ys := by
  unfold nextIs
  rw [skipBlanks_append hbs]

theorem followedByMethodAndPath_append_blanks (ys : List Char) :
    followedByMethodAndPath (bs ++ ys) = followedByMethodAndPath ys := by
  unfold followedByMethodAndPath
  rw [skipBlanks_append hbs]

theorem continuesExpression_append_blanks (ys : List Char) :
    continuesExpression (bs ++ ys) = continuesExpression ys := by
  unfold continuesExpression
  rw [skipBlanks_append hbs]

theorem head?_append_any_isWordChar {ys : List Char} (hy : ys.head?.any isWordChar = false) :
    (bs ++ ys).head?.any isWordChar = false := by
  cases bs with
  | nil => exact hy
  | cons b bs =>
    rcases (isBlank_iff b).1 (hbs b List.mem_cons_self) with rfl | rfl | rfl | rfl <;> rfl

end

/-- Nothing is skipped before a character that is no blank. -/
theorem skipBlanks_cons {x : Char} (hx : isBlank x = false) (xs : List Char) :
    skipBlanks (x :: xs) = x :: xs :=
  List.dropWhile_cons_of_neg (by simp [hx])

theorem continuesExpression_cons_eq_false {x : Char} (hx : isBlank x = false) (hm : x ∉ continuationMarks)
    (xs : List Char) : continuesExpression (x :: xs) = false := by
  unfold continuesExpression
  rw [skipBlanks_cons hx]
  simpa using hm

theorem not_mem_continuationMarks {x : Char} (h : isWordChar x) : x ∉ continuationMarks := by
  intro hx
  have all : ∀ y ∈ continuationMarks, isWordChar y = false := by decide
  rw [all x hx] at h
  cases h

/-- A name and a brace, with blanks before each of them. -/
theorem followedByNameAndBrace_of_name {bs name bs' : List Char} (hbs : ∀ x ∈ bs, isBlank x)
    (hstart : name.head?.any isWordStart) (hname : ∀ x ∈ name, isWordChar x)
    (hbs' : ∀ x ∈ bs', isBlank x) (ys : List Char) :
    followedByNameAndBrace (bs ++ (name ++ (bs' ++ '{' :: ys))) := by
  cases name with
  | nil => cases hstart
  | cons x name =>
    have hx := isBlank_eq_false_of_isWordChar x (hname x List.mem_cons_self)
    have hbehind : (bs' ++ '{' :: ys).head?.any isWordChar = false := head?_append_any_isWordChar hbs' rfl
    unfold followedByNameAndBrace
    rw [skipBlanks_append hbs, List.cons_append, skipBlanks_cons hx, ← List.cons_append]
    dsimp only
    rw [(takeWhile_word hname hbehind).2, (nextIs_iff '{' _ rfl).2 ⟨bs', ys, rfl, hbs'⟩, Bool.and_true]
    exact hstart

/-- A method and a path, with blanks before each of them. -/
theorem followedByMethodAndPath_of_method {bs method bs' : List Char} (hbs : ∀ x ∈ bs, isBlank x)
    (hne : method ≠ []) (hmethod : ∀ x ∈ method, x.isAlpha) (hbs' : ∀ x ∈ bs', isBlank x)
    (ys : List Char) : followedByMethodAndPath (bs ++ (method ++ (bs' ++ '"' :: ys))) := by
  cases method with
  | nil => exact absurd rfl hne
  | cons x method =>
    have halpha := hmethod x List.mem_cons_self
    have hx := isBlank_eq_false_of_isWordChar x (isWordChar_of_isAlpha x halpha)
    have hdrop : (x :: method ++ (bs' ++ '"' :: ys)).dropWhile Char.isAlpha = bs' ++ '"' :: ys := by
      rw [List.dropWhile_append_of_pos hmethod]
      cases bs' with
      | nil => rfl
      | cons b bs' =>
        rcases (isBlank_iff b).1 (hbs' b List.mem_cons_self) with rfl | rfl | rfl | rfl <;> rfl
    unfold followedByMethodAndPath
    rw [skipBlanks_append hbs, List.cons_append, skipBlanks_cons hx, ← List.cons_append]
    dsimp only
    rw [hdrop, (nextIs_iff '"' _ rfl).2 ⟨bs', ys, rfl, hbs'⟩, Bool.and_true]
    exact halpha

theorem followedByMethodAndPath_of_declares? {before after : List Char} {word : String}
    (h : declares? before word after = some .endpoint) : followedByMethodAndPath after := by
  unfold declares? at h
  split at h
  · cases h
  split at h
  · split at h
    · next hpath => exact hpath
    · cases h
  split at h
  · split at h <;> cases h
  · cases h

/-! ## One region -/

section

variable {text : List Char} {s : Scan} {c : Char} {rest : List Char}

/-- A word that opens a region whose braces close with the text, and nothing found before it. -/
theorem find_of_opensRegion {kind : Kind} (h : Reads .start text s (c :: rest))
    (hs : s.stack = [.main 0]) (hf : s.found = []) (ho : OpensRegion s c rest kind)
    (hb : BracesTo 0 rest) :
    find text = .ok [⟨kind, Scanned.regionStart s kind, byteLength text⟩] := by
  obtain ⟨htext, hoffset⟩ := h.before_start
  have hopen := h.trans (Reads.code hs trivial ho.codeStep)
  have hstack : (s.openRegion c kind).stack =
      .region kind (Scanned.regionStart s kind) 0 (0 < 0) :: s.stack := by
    simp [Scan.openRegion, Scan.push]
  have hclose := Reads.region kind _ _ hb (s.openRegion c kind) hstack []
  rw [List.append_nil] at hclose
  refine (find_eq_ok_iff text _).2 ⟨_, hopen.trans hclose, ?_, ?_⟩
  · intro f hfm
    have hfm : f ∈ s.stack := hfm
    rw [hs] at hfm
    rw [List.mem_singleton.1 hfm]
    rfl
  · have hstop : byteLength text = s.offset + c.utf8Size + byteLength rest := by
      rw [htext, byteLength_append, byteLength_cons, hoffset, Nat.add_assoc]
    simp [Scan.closeRegion, Scan.openRegion, Scan.push, hf, hstop]

/-- Behind a word at which no endpoint opens, no endpoint is found that starts with the text. -/
theorem find_ne_of_headAt_ne {n : Nat} (h : Reads .start text s (c :: rest))
    (hs : s.stack = [.main 0]) (hf : s.found = []) (hc : isWordChar c)
    (hi : insideWord true s.before = false) (hx : execAt (c :: rest) = false)
    (hne : headAt s.before (c :: rest) ≠ some .endpoint) : find text ≠ .ok [⟨.endpoint, 0, n⟩] := by
  intro hfind
  obtain ⟨t, ht, hclosed, hfound⟩ := (find_eq_ok_iff text _).1 hfind
  have hfound : t.found = [⟨.endpoint, 0, n⟩] := by
    rw [← List.reverse_inj, ← hfound]
    rfl
  rcases found_of_headAt hs hc hi hx (ht.rest h) hclosed with ⟨-, hstarts⟩ | ⟨kind, more, stop, hkind, hmore⟩
  · obtain ⟨more, hmore, hall⟩ := hstarts.found_eq
    rw [hf, List.append_nil] at hmore
    have := hall ⟨.endpoint, 0, n⟩ (by rw [← hmore, hfound]; exact List.mem_singleton_self _)
    exact absurd this (Nat.not_succ_le_zero _)
  · rw [hf, hfound] at hmore
    have hlast := congrArg List.getLast? hmore
    rw [List.getLast?_append] at hlast
    have heq : (⟨.endpoint, 0, n⟩ : Region) = ⟨kind, Scanned.regionStart s kind, stop⟩ :=
      Option.some.inj hlast
    obtain rfl : Kind.endpoint = kind := congrArg Region.kind heq
    exact hne hkind

end

/-! ## Annotations -/

/-- Characters that neither begin a string nor end the arguments. -/
theorem ArgsTail.append_of_ne {k args : List Char} (hk : ∀ x ∈ k, x ≠ '"' ∧ x ≠ ')')
    (h : ArgsTail args) : ArgsTail (k ++ args) := by
  induction k with
  | nil => exact h
  | cons x k ih =>
    obtain ⟨hquote, hclose⟩ := hk x List.mem_cons_self
    exact .char hquote hclose (ih fun y hy => hk y (List.mem_cons_of_mem x hy))

/-- All that has been read belongs to the endpoint that comes. -/
structure InHead (text : List Char) (s : Scan) (ahead : List Char) : Prop where
  reads : Reads .start text s ahead
  stack_eq : s.stack = [.main 0]
  found_eq : s.found = []
  start_eq : s.pending.getD s.offset = 0
  expression : continuesExpression s.before = false
  word : ahead.head?.any isWordChar → insideWord true s.before = false

namespace InHead

variable {text ahead name gap args bs ys : List Char} {s : Scan}

theorem start (text : List Char) : InHead text .start text where
  reads := .done _ _
  stack_eq := rfl
  found_eq := rfl
  start_eq := rfl
  expression := rfl
  word := fun _ => rfl

/-- Behind an annotation and the blanks after it, the next may come, or the keyword. -/
theorem annotated {u : Scan} (x : Char) (before : List Char) (h : InHead text s ahead)
    (hr : Reads s ahead u (bs ++ ys)) (hs : u.stack = [.main 0]) (hf : u.found = s.found)
    (hp : u.pending = some (s.pending.getD s.offset)) (hb : u.before = x :: before)
    (hx : x ∉ continuationMarks) (hxb : isBlank x = false) (hbs : ∀ x ∈ bs, isBlank x)
    (hword : (bs ++ ys).head?.any isWordChar → insideWord true (x :: before) = false) :
    InHead text (u.after bs) ys where
  reads := (h.reads.trans hr).trans (.blanks hs trivial hbs ys)
  stack_eq := hs
  found_eq := hf.trans h.found_eq
  start_eq := by rw [Scan.pending_after, hp, h.start_eq]; rfl
  expression := by
    have hrev : ∀ x ∈ bs.reverse, isBlank x := fun x hx => hbs x (List.mem_reverse.1 hx)
    rw [Scan.before_after, hb, continuesExpression_append_blanks hrev]
    exact continuesExpression_cons_eq_false hxb hx before
  word := by
    intro hy
    rw [Scan.before_after, hb]
    rcases List.eq_nil_or_concat bs with rfl | ⟨bs, b, rfl⟩
    · exact hword hy
    · have hblank := hbs b (by simp)
      rw [List.concat_eq_append, List.reverse_append]
      exact insideWord_of_isBlank true b _ hblank

/-- An annotation without arguments, its name right behind its mark. -/
theorem withoutArguments (h : InHead text s ('@' :: (name ++ (bs ++ ys)))) (hne : name ≠ [])
    (hname : ∀ x ∈ name, isWordChar x) (hbs : ∀ x ∈ bs, isBlank x)
    (hend : (bs ++ ys).head?.any isWordChar = false) (hargs : nextIs '(' ys = false) :
    ∃ u, InHead text u ys := by
  have hnone : argumentsAhead? (name ++ (bs ++ ys)) = none := by
    unfold argumentsAhead?
    dsimp only
    rw [(takeWhile_word hname hend).2, nextIs_append_blanks hbs, hargs]
    rfl
  have hmark := Reads.code h.stack_eq trivial (.withoutArguments rfl hnone)
  have hword := Reads.wordTail (s := { s.advance '@' with pending := some (s.pending.getD s.offset) })
    h.stack_eq trivial rfl hname (bs ++ ys)
  obtain ⟨k, x, rfl⟩ := (List.eq_nil_or_concat name).resolve_left hne
  have hx := hname x (by simp)
  refine ⟨_, annotated x (k.reverse ++ '@' :: s.before) h (hmark.trans hword) h.stack_eq rfl rfl ?_
    (not_mem_continuationMarks hx) (isBlank_eq_false_of_isWordChar x hx) hbs fun hy => ?_⟩
  · rw [Scan.before_after, List.concat_eq_append, List.reverse_append]
    rfl
  · rw [hend] at hy
    cases hy

/-- An annotation with arguments, its name right behind its mark. -/
theorem withArguments (h : InHead text s ('@' :: (name ++ (gap ++ '(' :: (args ++ (bs ++ ys))))))
    (hname : ∀ x ∈ name, isWordChar x) (hgap : ∀ x ∈ gap, isBlank x) (hargs : ArgsTail args)
    (hbs : ∀ x ∈ bs, isBlank x) : ∃ u, InHead text u ys := by
  have hend : (gap ++ '(' :: (args ++ (bs ++ ys))).head?.any isWordChar = false :=
    head?_append_any_isWordChar hgap rfl
  obtain ⟨n, hsome⟩ : ∃ n, argumentsAhead? (name ++ (gap ++ '(' :: (args ++ (bs ++ ys)))) = some n := by
    unfold argumentsAhead?
    dsimp only
    rw [(takeWhile_word hname hend).2, (nextIs_iff '(' _ rfl).2 ⟨gap, _, rfl, hgap⟩]
    exact ⟨_, rfl⟩
  have hmark := Reads.code h.stack_eq trivial (.withArguments rfl hsome)
  -- the scanner takes the name for a part of the arguments
  have htail : ArgsTail (name ++ (gap ++ '(' :: args)) := by
    refine .append_of_ne (fun x hx => ?_) (.append_of_ne (fun x hx => ?_)
      (.char (by decide) (by decide) hargs))
    · exact ⟨ne_of_isWordChar x _ (hname x hx) rfl, ne_of_isWordChar x _ (hname x hx) rfl⟩
    · rcases (isBlank_iff x).1 (hgap x hx) with rfl | rfl | rfl | rfl <;> decide
  have hread := reads_annotationArgs _ htail ({ s.advance '@' with
    pending := some (s.pending.getD s.offset) }.push (.annotationArgs ((s.advance '@').offset + n)))
    _ s.stack (bs ++ ys) rfl
  have hahead : name ++ (gap ++ '(' :: args) ++ (bs ++ ys) =
      name ++ (gap ++ '(' :: (args ++ (bs ++ ys))) := by simp
  rw [hahead] at hread
  obtain ⟨k, hk⟩ : ∃ k, name ++ (gap ++ '(' :: args) = k ++ [')'] :=
    List.getLast?_eq_some_iff.1 htail.getLast?
  refine ⟨_, annotated ')' (k.reverse ++ '@' :: s.before) h (hmark.trans hread) h.stack_eq rfl rfl
    ?_ (by decide) rfl hbs fun _ => rfl⟩
  rw [Scan.before_after, hk, List.reverse_append]
  rfl

/-- An annotation whose name stands behind a blank is lost, and with it the start. -/
theorem find_ne_of_blank {b : Char} {n : Nat} (h : InHead text s ('@' :: b :: (bs ++ (name ++ ys))))
    (hb : isBlank b) (hbs : ∀ x ∈ bs, isBlank x) (hne : name ≠ []) (hname : ∀ x ∈ name, isWordChar x)
    (hend : ys.head?.any isWordChar = false) (hbrace : nextIs '{' ys = false)
    (hpath : followedByMethodAndPath ys = false) : find text ≠ .ok [⟨.endpoint, 0, n⟩] := by
  obtain ⟨x, name, rfl⟩ := List.exists_cons_of_ne_nil hne
  have hx := hname x List.mem_cons_self
  have hgap : ∀ y ∈ b :: bs, isBlank y := fun y hy => by
    rcases List.mem_cons.1 hy with rfl | hy
    · exact hb
    · exact hbs y hy
  have hnone : argumentsAhead? (b :: bs ++ (x :: name ++ ys)) = none := by
    have hword : isWordChar b = false := by
      rcases (isBlank_iff b).1 hb with rfl | rfl | rfl | rfl <;> rfl
    unfold argumentsAhead?
    dsimp only
    rw [List.cons_append, List.dropWhile_cons_of_neg (by simp [hword]), ← List.cons_append,
      nextIs_append_blanks hgap, nextIs, List.cons_append,
      skipBlanks_cons (isBlank_eq_false_of_isWordChar x hx)]
    refine if_neg fun h => ?_
    have h : x = '(' := by simpa using h
    exact ne_of_isWordChar x _ hx rfl h
  have hmark := Reads.code h.stack_eq trivial (.withoutArguments rfl hnone)
  have hblank := Reads.blanks (s := { s.advance '@' with pending := some (s.pending.getD s.offset) })
    h.stack_eq trivial hgap (x :: name ++ ys)
  refine find_ne_of_headAt_ne (h.reads.trans (hmark.trans hblank)) h.stack_eq h.found_eq hx ?_ ?_ ?_
  · obtain ⟨k, y, hk⟩ := (List.eq_nil_or_concat (b :: bs)).resolve_left (by simp)
    rw [Scan.before_after, hk, List.concat_eq_append, List.reverse_append]
    exact insideWord_of_isBlank true y _ (hgap y (by rw [hk]; simp))
  · change execAt (x :: name ++ ys) = false
    rw [execAt_append hname hend, hbrace, Bool.and_false]
  · change headAt _ (x :: name ++ ys) ≠ _
    rw [headAt_append _ hname hend]
    intro hdeclares
    rw [followedByMethodAndPath_of_declares? hdeclares] at hpath
    cases hpath

/-- At the keyword everything before it is its head, unless a word that binds names stands
right before. -/
theorem find_iff_of_keyword {c : Char} {k after : List Char} (h : InHead text s (c :: (k ++ after)))
    (hk : c :: k = "endpoint".toList) (hend : after.head?.any isWordChar = false)
    (hpath : followedByMethodAndPath after) (hbraces : BracesTo 0 (k ++ after)) :
    find text = .ok [⟨.endpoint, 0, byteLength text⟩] ↔ followsBindingWord s.before = false := by
  have hword : ∀ x ∈ c :: k, isWordChar x := by
    rw [hk]
    decide
  have hofList : String.ofList (c :: k) = "endpoint" := by rw [hk, String.ofList_toList]
  have hc := hword c List.mem_cons_self
  have hinside := h.word hc
  have hexec : execAt (c :: (k ++ after)) = false := by
    rw [← List.cons_append, execAt_append hword hend, hofList]
    rfl
  have hhead : headAt s.before (c :: (k ++ after)) =
      if followsBindingWord s.before then none else some .endpoint := by
    rw [← List.cons_append, headAt_append _ hword hend, hofList, declares?, h.expression,
      Bool.false_or, if_pos (rfl : "endpoint" = "endpoint"), hpath, if_pos rfl]
  constructor
  · intro hfind
    cases hbinding : followsBindingWord s.before with
    | false => rfl
    | true =>
      rw [hbinding, if_pos rfl] at hhead
      refine absurd hfind (find_ne_of_headAt_ne h.reads h.stack_eq h.found_eq hc hinside hexec ?_)
      rw [hhead]
      decide
  · intro hbinding
    rw [hbinding, if_neg (by decide)] at hhead
    have hopens : OpensRegion s c (k ++ after) .endpoint := ⟨hc, hinside, hhead, hexec⟩
    have hfind := find_of_opensRegion h.reads h.stack_eq h.found_eq hopens hbraces
    have hstart : Scanned.regionStart s .endpoint = 0 := h.start_eq
    rwa [hstart] at hfind

end InHead

end ServiceLang.Region
