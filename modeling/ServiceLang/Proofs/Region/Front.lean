import ServiceLang.Proofs.Region.Behind

/-!
The texts in front of a region and behind it are cut as texts of their own.

Where a region opens, the word or the mark ahead is nothing that the scanner looks for further in
front: it is no brace, parenthesis or quote, and the word is not followed by one (`Begins`).  So the
text in front is read alike whether the region comes behind it or nothing does (`Reads.front`),
and its regions are those that are found before (`find_front`).  With the text behind
(`find_behind`), a cut is put together from two cuts and the region (`cut_split`).
-/

namespace ServiceLang.Region

/-! ## Looking ahead as far as a region -/

/-- What stands ahead where a region opens. -/
structure Begins (x : Char) (ys : List Char) : Prop where
  isBlank_eq : isBlank x = false
  not_mem : x ∉ ['{', '(', '"', '/', '*']
  no_quote : isWordChar x → nextIs '"' ((x :: ys).dropWhile Char.isAlpha) = false
  no_brace : isWordChar x → nextIs '{' ((x :: ys).dropWhile isWordChar) = false

/-- No word and no mark of an annotation runs on from the text into the character. -/
def EndsBefore (u : List Char) (x : Char) : Prop :=
  isWordChar x → ∀ y ∈ u.getLast?, isWordChar y = false ∧ y ≠ '@'

variable {x c : Char} {u ys : List Char} {p : Char → Bool}

theorem EndsBefore.of_suffix {v : List Char} (h : EndsBefore u x) (hv : v <:+ u) : EndsBefore v x := by
  obtain ⟨w, rfl⟩ := hv
  intro hx y hy
  refine h hx y ?_
  rw [List.getLast?_append, hy]
  rfl

/-- What holds of no other than word characters ends in front of the region, if not at it. -/
theorem EndsBefore.exists_stop (h : EndsBefore u x) (hu : u ≠ []) (hx : isWordChar x)
    (hp : ∀ c, p c → isWordChar c) : ∃ y ∈ u, p y = false := by
  refine ⟨u.getLast hu, List.getLast_mem hu, ?_⟩
  have hlast := (h hx _ (List.getLast?_eq_some_getLast hu)).1
  by_contra hpy
  rw [hp _ (by simpa using hpy)] at hlast
  cases hlast

theorem EndsBefore.dropWhile_append (h : EndsBefore u x) (hu : u ≠ [] ∨ isWordChar x = false)
    (hp : ∀ c, p c → isWordChar c) : (u ++ x :: ys).dropWhile p = u.dropWhile p ++ x :: ys := by
  cases hx : isWordChar x with
  | false =>
    refine dropWhile_append_cons u ?_
    by_contra hpx
    rw [hp x (by simpa using hpx)] at hx
    cases hx
  | true =>
    obtain ⟨y, hy, hpy⟩ := h.exists_stop (hu.resolve_right (by simp [hx])) hx hp
    exact (dropWhile_append_of_mem _ hy hpy).1

theorem EndsBefore.takeWhile_append (h : EndsBefore u x) (hu : u ≠ [] ∨ isWordChar x = false) :
    (u ++ x :: ys).takeWhile isWordChar = u.takeWhile isWordChar := by
  cases hx : isWordChar x with
  | false => exact takeWhile_append_cons u hx
  | true =>
    obtain ⟨y, hy, hpy⟩ := h.exists_stop (hu.resolve_right (by simp [hx])) hx fun _ h => h
    exact takeWhile_append_of_mem hy hpy

theorem endsBefore_dropWhile (h : EndsBefore u x) (p : Char → Bool) : EndsBefore (u.dropWhile p) x :=
  h.of_suffix (List.dropWhile_suffix p)

namespace Begins

theorem skipBlanks_append (hx : Begins x ys) (u : List Char) :
    skipBlanks (u ++ x :: ys) = skipBlanks u ++ x :: ys :=
  dropWhile_append_cons u hx.isBlank_eq

theorem nextIs_append (hx : Begins x ys) (hc : c ∈ ['{', '(', '"', '/', '*']) (u : List Char) :
    nextIs c (u ++ x :: ys) = nextIs c u := by
  have hne : x ≠ c := fun h => hx.not_mem (h ▸ hc)
  unfold nextIs
  rw [hx.skipBlanks_append]
  cases skipBlanks u with
  | nil => simp [hne]
  | cons y v => rfl

theorem head?_append (hx : Begins x ys) (hc : c ∈ ['{', '(', '"', '/', '*']) (u : List Char) :
    (u ++ x :: ys).head? = some c ↔ u.head? = some c := by
  cases u with
  | nil =>
    have hne : x ≠ c := fun h => hx.not_mem (h ▸ hc)
    simp [hne]
  | cons y v => rfl

theorem followedByMethodAndPath_append (hx : Begins x ys) (hu : EndsBefore u x) :
    followedByMethodAndPath (u ++ x :: ys) = followedByMethodAndPath u := by
  have hends : EndsBefore (skipBlanks u) x := endsBefore_dropWhile hu _
  unfold followedByMethodAndPath
  rw [hx.skipBlanks_append]
  cases hv : skipBlanks u with
  | nil =>
    show (x.isAlpha && nextIs '"' ((x :: ys).dropWhile Char.isAlpha)) = false
    rw [Bool.and_eq_false_iff]
    cases ha : x.isAlpha with
    | false => exact .inl rfl
    | true => exact .inr (hx.no_quote (isWordChar_of_isAlpha x ha))
  | cons y v =>
    rw [hv] at hends
    dsimp only
    rw [hends.dropWhile_append (.inl (by simp)) isWordChar_of_isAlpha, hx.nextIs_append (by decide)]
    rfl

theorem followedByNameAndBrace_append (hx : Begins x ys) (hu : EndsBefore u x) :
    followedByNameAndBrace (u ++ x :: ys) = followedByNameAndBrace u := by
  have hends : EndsBefore (skipBlanks u) x := endsBefore_dropWhile hu _
  unfold followedByNameAndBrace
  rw [hx.skipBlanks_append]
  cases hv : skipBlanks u with
  | nil =>
    show (isWordStart x && nextIs '{' ((x :: ys).dropWhile isWordChar)) = false
    rw [Bool.and_eq_false_iff]
    cases ha : isWordStart x with
    | false => exact .inl rfl
    | true => exact .inr (hx.no_brace (isWordChar_of_isWordStart x ha))
  | cons y v =>
    rw [hv] at hends
    dsimp only
    rw [hends.dropWhile_append (.inl (by simp)) fun _ h => h, hx.nextIs_append (by decide)]
    rfl

theorem argumentsAhead?_append (hx : Begins x ys) (hu : EndsBefore u x)
    (hne : u ≠ [] ∨ isWordChar x = false) : argumentsAhead? (u ++ x :: ys) = argumentsAhead? u := by
  unfold argumentsAhead?
  dsimp only
  rw [hu.dropWhile_append hne fun _ h => h, hu.takeWhile_append hne, hx.nextIs_append (by decide),
    takeWhile_append_cons _ hx.isBlank_eq]

theorem stepWord_append (hx : Begins x ys) (s : Scan) (top : Frame) (hu : EndsBefore (c :: u) x) :
    stepWord s top c (u ++ x :: ys) = stepWord s top c u := by
  have hne : c :: u ≠ [] ∨ isWordChar x = false := .inl (by simp)
  have hafter := endsBefore_dropWhile hu isWordChar
  unfold stepWord declares?
  dsimp only
  rw [← List.cons_append, hu.takeWhile_append hne, hu.dropWhile_append hne fun _ h => h,
    hx.nextIs_append (by decide), hx.followedByMethodAndPath_append hafter,
    hx.followedByNameAndBrace_append hafter]

/-- A step in front of the region sees nothing of it. -/
theorem step_append (hx : Begins x ys) (s : Scan) (hu : EndsBefore (c :: u) x) :
    step s c (u ++ x :: ys) = step s c u := by
  have hargs : c = '@' → argumentsAhead? (u ++ x :: ys) = argumentsAhead? u := by
    rintro rfl
    refine hx.argumentsAhead?_append (hu.of_suffix (List.suffix_cons _ u)) ?_
    cases hw : isWordChar x with
    | false => exact .inr rfl
    | true =>
      left
      rintro rfl
      exact (hu hw '@' rfl).2 rfl
  unfold step stepCode
  simp only [hx.head?_append (show '/' ∈ _ by decide), hx.head?_append (show '*' ∈ _ by decide),
    hx.stepWord_append s _ hu]
  by_cases hc : c = '@'
  · rw [hargs hc]
  · simp [hc]

end Begins

/-! ## Reading up to a region -/

/-- A letter or an underscore follows the word that declares. -/
theorem any_isWordStart_of_declares? {before after : List Char} {word : String} {kind : Kind}
    (h : declares? before word after = some kind) : (skipBlanks after).head?.any isWordStart := by
  have of_isAlpha {o : Option Char} (ho : o.any Char.isAlpha) : o.any isWordStart := by
    cases o with
    | none => cases ho
    | some y =>
      have ho : y.isAlpha := ho
      simp [isWordStart, ho]
  unfold declares? at h
  split at h
  · cases h
  split at h
  · split at h
    · next hpath => exact of_isAlpha (Bool.and_eq_true_iff.1 hpath).1
    · cases h
  split at h
  · split at h
    · next hbrace => exact (Bool.and_eq_true_iff.1 hbrace).1
    · cases h
  · cases h

theorem nextIs_of_declares? {before after : List Char} {word : String} {kind : Kind}
    (h : declares? before word after = some kind) (hc : isWordStart c = false) :
    nextIs c after = false := by
  have hstart := any_isWordStart_of_declares? h
  unfold nextIs
  cases hv : skipBlanks after with
  | nil => rfl
  | cons y v =>
    rw [hv] at hstart
    have hne : y ≠ c := by
      rintro rfl
      exact Bool.false_ne_true (hc.symm.trans hstart)
    simp [hne]

theorem begins_of_opensRegion {s : Scan} {kind : Kind} (h : OpensRegion s x ys kind) : Begins x ys := by
  have hx := h.isWordChar
  have hdeclares := h.headAt
  unfold headAt at hdeclares
  refine ⟨isBlank_eq_false_of_isWordChar x hx, ?_, fun _ => ?_, fun _ => nextIs_of_declares? hdeclares rfl⟩
  · intro hmem
    have marks : ∀ c ∈ ['{', '(', '"', '/', '*'], isWordChar c = false := by decide
    rw [marks x hmem] at hx
    cases hx
  · -- the word is a keyword, so it is of letters only
    have hletters : ∀ y ∈ (x :: ys).takeWhile isWordChar, y.isAlpha := by
      have hword := mem_keywords_of_declares? _ _ _ _ hdeclares
      have hkeywords : ∀ w ∈ kind.keywords, ∀ y ∈ w.toList, y.isAlpha := by cases kind <;> decide
      simpa using hkeywords _ hword
    have hdrop : (x :: ys).dropWhile Char.isAlpha = (x :: ys).dropWhile isWordChar := by
      conv_lhs => rw [← List.takeWhile_append_dropWhile (p := isWordChar) (l := x :: ys)]
      rw [List.dropWhile_append_of_pos hletters]
      have hhead := List.head?_dropWhile_not isWordChar (x :: ys)
      cases hv : (x :: ys).dropWhile isWordChar with
      | nil => rfl
      | cons y v =>
        rw [hv] at hhead
        refine List.dropWhile_cons_of_neg fun ha => ?_
        exact Bool.false_ne_true (hhead.symm.trans (isWordChar_of_isAlpha y ha))
    rw [hdrop]
    exact nextIs_of_declares? hdeclares rfl

theorem begins_of_opening {s : Scan} (h : Opening s x ys) : Begins x ys := by
  rcases h.begins with ⟨rfl, -⟩ | ⟨kind, hopens, -⟩
  · exact ⟨rfl, by decide, nofun, nofun⟩
  · exact begins_of_opensRegion hopens

theorem Opening.endsBefore {s : Scan} (h : Opening s x ys) : EndsBefore s.before.reverse x := by
  intro hx y hy
  rcases h.begins with ⟨rfl, -⟩ | ⟨kind, hopens, -⟩
  · cases hx
  · rw [List.getLast?_reverse] at hy
    have hinside := hopens.insideWord
    unfold insideWord at hinside
    rw [hy] at hinside
    simpa using hinside

/-- Up to the region, the text is read alike if nothing comes behind. -/
theorem Reads.front {s t : Scan} {k : List Char} (h : Reads s (k ++ x :: ys) t (x :: ys))
    (hx : Begins x ys) (hk : EndsBefore k x) : Reads s k t [] := by
  induction k generalizing s with
  | nil =>
    rw [h.unique (.done s (x :: ys))]
    exact .done _ _
  | cons c k ih =>
    rw [List.cons_append] at h
    generalize hxs : k ++ x :: ys = xs at h
    cases h with
    | done =>
      have := congrArg List.length hxs
      simp at this
      omega
    | step hs h =>
      subst hxs
      rw [hx.step_append s hk] at hs
      exact .step hs (ih h (hk.of_suffix (List.suffix_cons c k)))

theorem Reads.stop_le {s t : Scan} {xs ys : List Char} (h : Reads s xs t ys)
    (hs : ∀ r ∈ s.found, r.stop ≤ s.offset) : ∀ r ∈ t.found, r.stop ≤ t.offset := by
  induction h with
  | done => exact hs
  | @step s u t c xs ys hst _ ih =>
    have hoffset := (advances_of_step hst).offset_eq
    refine ih fun r hr => ?_
    rcases found_of_step hst with hf | ⟨kind, start, d, b, below, -, rfl⟩
    · have := hs r (hf ▸ hr)
      omega
    · rcases List.mem_cons.1 hr with rfl | hr
      · exact Nat.le_refl _
      · have := hs r hr
        omega

/-- From where a region opens on, only regions behind that place are found. -/
theorem Opening.startsFrom {s t : Scan} (h : Opening s x ys) (hst : step s x ys = .ok t) :
    StartsFrom s.offset s.found t := by
  have frames (kind : Kind) (start d : Nat) (b : Bool) : .region kind start d b ∉ s.stack := by
    rw [h.stack_eq]
    simp
  rcases h.begins with ⟨rfl, hp⟩ | ⟨kind, hopens, hstart⟩
  · have hs : StartsFrom s.offset s.found s :=
      ⟨Nat.le_refl _, by simp [hp], fun kind start d b hb => absurd hb (frames kind start d b), [], rfl, nofun⟩
    exact hs.step hst
  · have hopen := (step_code_iff s _ _ _ _ _ h.stack_eq trivial).2 hopens.codeStep
    obtain rfl := Except.ok.inj (hst.symm.trans hopen)
    refine ⟨?_, nofun, fun kind' start d b hb => ?_, [], rfl, nofun⟩
    · show s.offset ≤ s.offset + _
      omega
    · rcases List.mem_cons.1 hb with heq | hb
      · cases heq
        exact Nat.le_of_eq hstart.symm
      · exact absurd hb (frames kind' start d b)

/-! ## Cutting at a region -/

variable {a d b : List Char} {kind : Kind} {regions before after : List Region} {c c₁ c₂ : Cut}

theorem eq_of_append_eq_append {α : Type} (p : α → Bool) {xs ys xs' ys' : List α}
    (h : xs ++ ys = xs' ++ ys') (hx : ∀ x ∈ xs, p x) (hy : ∀ y ∈ ys, ¬p y) (hx' : ∀ x ∈ xs', p x)
    (hy' : ∀ y ∈ ys', ¬p y) : xs = xs' := by
  have hfilter := congrArg (List.filter p) h
  rwa [List.filter_append, List.filter_append, List.filter_eq_self.2 hx, List.filter_eq_self.2 hx',
    List.filter_eq_nil_iff.2 hy, List.filter_eq_nil_iff.2 hy', List.append_nil, List.append_nil] at hfilter

/-- In front of a region, the regions of a text are those of the text there. -/
theorem find_front (hf : find (a ++ d ++ b) = .ok regions)
    (hregions : regions = before ++ ⟨kind, byteLength a, byteLength (a ++ d)⟩ :: after) :
    find a = .ok before := by
  have hr : ⟨kind, byteLength a, byteLength (a ++ d)⟩ ∈ regions := hregions ▸ by simp
  obtain ⟨placed, ordered⟩ := placed_of_find hf
  obtain ⟨t, ht, -, hfound⟩ := (find_eq_ok_iff _ _).1 hf
  obtain ⟨v, _, xs, _, _, below, hv, hstack, -, -⟩ :=
    ht.exists_closing_step (List.mem_reverse.1 (hfound ▸ hr))
  obtain ⟨s, x, ys, hs, -, ho, hopening⟩ := hv.exists_opening hstack
  obtain ⟨htext, hoffset⟩ := hs.before_start
  obtain rfl : s.before.reverse = a := by
    have htake := takeBytes_append s.before.reverse (x :: ys)
    rw [← htext, ← hoffset, ho, List.append_assoc, takeBytes_append] at htake
    exact htake.symm
  have hread : Reads .start s.before.reverse s [] := by
    rw [htext] at hs
    exact hs.front (begins_of_opening hopening) hopening.endsBefore
  have hfind : find s.before.reverse = .ok s.found.reverse :=
    (find_eq_ok_iff _ _).2 ⟨s, hread, by rw [hopening.stack_eq]; simp [Closed, Frame.unterminated?], rfl⟩
  obtain ⟨more, hmore, hbehind⟩ : ∃ more, t.found = more ++ s.found ∧ ∀ r ∈ more, s.offset ≤ r.start := by
    cases ht.rest hs with
    | step hst h => exact ((hopening.startsFrom hst).reads h).found_eq
  have hinside : ∀ r ∈ s.found, r.start < s.offset := by
    intro r hr
    have hplaced := placed r (hfound ▸ List.mem_reverse.2 (hmore ▸ List.mem_append_right _ hr))
    exact Nat.lt_of_lt_of_le hplaced.nonempty (hs.stop_le nofun r hr)
  have hall : s.found.reverse ++ more.reverse =
      before ++ ⟨kind, s.offset, byteLength (s.before.reverse ++ d)⟩ :: after := by
    rw [← List.reverse_append, ← hmore, ← hfound, hregions, ← hoffset]
  rw [hregions, ← hoffset] at ordered
  obtain ⟨-, hafter, hbefore⟩ := List.pairwise_append.1 ordered
  -- both are the regions that start in front
  rw [hfind, eq_of_append_eq_append (fun r => decide (r.start < s.offset)) hall]
  · simpa using hinside
  · simpa using hbehind
  · exact fun r hr => decide_eq_true (hbefore r hr _ List.mem_cons_self).1
  · intro r hr
    rcases List.mem_cons.1 hr with rfl | hr
    · simp
    · simpa using Nat.le_of_lt ((List.pairwise_cons.1 hafter).1 r hr).1

theorem isCovered_map_shift (regions : List Region) (n offset : Nat) :
    isCovered (regions.map (shift n)) (n + offset) = isCovered regions offset := by
  have hmoved : List.Forall₂ (Moved n 0) (regions.map (shift n)) regions :=
    List.forall₂_map_left_iff.2 (List.forall₂_same.2 fun r _ => ⟨rfl, rfl, rfl⟩)
  exact isCovered_of_moved hmoved (by omega)

/-- The cut is put together from one of the text in front of a region `d`, the region, and one of
the text behind it. -/
structure Cut.Splits (a d : List Char) (kind : Kind) (c c₁ c₂ : Cut) : Prop where
  regions_eq : c.regions = c₁.regions ++ ⟨kind, byteLength a, byteLength (a ++ d)⟩ ::
    c₂.regions.map (shift (byteLength (a ++ d)))
  main_eq : c.main = c₁.main ++ d.flatMap blankFor ++ c₂.main
  byteLength_front : byteLength c₁.main = byteLength a

/-- At a region, a text is cut like the texts on both sides. -/
theorem cut_split (hc : cut (a ++ d ++ b) = .ok c)
    (hr : ⟨kind, byteLength a, byteLength (a ++ d)⟩ ∈ c.regions) :
    ∃ c₁ c₂, cut a = .ok c₁ ∧ cut b = .ok c₂ ∧ c.Splits a d kind c₁ c₂ := by
  obtain ⟨hf, hmain⟩ := cut_eq_ok hc
  obtain ⟨placed, ordered⟩ := placed_of_find hf
  obtain ⟨before, after, hbehind, hregions⟩ := find_behind hf hr
  have hfront := find_front hf hregions
  have hlt : byteLength a < byteLength (a ++ d) := (placed _ hr).nonempty
  rw [hregions] at ordered hmain
  refine ⟨⟨overwrite before 0 a, before⟩, ⟨overwrite after 0 b, after⟩, ?_, ?_, hregions, ?_,
    byteLength_overwrite _ _ _⟩
  · rw [cut, hfront]
  · rw [cut, hbehind]
  · rw [hmain, overwrite_split ordered hlt]
    congr 1
    refine overwrite_congr fun i _ => ?_
    rw [isCovered_map_shift, Nat.zero_add]

namespace Cut.Splits

theorem mem (h : c.Splits a d kind c₁ c₂) : ⟨kind, byteLength a, byteLength (a ++ d)⟩ ∈ c.regions := by
  rw [h.regions_eq]
  exact List.mem_append_right _ List.mem_cons_self

/-- The main text comes to that of the second cut right behind the region. -/
theorem main_split (h : c.Splits a d kind c₁ c₂) :
    ∃ pre, byteLength pre = byteLength (a ++ d) ∧ c.main = pre ++ c₂.main := by
  refine ⟨c₁.main ++ d.flatMap blankFor, ?_, h.main_eq⟩
  rw [byteLength_append, byteLength_flatMap_blankFor, h.byteLength_front, byteLength_append]

/-- What is covered behind the region is what the second cut covers. -/
theorem isCovered_behind (h : c.Splits a d kind c₁ c₂) (hc : cut (a ++ d ++ b) = .ok c) (offset : Nat) :
    isCovered c.regions (byteLength (a ++ d) + offset) = isCovered c₂.regions offset := by
  obtain ⟨placed, ordered⟩ := placed_of_find (cut_eq_ok hc).1
  have hlt := (placed _ h.mem).nonempty
  rw [h.regions_eq] at ordered ⊢
  rw [isCovered_split _ ordered hlt, if_neg (by dsimp only at hlt ⊢; omega), if_neg (by dsimp only; omega)]
  exact isCovered_map_shift _ _ _

/-- What is covered in front of the region is what the first cut covers. -/
theorem isCovered_front (h : c.Splits a d kind c₁ c₂) (hc : cut (a ++ d ++ b) = .ok c) {offset : Nat}
    (ho : offset < byteLength a) : isCovered c.regions offset = isCovered c₁.regions offset := by
  obtain ⟨placed, ordered⟩ := placed_of_find (cut_eq_ok hc).1
  have hlt := (placed _ h.mem).nonempty
  rw [h.regions_eq] at ordered ⊢
  rw [isCovered_split _ ordered hlt, if_pos ho]

end Cut.Splits

end ServiceLang.Region
