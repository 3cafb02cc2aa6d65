import Mathlib.Data.List.SplitBy
import Mathlib.Data.List.TakeWhile
import ServiceLang.Text.Blank

/-!
Runs of characters, and words between white space.

A class of characters cuts a text into runs that are in turn inside the class and outside
of it.  The words of a text are its runs outside of white space.  So they are what was
written down one after another with white space between (`Spaced`), whatever the white
space is and however much of it stands around them:

    words cs = ws ↔ Spaced ws cs            (words_eq_iff)
-/

namespace ServiceLang.Text

/-! ## Runs -/

/-- The run that a text begins with goes as far as its characters are alike. -/
theorem splitBy_append_run (p : Char → Bool) {inside : Bool} {run rest : List Char} (hne : run ≠ [])
    (hrun : ∀ c ∈ run, p c = inside) (hrest : ∀ c ∈ rest.head?, p c ≠ inside) :
    (run ++ rest).splitBy (fun a b => p a == p b) = run :: rest.splitBy fun a b => p a == p b := by
  have hcut : ∀ x ∈ run.getLast?, ∀ y ∈ rest.head?, (p x == p y) = false := by
    intro x hx y hy
    rw [hrun x (List.mem_of_mem_getLast? hx)]
    exact beq_false_of_ne (Ne.symm (hrest y hy))
  have halike : run.IsChain fun a b => (p a == p b) = true := by
    refine List.Pairwise.isChain (List.pairwise_of_forall_mem_list fun a ha b hb => ?_)
    rw [hrun a ha, hrun b hb, beq_self_eq_true]
  rw [List.splitBy_append hcut, List.splitBy_of_isChain hne halike, List.singleton_append]

theorem head?_dropWhile_eq_false (p : Char → Bool) (cs : List Char) :
    ∀ c ∈ (cs.dropWhile p).head?, p c = false := by
  intro c hc
  have hnot := List.head?_dropWhile_not p cs
  rwa [Option.mem_def.mp hc] at hnot

/-- Characters that are all alike, as far as they go. -/
theorem takeWhile_run {p : Char → Bool} {run rest : List Char} (hrun : ∀ c ∈ run, p c = true)
    (hrest : ∀ c ∈ rest.head?, p c = false) : (run ++ rest).takeWhile p = run := by
  rw [List.takeWhile_append_of_pos hrun]
  cases rest with
  | nil => simp
  | cons c cs => rw [List.takeWhile_cons_of_neg (Bool.eq_false_iff.mp (hrest c rfl)), List.append_nil]

theorem dropWhile_run {p : Char → Bool} {run rest : List Char} (hrun : ∀ c ∈ run, p c = true)
    (hrest : ∀ c ∈ rest.head?, p c = false) : (run ++ rest).dropWhile p = rest := by
  rw [List.dropWhile_append_of_pos hrun]
  cases rest with
  | nil => rfl
  | cons c cs => rw [List.dropWhile_cons_of_neg (Bool.eq_false_iff.mp (hrest c rfl))]

/-- Where the run that two texts begin with ends, they can be cut. -/
theorem run_append_inj {p : Char → Bool} {run run' rest rest' : List Char}
    (hrun : ∀ c ∈ run, p c = true) (hrun' : ∀ c ∈ run', p c = true)
    (hrest : ∀ c ∈ rest.head?, p c = false) (hrest' : ∀ c ∈ rest'.head?, p c = false)
    (h : run ++ rest = run' ++ rest') : run = run' ∧ rest = rest' := by
  constructor
  · rw [← takeWhile_run hrun hrest, h, takeWhile_run hrun' hrest']
  · rw [← dropWhile_run hrun hrest, h, dropWhile_run hrun' hrest']

/-! ## Words -/

/-- The words, with white space between them and perhaps around them. -/
inductive Spaced : List (List Char) → List Char → Prop where
  | blank {gap : List Char} (h : ∀ c ∈ gap, isWhiteSpace c = true) : Spaced [] gap
  | word {gap word rest : List Char} {words : List (List Char)}
      (hgap : ∀ c ∈ gap, isWhiteSpace c = true) (hne : word ≠ [])
      (hword : ∀ c ∈ word, isWhiteSpace c = false)
      (hrest : ∀ c ∈ rest.head?, isWhiteSpace c = true) (more : Spaced words rest) :
      Spaced (word :: words) (gap ++ (word ++ rest))

theorem words_word {word rest : List Char} (hne : word ≠ [])
    (hword : ∀ c ∈ word, isWhiteSpace c = false) (hrest : ∀ c ∈ rest.head?, isWhiteSpace c = true) :
    words (word ++ rest) = word :: words rest := by
  obtain ⟨c, cs, rfl⟩ := List.exists_cons_of_ne_nil hne
  have hc := hword c List.mem_cons_self
  unfold words
  rw [splitBy_append_run isWhiteSpace hne hword fun c hc => by simp [hrest c hc],
    List.filter_cons_of_pos (by simp [hc])]

/-- White space in front of the words is none of them. -/
theorem words_gap {gap : List Char} (hgap : ∀ c ∈ gap, isWhiteSpace c = true) (rest : List Char) :
    words (gap ++ rest) = words rest := by
  have hsolid (gap rest : List Char) (hgap : ∀ c ∈ gap, isWhiteSpace c = true)
      (hrest : ∀ c ∈ rest.head?, isWhiteSpace c = false) : words (gap ++ rest) = words rest := by
    by_cases hne : gap = []
    · rw [hne, List.nil_append]
    · obtain ⟨c, cs, rfl⟩ := List.exists_cons_of_ne_nil hne
      have hc := hgap c List.mem_cons_self
      unfold words
      rw [splitBy_append_run isWhiteSpace hne hgap fun c hc => by simp [hrest c hc],
        List.filter_cons_of_neg (by simp [hc])]
  -- The run of white space may go on in the rest, so both sides are compared with what is behind it.
  have hmore : ∀ c ∈ gap ++ rest.takeWhile isWhiteSpace, isWhiteSpace c = true := fun c hc =>
    (List.mem_append.mp hc).elim (hgap c) fun h => List.mem_takeWhile_imp h
  have hbehind := head?_dropWhile_eq_false isWhiteSpace rest
  rw [← List.takeWhile_append_dropWhile (p := isWhiteSpace) (l := rest), ← List.append_assoc,
    hsolid _ _ hmore hbehind,
    hsolid _ _ (fun c hc => hmore c (List.mem_append_right gap hc)) hbehind]

theorem Spaced.words_eq {cs : List Char} {ws : List (List Char)} (h : Spaced ws cs) :
    words cs = ws := by
  induction h with
  | blank h => simpa [words] using words_gap h []
  | word hgap hne hword hrest _ ih => rw [words_gap hgap, words_word hne hword hrest, ih]

theorem spaced_words (cs : List Char) : Spaced (words cs) cs := by
  have hcut := List.takeWhile_append_dropWhile (p := isWhiteSpace) (l := cs)
  have hgap : ∀ c ∈ cs.takeWhile isWhiteSpace, isWhiteSpace c = true := fun c hc =>
    List.mem_takeWhile_imp hc
  have hsolid := head?_dropWhile_eq_false isWhiteSpace cs
  have hlength : (cs.dropWhile isWhiteSpace).length ≤ cs.length := List.length_dropWhile_le ..
  rw [← hcut, words_gap hgap]
  match hbehind : cs.dropWhile isWhiteSpace with
  | [] => simpa [words] using Spaced.blank hgap
  | c :: rest =>
    have hc : isWhiteSpace c = false := hsolid c (by simp [hbehind])
    -- The first word, and what stands behind it.
    have hword : ∀ x ∈ c :: rest.takeWhile (!isWhiteSpace ·), isWhiteSpace x = false := by
      intro x hx
      rcases List.mem_cons.mp hx with rfl | hx
      · exact hc
      · simpa using List.mem_takeWhile_imp hx
    have hrest : ∀ x ∈ (rest.dropWhile (!isWhiteSpace ·)).head?, isWhiteSpace x = true := by
      simpa using head?_dropWhile_eq_false (!isWhiteSpace ·) rest
    have hshorter : (rest.dropWhile (!isWhiteSpace ·)).length < cs.length := by
      have hdrop : (rest.dropWhile (!isWhiteSpace ·)).length ≤ rest.length :=
        List.length_dropWhile_le ..
      rw [hbehind, List.length_cons] at hlength
      omega
    have hmore := spaced_words (rest.dropWhile (!isWhiteSpace ·))
    rw [← List.takeWhile_append_dropWhile (p := (!isWhiteSpace ·)) (l := rest), ← List.cons_append,
      words_word (List.cons_ne_nil _ _) hword hrest]
    exact .word hgap (List.cons_ne_nil _ _) hword hrest hmore
termination_by cs.length

theorem words_eq_iff (cs : List Char) (ws : List (List Char)) : words cs = ws ↔ Spaced ws cs :=
  ⟨fun h => h ▸ spaced_words cs, Spaced.words_eq⟩

/-! ## Trimmed texts -/

/-- Between white space stands the trimmed text. -/
theorem exists_gaps (cs : List Char) : ∃ before after, cs = before ++ trim cs ++ after ∧
    (∀ c ∈ before, isWhiteSpace c = true) ∧ ∀ c ∈ after, isWhiteSpace c = true := by
  refine ⟨cs.takeWhile isWhiteSpace, ((cs.dropWhile isWhiteSpace).reverse.takeWhile isWhiteSpace).reverse,
    ?_, fun c hc => List.mem_takeWhile_imp hc, fun c hc => List.mem_takeWhile_imp (List.mem_reverse.mp hc)⟩
  rw [trim, trimEnd, List.append_assoc, ← List.reverse_append, List.takeWhile_append_dropWhile,
    List.reverse_reverse, List.takeWhile_append_dropWhile]

theorem Spaced.append_gap {cs gap : List Char} {ws : List (List Char)} (h : Spaced ws cs)
    (hgap : ∀ c ∈ gap, isWhiteSpace c = true) : Spaced ws (cs ++ gap) := by
  induction h with
  | blank h => exact .blank fun c hc => (List.mem_append.mp hc).elim (h c) (hgap c)
  | @word before word rest words hbefore hne hword hrest _ ih =>
    have hhead : ∀ c ∈ (rest ++ gap).head?, isWhiteSpace c = true := by
      intro c hc
      rw [List.head?_append] at hc
      rcases Option.or_eq_some_iff.mp hc with hc | ⟨-, hc⟩
      · exact hrest c hc
      · exact hgap c (List.mem_of_mem_head? hc)
    rw [List.append_assoc, List.append_assoc]
    exact .word hbefore hne hword hhead ih

/-- Trimming a text takes no word away. -/
theorem words_trim (cs : List Char) : words (trim cs) = words cs := by
  obtain ⟨before, after, hcut, hbefore, hafter⟩ := exists_gaps cs
  have htrim := (spaced_words (trim cs)).append_gap hafter
  conv_rhs => rw [hcut, List.append_assoc, words_gap hbefore, htrim.words_eq]

theorem dropWhile_solid {word : List Char} (hne : word ≠ [])
    (hword : ∀ c ∈ word, isWhiteSpace c = false) (rest : List Char) :
    (word ++ rest).dropWhile isWhiteSpace = word ++ rest := by
  obtain ⟨c, cs, rfl⟩ := List.exists_cons_of_ne_nil hne
  exact List.dropWhile_cons_of_neg (by simp [hword c List.mem_cons_self])

/-- A text is a word when it is trimmed exactly if this word is its only one. -/
theorem trim_eq_iff {word : List Char} (hne : word ≠ [])
    (hword : ∀ c ∈ word, isWhiteSpace c = false) (cs : List Char) :
    trim cs = word ↔ Spaced [word] cs := by
  constructor
  · rintro rfl
    rw [← words_eq_iff, ← words_trim]
    simpa [words] using @words_word _ [] hne hword nofun
  · intro h
    cases h with
    | @word gap _ rest _ hgap _ _ _ more =>
      cases more with
      | blank hrest =>
        have hback : ∀ c ∈ rest.reverse, isWhiteSpace c = true := fun c hc =>
          hrest c (List.mem_reverse.mp hc)
        have hend : (word.reverse ++ []).dropWhile isWhiteSpace = word.reverse ++ [] :=
          dropWhile_solid (by simpa using hne) (fun c hc => hword c (List.mem_reverse.mp hc)) []
        rw [List.append_nil] at hend
        rw [trim, trimEnd, List.dropWhile_append_of_pos hgap, dropWhile_solid hne hword,
          List.reverse_append, List.dropWhile_append_of_pos hback, hend, List.reverse_reverse]

end ServiceLang.Text
