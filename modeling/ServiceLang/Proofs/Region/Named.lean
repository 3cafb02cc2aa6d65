import ServiceLang.Proofs.Region.Plain

/-!
Words that are no declarations.

The words `endpoint`, `workflow` and `job` are names as well.  The scanner takes a word for a
name behind a word that binds one (`Passed.bound`), and where the use of a name is ahead instead
of a path or a body (`Passed.used`).  In braces it looks for nothing but `exec` blocks, so it
passes a body of plain tokens whatever its words are (`Passed.braces`).
-/

namespace ServiceLang

namespace Region

namespace Passed

variable {before k rest : List Char}

theorem followsBindingWord_of_mem {w : String} (hw : w ∈ bindingWords)
    (hbefore : ∀ x, before.head? = some x → isWordChar x = false) :
    followsBindingWord (' ' :: (w.toList.reverse ++ before)) := by
  have words : ∀ w ∈ bindingWords, (∀ x ∈ w.toList.reverse, isWordChar x) ∧
      w.toList.reverse.head?.any fun x => !isBlank x := by decide
  obtain ⟨hword, hsolid⟩ := words w hw
  have hskip : skipBlanks (' ' :: (w.toList.reverse ++ before)) = w.toList.reverse ++ before := by
    change skipBlanks (w.toList.reverse ++ before) = _
    generalize w.toList.reverse = r at hsolid
    cases r with
    | nil => cases hsolid
    | cons x xs => simp [skipBlanks, show isBlank x = false by simpa using hsolid]
  have htake : before.takeWhile isWordChar = [] := by
    cases before with
    | nil => rfl
    | cons x xs => simp [hbefore x rfl]
  rw [followsBindingWord, hskip, List.takeWhile_append_of_pos hword, htake, List.append_nil,
    List.reverse_reverse, String.ofList_toList]
  exact List.contains_iff_mem.2 hw

section Words

variable (hk : ∀ x ∈ k, isWordChar x) (hne : k ≠ [])
include hk hne

/-- A word behind one that binds it. -/
theorem bound (hstop : ∀ x, rest.head? = some x → isWordChar x = false)
    (hbrace : nextIs '{' rest = false) (hbefore : followsBindingWord before) : Passed before k rest :=
  of_declares hk hne hstop (.inr hbrace) (by simp [declares?, hbefore])

theorem operand (hstop : ∀ x, rest.head? = some x → isWordChar x = false)
    (hbrace : nextIs '{' rest = false)
    (h : continuesExpression before ∨ ∀ x, rest.head? = some x → isBlank x = false) : Passed before k rest :=
  of_declares hk hne hstop (.inr hbrace) (declares?_eq_none hstop (.inr h))

/-- A word with a blank behind it, and then neither a word nor a brace. -/
theorem used {x : Char} (hw : isWordChar x = false) (hb : isBlank x = false) (hx : x ≠ '{') :
    Passed before k (' ' :: x :: rest) := by
  have hword : ∀ y, (x :: rest).head? = some y → isWordChar y = false := fun y hy =>
    Option.some.inj hy ▸ hw
  have hblank : ∀ y, (x :: rest).head? = some y → isBlank y = false := fun y hy =>
    Option.some.inj hy ▸ hb
  have path : followedByMethodAndPath (' ' :: x :: rest) = false := by
    change followedByMethodAndPath (x :: rest) = false
    exact followedByMethodAndPath_of_solid hword hblank
  have body : followedByNameAndBrace (' ' :: x :: rest) = false := by
    change followedByNameAndBrace (x :: rest) = false
    exact followedByNameAndBrace_of_solid hword hblank
  have brace : nextIs '{' (' ' :: x :: rest) = false := by
    change nextIs '{' (x :: rest) = false
    simpa [nextIs, skipBlanks, hb] using hx
  exact of_declares hk hne (fun y hy => Option.some.inj hy ▸ rfl) (.inr brace) (by simp [declares?, path, body])

end Words

/-! ## Bodies in braces -/

/-- A blank, or a character of a token. -/
def IsToken (x : Char) : Prop := isBlank x ∨ MainGrammar.isTokenChar x

theorem dropWhile_append_cons {p : Char → Bool} {x : Char} (hx : p x = false) (k : List Char) :
    (k ++ x :: rest).dropWhile p = k.dropWhile p ++ x :: rest := by
  rw [List.dropWhile_append]
  split
  · next h => rw [List.isEmpty_iff.1 h, List.dropWhile_cons_of_neg (by simp [hx])]; rfl
  · rfl

/-- Behind no word is there a brace before the one that closes. -/
theorem execAt_of_tokens {k : List Char} (hk : ∀ x ∈ k, IsToken x) : execAt (k ++ '}' :: rest) = false := by
  have hbrace : ¬IsToken '{' := by unfold IsToken; decide
  have hnext : nextIs '{' ((k ++ '}' :: rest).dropWhile isWordChar) = false := by
    unfold nextIs skipBlanks
    rw [dropWhile_append_cons rfl, dropWhile_append_cons rfl]
    refine decide_eq_false fun h => ?_
    cases hl : (k.dropWhile isWordChar).dropWhile isBlank with
    | nil => rw [hl] at h; cases h
    | cons y ys =>
      rw [hl] at h
      obtain rfl : y = '{' := Option.some.inj h
      have hsub := (List.dropWhile_sublist isBlank).trans (List.dropWhile_sublist isWordChar (l := k))
      exact hbrace (hk _ (hsub.subset (hl ▸ List.mem_cons_self)))
  rw [execAt, hnext, Bool.and_false]

/-- In braces, tokens are read and nothing opens. -/
theorem reads_tokens {d : Nat} {k : List Char} (hk : ∀ x ∈ k, IsToken x) (s : Scan)
    (hs : s.stack = [.main (d + 1)]) : ∃ t, Reads s (k ++ '}' :: rest) t ('}' :: rest) ∧
      t.stack = [.main (d + 1)] ∧ t.found = s.found ∧ t.before = k.reverse ++ s.before := by
  induction k generalizing s with
  | nil => exact ⟨s, .done _ _, hs, rfl, rfl⟩
  | cons x k ih =>
    obtain ⟨hx, hk'⟩ := List.forall_mem_cons.1 hk
    have first : ∃ t, CodeStep s (.main (d + 1)) [] x (k ++ '}' :: rest) t ∧ t.stack = [.main (d + 1)] ∧
        t.found = s.found ∧ t.before = x :: s.before := by
      rcases hx with hb | hx
      · exact ⟨_, .blank hb, hs, rfl, rfl⟩
      rcases Bool.or_eq_true_iff.1 hx with hw | hm
      · cases hi : insideWord (Frame.main (d + 1)).isTopLevel s.before with
        | true => exact ⟨_, .insideWord hw hi, hs, rfl, rfl⟩
        | false =>
          refine ⟨_, .word hw hi, ?_⟩
          have hexec : execAt (x :: (k ++ '}' :: rest)) = false := execAt_of_tokens hk
          rw [stepWord_main, hexec]
          exact ⟨by simpa using hs, by simp, by simp⟩
      · obtain ⟨hb, hw, hn, hc, -⟩ := startsNothing_of_mark (List.elem_iff.1 hm)
        have hat : ¬(x = '@' ∧ (Frame.main (d + 1)).isTopLevel) := fun h => Bool.false_ne_true h.2
        exact ⟨_, .other hb hw (hn _) hc hat, by simpa using hs, by simp, by simp⟩
    obtain ⟨t, hstep, ht, hfound, hbefore⟩ := first
    obtain ⟨u, hread, hu, hfound', hbefore'⟩ := ih hk' t ht
    refine ⟨u, (Reads.code hs trivial hstep).trans hread, hu, hfound'.trans hfound, ?_⟩
    rw [hbefore', hbefore, List.reverse_cons, List.append_assoc]
    rfl

theorem braces {k : List Char} (hk : ∀ x ∈ k, IsToken x) : Passed before ('{' :: (k ++ ['}'])) rest := by
  intro s hs hb
  have hopen : Reads s ('{' :: (k ++ '}' :: rest)) _ (k ++ '}' :: rest) := .code hs trivial .openBrace
  obtain ⟨t, hread, ht, hfound, hbefore⟩ := reads_tokens hk
    (openBrace ((s.advance '{').dropPendingIf (Frame.main 0).isTopLevel) (.main 0) []) rfl
  have hclose : Reads t ('}' :: rest) _ rest := .code ht trivial .closeBrace
  refine ⟨closeBrace (t.advance '}') (.main 1) [], ?_, rfl, ?_, ?_⟩
  · rw [List.cons_append, List.append_assoc]
    exact (hopen.trans hread).trans hclose
  · show t.found = s.found
    rw [hfound]
    simp [openBrace]
  · show '}' :: t.before = _
    rw [hbefore]
    simp [openBrace, hb]

end Passed

/-! ## Lines -/

/-- The scanner passes the line wherever no word goes on at its ends. -/
def PassedLine (line : List Char) : Prop :=
  ∀ before rest, (∀ x, before.head? = some x → isWordChar x = false) →
    (∀ x, rest.head? = some x → isWordChar x = false) → Passed before line rest

/-- Lines that are passed are passed one below the other. -/
theorem passed_intercalate {lines : List (List Char)} (h : ∀ line ∈ lines, PassedLine line)
    {before : List Char} (hbefore : ∀ x, before.head? = some x → isWordChar x = false) :
    Passed before (['\n'].intercalate lines) [] := by
  induction lines generalizing before with
  | nil => exact .nil
  | cons line lines ih =>
    obtain ⟨hline, hlines⟩ := List.forall_mem_cons.1 h
    cases lines with
    | nil =>
      rw [List.intercalate_singleton]
      exact hline _ _ hbefore nofun
    | cons next lines =>
      rw [List.intercalate_cons_cons, List.append_assoc]
      have newline (xs : List Char) : ∀ x, ('\n' :: xs).head? = some x → isWordChar x = false :=
        fun x hx => Option.some.inj hx ▸ rfl
      exact .append (hline _ _ hbefore (newline _)) (.cons (.of_isBlank rfl) (ih hlines (newline _)))

end Region

end ServiceLang
