import ServiceLang.Proofs.Decimal.Layout
import ServiceLang.Proofs.Text.Quoted
import ServiceLang.Proofs.Text.Runs
import ServiceLang.Text.Digit

/-!
Different texts are quoted differently.

What a character is written as between quotes is never the beginning of what another one is written as
(`quoteChar_append_inj`): an escape tells by its second character which one it is, and a code point ends
at its closing brace.  So a string can be read off from its quoted text, whatever characters it has
(`quoted_inj`).  No quoted text holds a newline, and no text of a number does, so both fit on a line.
-/

namespace ServiceLang.Text

/-! ## Hexadecimal digits -/

theorem hexValue_digitChar {n : Nat} (h : n < 16) : isHexDigit n.digitChar ∧ hexValue n.digitChar = n := by
  have all : ∀ n : Fin 16, isHexDigit n.val.digitChar ∧ hexValue n.val.digitChar = n := by decide
  exact all ⟨n, h⟩

theorem valueIn_toDigits (n : Nat) : valueIn 16 (Nat.toDigits 16 n) = n := by
  induction n using Nat.strong_induction_on with
  | _ n ih =>
    rw [Nat.toDigits_eq_if (by decide)]
    split
    · next h => simp [valueIn, (hexValue_digitChar h).2]
    · next h =>
      have hlead := ih (n / 16) (by omega)
      unfold valueIn at hlead ⊢
      rw [List.foldl_append, hlead, List.foldl_cons, List.foldl_nil, (hexValue_digitChar (Nat.mod_lt n (by decide))).2]
      omega

theorem isHexDigit_of_mem_toDigits {n : Nat} {c : Char} (h : c ∈ Nat.toDigits 16 n) : isHexDigit c := by
  induction n using Nat.strong_induction_on with
  | _ n ih =>
    rw [Nat.toDigits_eq_if (by decide)] at h
    split at h
    · next hlt =>
      rw [List.mem_singleton.1 h]
      exact (hexValue_digitChar hlt).1
    · next hlt =>
      rcases List.mem_append.1 h with h | h
      · exact ih (n / 16) (by omega) h
      · rw [List.mem_singleton.1 h]
        exact (hexValue_digitChar (Nat.mod_lt n (by decide))).1

theorem byCodePoint_append_inj {c d : Char} {r s : List Char} (h : byCodePoint c ++ r = byCodePoint d ++ s) :
    c = d := by
  have hdigit (e : Char) : ∀ x ∈ Nat.toDigits 16 e.toNat, decide (x ≠ '\x7d') = true := by
    intro x hx
    rw [decide_eq_true_eq]
    rintro rfl
    exact absurd (isHexDigit_of_mem_toDigits hx) (by decide)
  have hbrace (r : List Char) : ∀ x ∈ ('\x7d' :: r).head?, decide (x ≠ '\x7d') = false := by simp
  have hdigits : Nat.toDigits 16 c.toNat ++ '\x7d' :: r = Nat.toDigits 16 d.toNat ++ '\x7d' :: s := by
    simpa [byCodePoint] using h
  have hcodes := (run_append_inj (hdigit c) (hdigit d) (hbrace r) (hbrace s) hdigits).1
  refine Char.toNat_inj.1 ?_
  rw [← valueIn_toDigits c.toNat, hcodes, valueIn_toDigits]

/-! ## Characters between quotes -/

/-- A character that is not quotable is written by its code point. -/
theorem quoteChar_of_not_isQuotable {c : Char} (h : ¬isQuotable c) : quoteChar c = byCodePoint c := by
  simp only [isQuotable, List.contains_cons, List.contains_nil, Bool.or_false, Bool.or_eq_true, beq_iff_eq,
    Bool.not_eq_true', not_or, Bool.not_eq_false] at h
  obtain ⟨⟨h1, h2, h3, h4, h5, h6⟩, hunprintable⟩ := h
  simp [quoteChar, h1, h2, h3, h4, h5, h6, hunprintable]

/-- No other character is written like the beginning of a code point. -/
theorem Written.ne_byCodePoint {c d : Char} {k r s : List Char} (h : Written c k) :
    k ++ r ≠ byCodePoint d ++ s := by
  intro heq
  cases h with
  | plain _ hc => exact hc (List.cons.inj heq).1
  | escape he =>
    rw [(List.cons.inj (List.cons.inj heq).2).1] at he
    cases he

/-- What characters are written as tells which they are. -/
theorem quoteChar_append_inj {c d : Char} {r s : List Char} (h : quoteChar c ++ r = quoteChar d ++ s) :
    c = d ∧ r = s := by
  have hchar : c = d := by
    by_cases hc : isQuotable c <;> by_cases hd : isQuotable d
    · have hread := congrArg unescape h
      rw [unescape_append (written_quoteChar hc), unescape_append (written_quoteChar hd)] at hread
      exact (List.cons.inj hread).1
    · rw [quoteChar_of_not_isQuotable hd] at h
      exact absurd h (written_quoteChar hc).ne_byCodePoint
    · rw [quoteChar_of_not_isQuotable hc] at h
      exact absurd h.symm (written_quoteChar hd).ne_byCodePoint
    · rw [quoteChar_of_not_isQuotable hc, quoteChar_of_not_isQuotable hd] at h
      exact byCodePoint_append_inj h
  subst hchar
  exact ⟨rfl, List.append_cancel_left h⟩

theorem quoteChar_ne_nil (c : Char) : quoteChar c ≠ [] := by
  by_cases hc : isQuotable c
  · exact (written_quoteChar hc).ne_nil
  · rw [quoteChar_of_not_isQuotable hc]
    exact List.cons_ne_nil _ _

theorem flatMap_quoteChar_inj {cs ds : List Char} (h : cs.flatMap quoteChar = ds.flatMap quoteChar) : cs = ds := by
  induction cs generalizing ds with
  | nil =>
    cases ds with
    | nil => rfl
    | cons d ds => exact absurd (List.append_eq_nil_iff.1 h.symm).1 (quoteChar_ne_nil d)
  | cons c cs ih =>
    cases ds with
    | nil => exact absurd (List.append_eq_nil_iff.1 h).1 (quoteChar_ne_nil c)
    | cons d ds =>
      obtain ⟨rfl, hrest⟩ := quoteChar_append_inj h
      rw [ih hrest]

/-- Strings that are quoted alike are the same. -/
theorem quoted_inj {s t : String} (h : quoted s = quoted t) : s = t := by
  have hchars := congrArg String.toList h
  rw [toList_quoted, toList_quoted] at hchars
  exact String.toList_inj.1 (flatMap_quoteChar_inj (List.append_cancel_right (List.cons.inj hchars).2))

/-! ## Single lines -/

theorem newline_notMem_byCodePoint (c : Char) : '\n' ∉ byCodePoint c := by
  have hdigits : '\n' ∉ Nat.toDigits 16 c.toNat := fun hmem =>
    absurd (isHexDigit_of_mem_toDigits hmem) (by decide)
  simp [byCodePoint, hdigits]

theorem newline_notMem_quoteChar (c : Char) : '\n' ∉ quoteChar c := by
  unfold quoteChar
  split_ifs with h1 h2 h3 h4 h5 h6 h7
  · decide
  · decide
  · decide
  · decide
  · decide
  · decide
  · exact newline_notMem_byCodePoint c
  · simpa using Ne.symm h3

theorem newline_notMem_quoted (s : String) : '\n' ∉ (quoted s).toList := by
  rw [toList_quoted, quotedBody]
  simp [newline_notMem_quoteChar]

end ServiceLang.Text

namespace ServiceLang.Decimal

theorem newline_notMem_numeral {cs : List Char} (h : Numeral cs) : '\n' ∉ cs := by
  have digits {ds : List Char} (h : IsDigits ds) : '\n' ∉ ds := by
    intro hmem
    have := h.2 _ hmem
    revert this
    decide
  cases h with
  | whole h => exact digits h
  | fraction hd hf => simp [digits hd, digits hf]

/-- The text of a number fits on a line. -/
theorem newline_notMem_plain (x : Float) : '\n' ∉ (plain x).toList := by
  have hsign (negative : Bool) : '\n' ∉ (signText negative).toList := by cases negative <;> decide
  unfold plain
  split
  · split
    · decide
    split <;> decide
  · next _ b _ =>
    dsimp only
    split
    · simp [hsign b.negative]
    · rw [String.toList_append, List.mem_append, not_or]
      exact ⟨hsign b.negative, newline_notMem_numeral (numeral_positional (isDigits_toString _) _)⟩

end ServiceLang.Decimal
