import ServiceLang.Source.Chars

/-!
The character classes as ranges of code points.

Blanks, word characters and the punctuation of the language are different
characters.  What a class excludes is read off the ranges once here, so that no
later proof compares characters by hand.
-/

namespace ServiceLang

/-- A property of the characters of a list is decided along the list, not over all
characters there are. -/
instance (priority := 2000) decidableForallMemChars (p : Char → Prop) [DecidablePred p]
    (cs : List Char) : Decidable (∀ c ∈ cs, p c) :=
  List.decidableBAll p cs

theorem isBlank_iff (c : Char) : isBlank c ↔ c = ' ' ∨ c = '\t' ∨ c = '\r' ∨ c = '\n' := by
  simp [isBlank, or_assoc]

def blanks : List Char := [' ', '\t', '\r', '\n']

theorem mem_blanks_iff (c : Char) : c ∈ blanks ↔ isBlank c := by
  simp [blanks, isBlank, or_assoc]

theorem isAlpha_iff (c : Char) :
    c.isAlpha ↔ (65 ≤ c.toNat ∧ c.toNat ≤ 90) ∨ (97 ≤ c.toNat ∧ c.toNat ≤ 122) := by
  change (decide (c.val ≥ 65 ∧ c.val ≤ 90) ||
    (decide (c.val ≥ 97) && decide (c.val ≤ 122))) = true ↔ _
  simp [UInt32.le_iff_toNat_le]

theorem isDigit_iff (c : Char) : c.isDigit ↔ 48 ≤ c.toNat ∧ c.toNat ≤ 57 := by
  simp [Char.isDigit, UInt32.le_iff_toNat_le]

theorem eq_underscore_iff (c : Char) : c = '_' ↔ c.toNat = 95 := by
  constructor
  · rintro rfl; rfl
  · intro h
    exact Char.toNat_inj.1 h

theorem isWordChar_iff (c : Char) :
    isWordChar c ↔ (48 ≤ c.toNat ∧ c.toNat ≤ 57) ∨ (65 ≤ c.toNat ∧ c.toNat ≤ 90) ∨
      c.toNat = 95 ∨ (97 ≤ c.toNat ∧ c.toNat ≤ 122) := by
  simp only [isWordChar, Char.isAlphanum, Bool.or_eq_true, decide_eq_true_eq, isAlpha_iff,
    isDigit_iff, eq_underscore_iff]
  omega

/-- A character outside the ranges of word characters is none. -/
theorem ne_of_isWordChar (c d : Char) (h : isWordChar c) (hd : isWordChar d = false) : c ≠ d := by
  rintro rfl
  rw [h] at hd
  cases hd

theorem isBlank_eq_false_of_isWordChar (c : Char) (h : isWordChar c) : isBlank c = false := by
  cases hb : isBlank c with
  | false => rfl
  | true =>
    rcases (isBlank_iff c).1 hb with rfl | rfl | rfl | rfl <;> revert h <;> decide

theorem isAsciiControl_eq_false_of_isWordChar (c : Char) (h : isWordChar c) :
    isAsciiControl c = false := by
  rw [isWordChar_iff] at h
  simp only [isAsciiControl, Bool.or_eq_false_iff, decide_eq_false_iff_not]
  omega

theorem isWordChar_of_isWordStart (c : Char) (h : isWordStart c) : isWordChar c := by
  simp only [isWordStart, isWordChar, Char.isAlphanum, Bool.or_eq_true] at h ⊢
  rcases h with h | h
  · exact .inl (.inl h)
  · exact .inr h

theorem isWordChar_of_isAlpha (c : Char) (h : c.isAlpha) : isWordChar c :=
  isWordChar_of_isWordStart c (by rw [isWordStart, h, Bool.true_or])

def asciiWhere (ok : Char → Bool) : List Char := ((List.range 128).map Char.ofNat).filter ok

theorem mem_asciiWhere {ok : Char → Bool} {c : Char} (hc : c.toNat < 128) (h : ok c) :
    c ∈ asciiWhere ok := by
  refine List.mem_filter.2 ⟨List.mem_map.2 ⟨c.toNat, List.mem_range.2 hc, ?_⟩, h⟩
  exact Char.ofNat_toNat c

theorem toNat_lt_of_isWordChar (c : Char) (h : isWordChar c) : c.toNat < 128 := by
  rw [isWordChar_iff] at h
  omega

end ServiceLang
