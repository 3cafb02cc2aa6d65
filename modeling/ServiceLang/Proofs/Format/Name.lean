import ServiceLang.Format.Name

/-!
The languages of the formats.

The checks of event names, identifier paths, numerals and versions cut a text at its points
and look at the parts.  Here the texts themselves are described, as one would write a regular
expression: parts with points between them (`Text.Joined`), and in front of them perhaps a
sign or a `v`.  Each check accepts exactly the texts that are described.
-/

namespace ServiceLang

namespace Text

/-- Parts of a kind, with the separator between them. -/
inductive Joined (sep : Char) (Part : List Char → Prop) : List Char → Prop where
  | last {part : List Char} (h : Part part) : Joined sep Part part
  | cons {part rest : List Char} (h : Part part) (hrest : Joined sep Part rest) :
      Joined sep Part (part ++ sep :: rest)

variable {sep : Char} {Part : List Char → Prop}

theorem splitOn_of_not_mem {part : List Char} (h : sep ∉ part) : splitOn sep part = [part] := by
  induction part with
  | nil => rfl
  | cons c part ih =>
    rw [List.mem_cons, not_or] at h
    rw [splitOn, if_neg (Ne.symm h.1), ih h.2]

theorem splitOn_append {part : List Char} (h : sep ∉ part) (rest : List Char) :
    splitOn sep (part ++ sep :: rest) = part :: splitOn sep rest := by
  induction part with
  | nil => simp [splitOn]
  | cons c part ih =>
    rw [List.mem_cons, not_or] at h
    rw [List.cons_append, splitOn, if_neg (Ne.symm h.1), ih h.2]

theorem joined_intercalate {part : List Char} {parts : List (List Char)}
    (h : ∀ p ∈ part :: parts, Part p) : Joined sep Part ([sep].intercalate (part :: parts)) := by
  induction parts generalizing part with
  | nil =>
    have hlast : Joined sep Part part := .last (h part (by simp))
    simpa [List.intercalate] using hlast
  | cons next parts ih =>
    obtain ⟨hpart, hrest⟩ := List.forall_mem_cons.mp h
    simpa [List.intercalate] using Joined.cons hpart (ih hrest)

/-- All parts are of the kind exactly if the text is such parts with separators between
them, provided that no part of the kind holds the separator. -/
theorem forall_mem_splitOn_iff (hsep : ∀ part, Part part → sep ∉ part) (cs : List Char) :
    (∀ part ∈ splitOn sep cs, Part part) ↔ Joined sep Part cs := by
  constructor
  · intro h
    obtain ⟨part, parts, hsplit⟩ := List.exists_cons_of_ne_nil (splitOn_ne_nil sep cs)
    rw [← intercalate_splitOn sep cs, hsplit]
    exact joined_intercalate (hsplit ▸ h)
  · intro h
    induction h with
    | last h => simpa [splitOn_of_not_mem (hsep _ h)] using h
    | cons h _ ih => simpa [splitOn_append (hsep _ h)] using ⟨h, ih⟩

end Text

theorem startsAndContinues_iff (start more : Char → Bool) (cs : List Char) :
    startsAndContinues start more cs = true ↔
      ∃ c rest, cs = c :: rest ∧ start c = true ∧ ∀ x ∈ rest, more x = true := by
  cases cs with
  | nil => simp [startsAndContinues]
  | cons c rest =>
    simp only [startsAndContinues, Bool.and_eq_true, List.all_eq_true]
    constructor
    · intro h
      exact ⟨c, rest, rfl, h⟩
    · rintro ⟨_, _, heq, h⟩
      cases heq
      exact h

/-! ## Words and paths -/

/-- A letter or underscore, then letters, digits and underscores. -/
def Word (cs : List Char) : Prop :=
  ∃ c rest, cs = c :: rest ∧ isWordStart c = true ∧ ∀ x ∈ rest, isWordChar x = true

theorem isWord_iff (cs : List Char) : isWord cs = true ↔ Word cs :=
  startsAndContinues_iff isWordStart isWordChar cs

theorem isIdentifier_iff (text : String) : isIdentifier text = true ↔ Word text.toList :=
  isWord_iff text.toList

theorem Word.not_mem {cs : List Char} (h : Word cs) {x : Char} (hstart : isWordStart x = false)
    (hmore : isWordChar x = false) : x ∉ cs := by
  obtain ⟨c, rest, rfl, hc, hrest⟩ := h
  rw [List.mem_cons, not_or]
  refine ⟨?_, fun hmem => ?_⟩
  · rintro rfl
    exact absurd hc (by simp [hstart])
  · exact absurd (hrest x hmem) (by simp [hmore])

theorem Word.not_mem_point {cs : List Char} (h : Word cs) : '.' ∉ cs := h.not_mem (by decide) (by decide)

/-- Identifier paths are words with points between them. -/
theorem isIdentifierPath_iff (text : String) :
    isIdentifierPath text = true ↔ Text.Joined '.' Word text.toList := by
  simp only [isIdentifierPath, List.all_eq_true, isWord_iff]
  exact Text.forall_mem_splitOn_iff (fun _ => Word.not_mem_point) _

/-! ## Event names -/

/-- A small letter, then small letters, digits and underscores. -/
def EventSegment (cs : List Char) : Prop :=
  ∃ c rest, cs = c :: rest ∧ c.isLower = true ∧
    ∀ x ∈ rest, x.isLower = true ∨ x.isDigit = true ∨ x = '_'

theorem isEventSegment_iff (cs : List Char) : isEventSegment cs = true ↔ EventSegment cs := by
  rw [isEventSegment, startsAndContinues_iff]
  simp only [Bool.or_eq_true, decide_eq_true_eq, or_assoc]
  rfl

theorem EventSegment.not_mem_point {cs : List Char} (h : EventSegment cs) : '.' ∉ cs := by
  obtain ⟨c, rest, rfl, hc, hrest⟩ := h
  rw [List.mem_cons, not_or]
  refine ⟨?_, fun hmem => ?_⟩
  · rintro rfl
    exact absurd hc (by decide)
  · exact absurd (hrest '.' hmem) (by decide)

/-- A segment, and behind a point one or more segments with points between them. -/
def EventName (cs : List Char) : Prop :=
  ∃ first rest, cs = first ++ '.' :: rest ∧ EventSegment first ∧ Text.Joined '.' EventSegment rest

/-- Event names are segments with points between them, of which there is at least one. -/
theorem isEventName_iff (text : String) : isEventName text = true ↔ EventName text.toList := by
  simp only [isEventName, Bool.and_eq_true, decide_eq_true_eq, List.all_eq_true, isEventSegment_iff]
  constructor
  · rintro ⟨hlength, hsegments⟩
    match hsplit : Text.splitOn '.' text.toList with
    | [] | [_] => simp [hsplit] at hlength
    | first :: next :: more =>
      rw [hsplit, List.forall_mem_cons] at hsegments
      refine ⟨first, ['.'].intercalate (next :: more), ?_, hsegments.1,
        Text.joined_intercalate hsegments.2⟩
      rw [← Text.intercalate_splitOn '.' text.toList, hsplit]
      simp [List.intercalate]
  · rintro ⟨first, rest, htext, hfirst, hrest⟩
    rw [htext, Text.splitOn_append hfirst.not_mem_point, List.forall_mem_cons, List.length_cons]
    have hsome : 0 < (Text.splitOn '.' rest).length :=
      List.length_pos_iff.mpr (Text.splitOn_ne_nil '.' rest)
    exact ⟨by omega, hfirst,
      (Text.forall_mem_splitOn_iff (fun _ => EventSegment.not_mem_point) rest).mpr hrest⟩

/-! ## Digits -/

/-- One decimal digit or more, of any script. -/
def DecimalDigits (cs : List Char) : Prop := cs ≠ [] ∧ ∀ c ∈ cs, Text.isDecimalDigit c = true

theorem isDigits_iff (cs : List Char) : isDigits cs = true ↔ DecimalDigits cs := by
  simp [isDigits, DecimalDigits]

theorem DecimalDigits.not_mem {cs : List Char} (h : DecimalDigits cs) {c : Char}
    (hc : Text.isDecimalDigit c = false) : c ∉ cs := by
  intro hmem
  rw [h.2 c hmem] at hc
  exact Bool.noConfusion hc

/-! ## Numerals and versions -/

/-- Digits, and perhaps a point with more digits. -/
inductive UnsignedNumeric : List Char → Prop where
  | whole {digits : List Char} (h : DecimalDigits digits) : UnsignedNumeric digits
  | fraction {digits more : List Char} (h : DecimalDigits digits) (hmore : DecimalDigits more) :
      UnsignedNumeric (digits ++ '.' :: more)

/-- A numeral, or one behind a minus sign. -/
def Numeric (cs : List Char) : Prop :=
  UnsignedNumeric cs ∨ ∃ unsigned, cs = '-' :: unsigned ∧ UnsignedNumeric unsigned

/-- Digits with points between them, perhaps behind a `v`. -/
def Version (cs : List Char) : Prop :=
  Text.Joined '.' DecimalDigits cs ∨
    ∃ numbers, cs = 'v' :: numbers ∧ Text.Joined '.' DecimalDigits numbers

theorem DecimalDigits.not_mem_point {cs : List Char} (h : DecimalDigits cs) : '.' ∉ cs :=
  h.not_mem (by decide)

theorem unsignedNumeric_iff (cs : List Char) :
    (match Text.splitOn '.' cs with
      | [whole] => isDigits whole
      | [whole, fraction] => isDigits whole && isDigits fraction
      | _ => false) = true ↔ UnsignedNumeric cs := by
  constructor
  · intro h
    rw [← Text.intercalate_splitOn '.' cs]
    split at h
    · next whole heq =>
      rw [heq]
      simpa [List.intercalate] using UnsignedNumeric.whole ((isDigits_iff whole).mp h)
    · next whole fraction heq =>
      rw [heq]
      rw [Bool.and_eq_true, isDigits_iff, isDigits_iff] at h
      simpa [List.intercalate] using UnsignedNumeric.fraction h.1 h.2
    · exact Bool.noConfusion h
  · intro h
    cases h with
    | whole h => rw [Text.splitOn_of_not_mem h.not_mem_point]; exact (isDigits_iff _).mpr h
    | fraction h hmore =>
      rw [Text.splitOn_append h.not_mem_point, Text.splitOn_of_not_mem hmore.not_mem_point]
      rw [Bool.and_eq_true, isDigits_iff, isDigits_iff]
      exact ⟨h, hmore⟩

theorem DecimalDigits.head {cs : List Char} (h : DecimalDigits cs) (rest : List Char) :
    ∀ c ∈ (cs ++ rest).head?, Text.isDecimalDigit c = true := by
  obtain ⟨hne, hall⟩ := h
  intro c hc
  obtain ⟨d, ds, rfl⟩ := List.exists_cons_of_ne_nil hne
  obtain rfl : d = c := by simpa using hc
  exact hall d List.mem_cons_self

theorem UnsignedNumeric.head {cs : List Char} (h : UnsignedNumeric cs) :
    ∀ c ∈ cs.head?, Text.isDecimalDigit c = true := by
  cases h with
  | whole h => simpa using h.head []
  | fraction h _ => exact h.head _

theorem Text.Joined.head_digit {cs : List Char} (h : Joined '.' DecimalDigits cs) :
    ∀ c ∈ cs.head?, isDecimalDigit c = true := by
  cases h with
  | last h => simpa using h.head []
  | cons h _ => exact h.head _

/-- Numerals are digits with a fraction or without, perhaps behind a minus sign. -/
theorem isNumeric_iff (text : String) : isNumeric text = true ↔ Numeric text.toList := by
  unfold isNumeric Numeric
  refine (unsignedNumeric_iff _).trans ?_
  split
  · next cs heq =>
    have hunsigned : ¬UnsignedNumeric ('-' :: cs) := fun h =>
      absurd (h.head '-' rfl) (by decide)
    rw [heq, or_iff_right hunsigned]
    exact ⟨fun h => ⟨cs, rfl, h⟩, fun ⟨_, hcs, h⟩ => (List.cons.inj hcs).2 ▸ h⟩
  · next hplain =>
    exact (or_iff_left fun ⟨cs, hcs, _⟩ => hplain cs hcs).symm

/-- Versions are digits with points between them, perhaps behind a `v`. -/
theorem isVersion_iff (text : String) : isVersion text = true ↔ Version text.toList := by
  unfold isVersion Version
  simp only [List.all_eq_true, isDigits_iff]
  rw [Text.forall_mem_splitOn_iff fun _ => DecimalDigits.not_mem_point]
  split
  · next cs heq =>
    have hunmarked : ¬Text.Joined '.' DecimalDigits ('v' :: cs) := fun h =>
      absurd (h.head_digit 'v' rfl) (by decide)
    rw [heq, or_iff_right hunmarked]
    exact ⟨fun h => ⟨cs, rfl, h⟩, fun ⟨_, hcs, h⟩ => (List.cons.inj hcs).2 ▸ h⟩
  · next hplain =>
    exact (or_iff_left fun ⟨cs, hcs, _⟩ => hplain cs hcs).symm

end ServiceLang
