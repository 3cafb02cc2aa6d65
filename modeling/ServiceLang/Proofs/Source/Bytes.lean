import ServiceLang.Source.LineMap

/-!
A text as bytes, and what the bytes say about lines.

`utf8` is the encoding.  A newline byte comes from a newline character and from no
other (`newline_mem_utf8EncodeChar`), so the line of an offset is one more than the
number of newline bytes before it (`Source.line_position`), wherever characters
begin and end.  Texts whose newline bytes stand at the same offsets therefore
agree on the line of every offset.
-/

namespace ServiceLang

def utf8 (cs : List Char) : List UInt8 := cs.flatMap String.utf8EncodeChar

def newline : UInt8 := 10

@[simp] theorem utf8_nil : utf8 [] = [] := rfl

@[simp] theorem utf8_cons (c : Char) (cs : List Char) :
    utf8 (c :: cs) = String.utf8EncodeChar c ++ utf8 cs := rfl

@[simp] theorem utf8_append (xs ys : List Char) : utf8 (xs ++ ys) = utf8 xs ++ utf8 ys := by
  simp [utf8]

theorem length_utf8 (cs : List Char) : (utf8 cs).length = byteLength cs := by
  induction cs with
  | nil => rfl
  | cons c cs ih => simp [ih]

/-- Every character takes a byte. -/
theorem eq_nil_of_byteLength_eq_zero {cs : List Char} (h : byteLength cs = 0) : cs = [] := by
  cases cs with
  | nil => rfl
  | cons c cs =>
    have := c.utf8Size_pos
    rw [byteLength_cons] at h
    omega

/-- No byte but that of a newline character is a newline. -/
theorem newline_mem_utf8EncodeChar (c : Char) :
    newline ∈ String.utf8EncodeChar c ↔ c = '\n' := by
  constructor
  · intro h
    have hc : c.val.toNat = 10 := by
      have ofNat : ∀ n, newline = UInt8.ofNat n → n % 256 = 10 := by
        intro n hn
        have := congrArg UInt8.toNat hn
        simpa [newline, eq_comm] using this
      unfold String.utf8EncodeChar at h
      simp only [] at h
      split at h
      · have := ofNat _ (List.mem_singleton.1 h)
        omega
      split at h
      · simp only [List.mem_cons, List.not_mem_nil, or_false] at h
        rcases h with h | h <;> exact absurd (ofNat _ h) (by omega)
      split at h
      · simp only [List.mem_cons, List.not_mem_nil, or_false] at h
        rcases h with h | h | h <;> exact absurd (ofNat _ h) (by omega)
      · simp only [List.mem_cons, List.not_mem_nil, or_false] at h
        rcases h with h | h | h | h <;> exact absurd (ofNat _ h) (by omega)
    exact Char.toNat_inj.1 hc
  · rintro rfl
    decide

theorem count_newline_utf8EncodeChar (c : Char) :
    (String.utf8EncodeChar c).count newline = if c = '\n' then 1 else 0 := by
  by_cases h : c = '\n'
  · subst h
    decide
  · rw [if_neg h, List.count_eq_zero]
    exact fun hm => h ((newline_mem_utf8EncodeChar c).1 hm)

/-- A text has as many newline bytes as newlines. -/
theorem count_newline_utf8 (k : List Char) : (utf8 k).count newline = k.count '\n' := by
  induction k with
  | nil => rfl
  | cons c k ih =>
    rw [utf8_cons, List.count_append, ih, count_newline_utf8EncodeChar, List.count_cons, Nat.add_comm]
    simp

namespace Source

/-- A walk counts the newline bytes that it passes. -/
theorem Place.line_seek (target : Nat) (p : Place) (cs : List Char) :
    (p.seek target cs).line = p.line + ((utf8 cs).take (target - p.offset)).count newline := by
  induction cs generalizing p with
  | nil => simp [Place.seek]
  | cons c cs ih =>
    unfold Place.seek
    split
    · next h =>
      have : target - p.offset = 0 := by omega
      simp [this]
    next h =>
    have hlen : (String.utf8EncodeChar c).length = c.utf8Size := String.length_utf8EncodeChar c
    split
    · -- inside a character, which is then no newline
      next h2 =>
      have hc : c ≠ '\n' := by
        rintro rfl
        have : ('\n' : Char).utf8Size = 1 := rfl
        omega
      have hn : newline ∉ (String.utf8EncodeChar c).take (target - p.offset) := by
        intro hm
        exact hc ((newline_mem_utf8EncodeChar c).1 (List.mem_of_mem_take hm))
      rw [utf8_cons, List.take_append_of_le_length (by omega), List.count_eq_zero.2 hn]
      rfl
    · next h2 =>
      have hsub : target - p.offset = c.utf8Size + (target - (p.offset + c.utf8Size)) := by omega
      rw [ih (p.advance c), utf8_cons, hsub, ← hlen, List.take_length_add_append, List.count_append,
        count_newline_utf8EncodeChar]
      by_cases hc : c = '\n'
      · simp [Place.advance, hc]
        omega
      · simp [Place.advance, hc]

/-- The line of an offset is one more than the number of newlines before it. -/
theorem line_position (s : Source) (offset : Nat) :
    (s.position offset).line = 1 + ((utf8 s.text).take offset).count newline := by
  unfold position
  exact Place.line_seek offset Place.start s.text

theorem Place.offset_seek (target : Nat) (p : Place) (cs : List Char) (h : p.offset ≤ target) :
    (p.seek target cs).offset = min target (p.offset + ServiceLang.byteLength cs) := by
  induction cs generalizing p with
  | nil => simp [Place.seek, Nat.min_eq_right h]
  | cons c cs ih =>
    unfold Place.seek
    rw [byteLength_cons]
    split
    · omega
    split
    · dsimp only
      omega
    · have ho : (p.advance c).offset = p.offset + c.utf8Size := by
        unfold Place.advance
        dsimp only
        split <;> rfl
      rw [ih (p.advance c) (by omega), ho]
      omega

/-- A position keeps its offset, as far as the text goes. -/
theorem offset_position_eq_min (s : Source) (offset : Nat) :
    (s.position offset).offset = min offset s.byteLength := by
  have hseek := Place.offset_seek offset Place.start s.text (Nat.zero_le _)
  rwa [show Place.start.offset = 0 from rfl, Nat.zero_add] at hseek

/-- No position is behind the end of the text. -/
theorem offset_position_le (s : Source) (offset : Nat) : (s.position offset).offset ≤ s.byteLength := by
  rw [offset_position_eq_min]
  exact Nat.min_le_right _ _

theorem offset_position_le_self (s : Source) (offset : Nat) : (s.position offset).offset ≤ offset := by
  rw [offset_position_eq_min]
  exact Nat.min_le_left _ _

/-- The position of an offset in the text keeps the offset. -/
theorem offset_position (s : Source) (offset : Nat) (h : offset ≤ s.byteLength) :
    (s.position offset).offset = offset := by
  rw [offset_position_eq_min, Nat.min_eq_left h]

end Source

end ServiceLang
