import Mathlib.Data.List.Induction
import ServiceLang.Source.LineMap

/-!
Positions in a text with blanks in front.

`Position.indent w` says where a position goes when the blanks `w` are put in front of the
text: the offset grows by their length and the line by their newlines, and on the first line
the column grows by the blanks behind the last newline.  The positions of all offsets go
there (`Source.position_blanks_append`), also of offsets inside a character and behind the
end of the text.
-/

namespace ServiceLang

/-- The characters behind the last newline of a text. -/
def lastLine (w : List Char) : List Char := (w.reverse.takeWhile (· ≠ '\n')).reverse

/-- Where a position goes when the text `w` is put in front of the source. -/
def Position.indent (w : List Char) (p : Position) : Position where
  filename := p.filename
  line := p.line + w.count '\n'
  column := if p.line = 1 then p.column + (lastLine w).length else p.column
  offset := p.offset + byteLength w

theorem lastLine_concat (w : List Char) (c : Char) :
    lastLine (w ++ [c]) = if c = '\n' then [] else lastLine w ++ [c] := by
  unfold lastLine
  rw [List.reverse_append, List.reverse_singleton, List.singleton_append, List.takeWhile_cons]
  split <;> simp_all

theorem mem_of_mem_lastLine {w : List Char} {c : Char} (h : c ∈ lastLine w) : c ∈ w :=
  List.mem_reverse.1 ((List.takeWhile_sublist _).subset (List.mem_reverse.1 h))

theorem length_lastLine_le (w : List Char) : (lastLine w).length ≤ byteLength w := by
  unfold lastLine
  rw [List.length_reverse]
  calc (w.reverse.takeWhile (· ≠ '\n')).length
      ≤ w.reverse.length := (List.takeWhile_sublist _).length_le
    _ = w.length := List.length_reverse
    _ ≤ byteLength w := length_le_byteLength w

theorem byteLength_of_blanks {w : List Char} (hw : ∀ c ∈ w, isBlank c) : byteLength w = w.length := by
  induction w with
  | nil => rfl
  | cons c w ih =>
    have hc : c.utf8Size = 1 := by
      have := hw c List.mem_cons_self
      simp only [isBlank, Bool.or_eq_true, decide_eq_true_eq] at this
      rcases this with ((rfl | rfl) | rfl) | rfl <;> rfl
    rw [byteLength_cons, hc, ih fun b hb => hw b (List.mem_cons_of_mem c hb), List.length_cons, Nat.add_comm]

namespace Source.Place

/-- The walk passes what lies before the target. -/
theorem seek_append (w s : List Char) (p : Place) (n : Nat) :
    seek (p.offset + ServiceLang.byteLength w + n) p (w ++ s) =
      seek (p.offset + ServiceLang.byteLength w + n) (w.foldl advance p) s := by
  induction w generalizing p with
  | nil => rfl
  | cons c w ih =>
    have hc := c.utf8Size_pos
    have hoffset : (p.advance c).offset = p.offset + c.utf8Size := by
      unfold advance
      split <;> rfl
    rw [List.cons_append, seek, if_neg (by simp; omega), if_neg (by simp; omega), List.foldl_cons]
    have h := ih (p.advance c)
    rwa [hoffset, Nat.add_assoc p.offset] at h

/-- The walk from the beginning passes a text in front of the target. -/
theorem seek_start_append (w s : List Char) (n : Nat) :
    start.seek (ServiceLang.byteLength w + n) (w ++ s) =
      (w.foldl advance start).seek (ServiceLang.byteLength w + n) s := by
  have hseek := seek_append w s start n
  rwa [show start.offset = 0 from rfl, Nat.zero_add] at hseek

/-- Where the walk is behind a text. -/
theorem foldl_advance (w : List Char) : w.foldl advance start =
    ⟨ServiceLang.byteLength w, 1 + w.count '\n', 1 + (lastLine w).length,
      ServiceLang.byteLength w - ServiceLang.byteLength (lastLine w)⟩ := by
  induction w using List.reverseRecOn with
  | nil => rfl
  | append_singleton w c ih =>
    rw [List.foldl_append, ih, List.foldl_cons, List.foldl_nil, lastLine_concat]
    unfold advance
    by_cases h : c = '\n'
    · subst h
      simp
      omega
    · simp [h]
      omega

/-- The second walk is as far behind a text of `k` bytes as the first is without it; the text
has `n` newlines, and behind them `l` characters. -/
structure Indented (k n l : Nat) (p p' : Place) : Prop where
  offset_eq : p'.offset = p.offset + k
  line_eq : p'.line = p.line + n
  line_pos : 1 ≤ p.line
  lineStart_le : p.lineStart ≤ p.offset
  first : p.line = 1 → p'.column = p.column + l ∧ p'.lineStart + l = p.lineStart + k
  later : p.line ≠ 1 → p'.column = p.column ∧ p'.lineStart = p.lineStart + k

namespace Indented

variable {k n l : Nat} {p p' : Place}

theorem advance (h : Indented k n l p p') (c : Char) :
    Indented k n l (p.advance c) (p'.advance c) := by
  have hoffset := h.offset_eq
  have hline := h.line_eq
  have hpos := h.line_pos
  have hle := h.lineStart_le
  unfold Place.advance
  dsimp only
  split
  · exact ⟨by dsimp only; omega, by dsimp only; omega, by dsimp only; omega, by dsimp only; omega,
      by dsimp only; omega, by dsimp only; omega⟩
  · refine ⟨by dsimp only; omega, hline, hpos, by dsimp only; omega, fun h1 => ?_, fun h1 => ?_⟩
    · have := h.first h1
      dsimp only
      omega
    · have := h.later h1
      dsimp only
      omega

theorem seek (h : Indented k n l p p') (target : Nat) (s : List Char) :
    Indented k n l (p.seek target s) (p'.seek (target + k) s) := by
  induction s generalizing p p' with
  | nil => exact h
  | cons c s ih =>
    have hoffset := h.offset_eq
    have hle := h.lineStart_le
    unfold Place.seek
    by_cases h1 : target ≤ p.offset
    · have h1' : target + k ≤ p'.offset := by omega
      rw [if_pos h1, if_pos h1']
      exact h
    have h1' : ¬target + k ≤ p'.offset := by omega
    rw [if_neg h1, if_neg h1']
    by_cases h2 : target < p.offset + c.utf8Size
    · have h2' : target + k < p'.offset + c.utf8Size := by omega
      rw [if_pos h2, if_pos h2']
      refine ⟨rfl, h.line_eq, h.line_pos, by dsimp only; omega, fun hl => ?_, fun hl => ?_⟩
      · have := h.first hl
        dsimp only
        omega
      · have := h.later hl
        dsimp only
        omega
    · have h2' : ¬target + k < p'.offset + c.utf8Size := by omega
      rw [if_neg h2, if_neg h2']
      exact ih (h.advance c)

end Indented

end Source.Place

/-- Offsets behind the end have the position of the end. -/
theorem Source.position_of_byteLength_le (s : Source) {offset : Nat} (h : s.byteLength ≤ offset) :
    s.position offset = s.position s.byteLength := by
  have hseek (n : Nat) : Place.start.seek (s.byteLength + n) s.text = s.text.foldl Place.advance Place.start := by
    have := Place.seek_start_append s.text [] n
    rwa [List.append_nil] at this
  unfold position
  rw [← Nat.add_sub_of_le h, hseek, ← hseek 0, Nat.add_zero]

/-- Blanks in front of a text move the positions of its offsets. -/
theorem Source.position_blanks_append {w : List Char} (hw : ∀ c ∈ w, isBlank c) (filename : String)
    (s : List Char) (offset : Nat) :
    (Source.mk filename (w ++ s)).position (ServiceLang.byteLength w + offset) =
      ((Source.mk filename s).position offset).indent w := by
  have hstart : Place.Indented (ServiceLang.byteLength w) (w.count '\n') (lastLine w).length Place.start
      (w.foldl Place.advance Place.start) := by
    have hlast : ServiceLang.byteLength (lastLine w) = (lastLine w).length :=
      byteLength_of_blanks fun c hc => hw c (mem_of_mem_lastLine hc)
    have hle := length_lastLine_le w
    rw [Place.foldl_advance, hlast]
    refine ⟨?_, ?_, ?_, ?_, fun _ => ⟨?_, ?_⟩, fun h => absurd rfl h⟩ <;>
      dsimp only [Place.start] <;> omega
  have h := hstart.seek offset s
  unfold Source.position Position.indent
  dsimp only
  rw [Place.seek_start_append, Nat.add_comm (ServiceLang.byteLength w), h.line_eq, h.offset_eq]
  split
  · next hline => rw [(h.first hline).1]
  · next hline => rw [(h.later hline).1]

end ServiceLang
