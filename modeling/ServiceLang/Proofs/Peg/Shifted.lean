import ServiceLang.Proofs.Peg.Alike

/-!
Matching further on in a text.

Apart from the start of the text, no pattern sees what is behind it.  So where a cursor is
moved and has the same text ahead, a pattern that does not ask for the start matches as it
did before, and leaves the same nodes, moved (`MatchesAlike.of_floats`).
-/

namespace ServiceLang.Peg

variable {R : Type} {g : Grammar R} {k : Nat}

/-- The cursor so many bytes further on, with the same text ahead. -/
def Cursor.shift (k : Nat) (c : Cursor) : Cursor := ⟨c.offset + k, c.rest⟩

/-- The second cursor is the first one, further on. -/
def Shifted (k : Nat) (c c' : Cursor) : Prop := c' = c.shift k

@[simp] theorem rest_shift (k : Nat) (c : Cursor) : (c.shift k).rest = c.rest := rfl

/-! ## Cursors -/

namespace Cursor

theorem next?_shift (p : Char → Bool) (c : Cursor) :
    (c.shift k).next? p = (c.next? p).map (shift k) := by
  unfold Cursor.next? Cursor.shift
  dsimp only
  split
  · rfl
  · split
    · simp [Nat.add_right_comm]
    · rfl

theorem strip?_shift (cs : List Char) (c : Cursor) :
    (c.shift k).strip? cs = (c.strip? cs).map (Cursor.shift k) := by
  induction cs generalizing c with
  | nil => rfl
  | cons x cs ih =>
    unfold Cursor.strip?
    rw [next?_shift]
    cases c.next? (· = x) with
    | none => rfl
    | some d => exact ih d

theorem skipWhile_shift (p : Char → Bool) (c : Cursor) :
    (c.shift k).skipWhile p = (c.skipWhile p).shift k := by
  simp [Cursor.skipWhile, Cursor.shift, Nat.add_right_comm]

theorem afterBlockComment?_shift (offset : Nat) (cs : List Char) :
    afterBlockComment? (offset + k) cs = (afterBlockComment? offset cs).map (Cursor.shift k) := by
  induction offset, cs using afterBlockComment?.induct with
  | case1 offset rest => simp [afterBlockComment?, Cursor.shift, Nat.add_right_comm]
  | case2 offset c rest hclose ih =>
    rw [afterBlockComment?, afterBlockComment?, ← ih, Nat.add_right_comm]
    · exact hclose
    · exact hclose
  | case3 offset => rfl

theorem comment?_shift (c : Cursor) :
    comment? (c.shift k) = (comment? c).map (Cursor.shift k) := by
  unfold comment?
  rw [rest_shift]
  split
  · next rest _ =>
    have h := skipWhile_shift (k := k) (· ≠ '\n') ⟨c.offset + 2, rest⟩
    rw [Option.map_some, ← h]
    simp [Cursor.shift, Nat.add_right_comm]
  · next rest _ =>
    rw [← afterBlockComment?_shift]
    simp [Cursor.shift, Nat.add_right_comm]
  · rfl

theorem skipComments_shift (n : Nat) (c : Cursor) :
    skipComments n (c.shift k) = (skipComments n c).shift k := by
  induction n generalizing c with
  | zero => rfl
  | succ n ih =>
    unfold skipComments
    rw [comment?_shift]
    cases comment? c with
    | none => rfl
    | some d =>
      rw [Option.map_some]
      dsimp only
      rw [skipWhile_shift, ih]

theorem skipTrivia_shift (c : Cursor) : skipTrivia (c.shift k) = (skipTrivia c).shift k := by
  unfold skipTrivia
  rw [skipWhile_shift]
  dsimp only
  rw [comment?_shift, Option.isSome_map, skipComments_shift, rest_shift]
  split <;> rfl

theorem gap_shift (sep : Bool) (mode : Mode) (c : Cursor) :
    gap sep mode (c.shift k) = (gap sep mode c).shift k := by
  unfold gap
  split
  · exact skipTrivia_shift c
  · rfl

end Cursor

/-! ## Patterns -/

/-- The pattern does not ask for the start of the text; `ok` says it of rules. -/
def Pattern.floats (ok : R → Bool) : Pattern R → Bool
  | literal _ | oneOf _ | textEnd => true
  | rule r => ok r
  | andThen p q | orElse p q => p.floats ok && q.floats ok
  | many p | optional p | notHere p => p.floats ok
  | textStart => false

abbrev ShiftedTrees (g : Grammar R) (k : Nat) : ParseTree R → ParseTree R → Prop :=
  ParseTree.Related (IsTwin g (Shifted k))

theorem repeatStep_shift (step : Cursor → Attempts R → Outcome R)
    {N : ParseTree R → ParseTree R → Prop}
    (hstep : ∀ d log log', Outcome.Alike N (Shifted k) (step d log) (step (d.shift k) log'))
    (n : Nat) (c : Cursor) (log log' : Attempts R) :
    List.Forall₂ N (repeatStep step n c log).1 (repeatStep step n (c.shift k) log').1 ∧
      Shifted k (repeatStep step n c log).2.1 (repeatStep step n (c.shift k) log').2.1 := by
  induction n generalizing c log log' with
  | zero => exact ⟨.nil, rfl⟩
  | succ n ih =>
    have hs := hstep c log log'
    unfold repeatStep
    generalize step c log = o at hs
    generalize step (c.shift k) log' = o' at hs
    cases hs with
    | failed => exact ⟨.nil, rfl⟩
    | @matched a a' d d' l l' ha hd =>
      obtain rfl : d' = d.shift k := hd
      obtain ⟨hall, hshift⟩ := ih d l l'
      exact ⟨List.rel_append ha hall, hshift⟩

namespace MatchesAlike

variable {fuel : Nat} {sep : Bool} {p : Pattern R} {mode : Mode} {ok : R → Bool}

theorem ofCursor_shift {N : ParseTree R → ParseTree R → Prop} (next? : Option Cursor)
    (log log' : Attempts R) : Outcome.Alike N (Shifted k) (.ofCursor next? log)
      (.ofCursor (next?.map (Cursor.shift k)) log') := by
  cases next? with
  | none => exact .failed
  | some d => exact .matched .nil rfl

theorem many_shift {N : ParseTree R → ParseTree R → Prop}
    {call : R → Mode → Cursor → Attempts R → Outcome R}
    (h : ∀ d, MatchesAlike call sep N (Shifted k) p mode d (d.shift k)) (c : Cursor) :
    MatchesAlike call sep N (Shifted k) (.many p) mode c (c.shift k) := by
  intro log log'
  have hs := h c log log'
  unfold matchPattern
  generalize matchPattern call sep p mode c log = o at hs
  generalize matchPattern call sep p mode (c.shift k) log' = o' at hs
  cases hs with
  | failed => exact .matched .nil rfl
  | @matched a a' d d' l l' ha hd =>
    obtain rfl : d' = d.shift k := hd
    obtain ⟨hall, hshift⟩ := repeatStep_shift
      (fun c log => matchPattern call sep p mode (gap sep mode c) log)
      (fun e l l' => by rw [Cursor.gap_shift]; exact h _ l l') (d.rest.length + 1) d l l'
    exact .matched (List.rel_append ha hall) hshift

theorem of_floats_pattern (hrule : ∀ sep r mode c, ok r →
      MatchesAlike (matchRule g fuel) sep (ShiftedTrees g k) (Shifted k) (.rule r) mode c (c.shift k))
    (hp : p.floats ok) (c : Cursor) :
    MatchesAlike (matchRule g fuel) sep (ShiftedTrees g k) (Shifted k) p mode c (c.shift k) := by
  induction p generalizing mode c with
  | literal text =>
    intro log log'
    unfold matchPattern
    rw [Cursor.strip?_shift]
    exact ofCursor_shift _ _ _
  | oneOf cls =>
    intro log log'
    unfold matchPattern
    rw [Cursor.next?_shift]
    exact ofCursor_shift _ _ _
  | rule r => exact hrule sep r mode c hp
  | andThen p q ihp ihq =>
    obtain ⟨hp, hq⟩ := Bool.and_eq_true_iff.1 hp
    refine .andThen (ihp hp c) fun d d' hd => ?_
    obtain rfl : d' = d.shift k := hd
    rw [Cursor.gap_shift]
    exact ihq hq _
  | orElse p q ihp ihq =>
    obtain ⟨hp, hq⟩ := Bool.and_eq_true_iff.1 hp
    exact .orElse (ihp hp c) (ihq hq c)
  | many p ih => exact many_shift (fun d => ih hp d) c
  | optional p ih => exact .optional (ih hp c) rfl
  | notHere p ih => exact .notHere (ih hp c) rfl
  | textStart => cases hp
  | textEnd =>
    intro log log'
    unfold matchPattern
    rw [rest_shift]
    split
    · exact .matched .nil rfl
    · exact .failed

/-- Rules that do not ask for the start of the text match alike wherever they stand. -/
theorem of_floats (hok : ∀ r, ok r → (g.definition r).pattern.floats ok) (fuel : Nat) (sep : Bool)
    {p : Pattern R} (hp : p.floats ok) (mode : Mode) (c : Cursor) :
    MatchesAlike (matchRule g fuel) sep (ShiftedTrees g k) (Shifted k) p mode c (c.shift k) := by
  induction fuel generalizing sep p mode c with
  | zero => exact of_floats_pattern (fun _ _ _ _ _ _ _ => .failed) hp c
  | succ fuel ih =>
    exact of_floats_pattern (fun sep r mode c hr => .rule rfl (ih _ (hok r hr) _ c)) hp c

end MatchesAlike

end ServiceLang.Peg
