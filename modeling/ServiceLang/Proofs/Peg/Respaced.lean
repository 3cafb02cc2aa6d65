import Mathlib.Data.Option.Basic
import ServiceLang.Proofs.Peg.Cursor
import ServiceLang.Proofs.Source.Chars

/-!
Two texts that differ in the blanks at one place.

The texts `front ++ x ++ back` and `front ++ y ++ back` have blanks `x` and `y` at the same
place, at least one each.  Two cursors are `Twin` if both stand in `front` at the same
offset, or both in `back` with the same text ahead.  A character that is no blank is read
by both or by neither (`Twin.next?`), and trivia takes both to the same place
(`Twin.skipTrivia`): the blanks at the place are all skipped, and a comment that runs into
them ends in the same way, provided that the place has newlines in both texts or in none.
-/

namespace ServiceLang.Peg

/-- Behind the text, a line comment may be open: `//` stands on its last line. -/
def OpensLineComment (text : List Char) : Prop :=
  ∃ p q, text = p ++ '/' :: '/' :: q ∧ '\n' ∉ q

/-- In the place of the blanks `x` stand the blanks `y`, and a line comment ends in both of
them or in neither. -/
structure Respaced (front x y : List Char) : Prop where
  ne_nil : x ≠ []
  ne_nil' : y ≠ []
  blank : ∀ c ∈ x, isBlank c
  blank' : ∀ c ∈ y, isBlank c
  lines : ('\n' ∈ x ↔ '\n' ∈ y) ∨ ¬OpensLineComment front

/-- The cursors stand at the same place of the two texts, outside the blanks. -/
inductive Twin (front x y back : List Char) : Cursor → Cursor → Prop
  | before {p w : List Char} : front = p ++ w →
      Twin front x y back ⟨byteLength p, w ++ (x ++ back)⟩ ⟨byteLength p, w ++ (y ++ back)⟩
  | behind {p w : List Char} : back = p ++ w →
      Twin front x y back ⟨byteLength (front ++ x ++ p), w⟩ ⟨byteLength (front ++ y ++ p), w⟩

variable {front x y back : List Char} {c c' : Cursor}

theorem Twin.start : Twin front x y back (.start (front ++ (x ++ back))) (.start (front ++ (y ++ back))) :=
  .before (p := []) rfl

theorem rel_imp {α β : Type} {r s : α → β → Prop} {o : Option α} {o' : Option β}
    (h : Option.Rel r o o') (hs : ∀ a b, r a b → s a b) : Option.Rel s o o' := by
  cases h with
  | none => exact .none
  | some h => exact .some (hs _ _ h)

/-- If no blank is next in the first text, none is in the second. -/
theorem Twin.solid (hr : Respaced front x y) (h : Twin front x y back c c')
    (hc : ∀ b ∈ c.rest.head?, isBlank b = false) : ∀ b ∈ c'.rest.head?, isBlank b = false := by
  cases h with
  | behind => exact hc
  | @before p w h =>
    cases w with
    | cons b w => exact hc
    | nil =>
      obtain ⟨b, z, rfl⟩ := List.exists_cons_of_ne_nil hr.ne_nil
      have := hc b rfl
      rw [hr.blank b List.mem_cons_self] at this
      cases this

/-! ## Reading on -/

/-- A property holds along a text, or up to a first character without it. -/
theorem all_or_first (p : Char → Bool) (w : List Char) :
    (∀ b ∈ w, p b) ∨ ∃ u b v, w = u ++ b :: v ∧ (∀ b ∈ u, p b) ∧ p b = false := by
  induction w with
  | nil => exact .inl nofun
  | cons b w ih =>
    cases hb : p b with
    | false => exact .inr ⟨[], b, w, rfl, nofun, hb⟩
    | true =>
      rcases ih with h | ⟨u, d, v, rfl, hu, hd⟩
      · exact .inl (List.forall_mem_cons.2 ⟨hb, h⟩)
      · exact .inr ⟨b :: u, d, v, rfl, List.forall_mem_cons.2 ⟨hb, hu⟩, hd⟩

/-- What is read of a text begins with all that is read of its beginning. -/
theorem Cursor.skipWhile_append {p : Char → Bool} {o : Nat} {u r : List Char} (h : ∀ c ∈ u, p c) :
    Cursor.skipWhile p ⟨o, u ++ r⟩ = Cursor.skipWhile p ⟨o + byteLength u, r⟩ := by
  induction u generalizing o with
  | nil => rfl
  | cons c u ih =>
    have hc : p c := h c List.mem_cons_self
    have hu := ih (o := o + c.utf8Size) fun d hd => h d (List.mem_cons_of_mem c hd)
    unfold Cursor.skipWhile at hu ⊢
    obtain ⟨ho, hdrop⟩ := Cursor.mk.inj hu
    dsimp only at ho hdrop
    simp only [List.cons_append, List.takeWhile_cons, List.dropWhile_cons, hc, ↓reduceIte, byteLength_cons,
      hdrop, Cursor.mk.injEq, and_true]
    omega

theorem Cursor.skipWhile_stop {p : Char → Bool} {o : Nat} {c : Char} {r : List Char} (h : p c = false) :
    Cursor.skipWhile p ⟨o, c :: r⟩ = ⟨o, c :: r⟩ := by
  simp [Cursor.skipWhile, h]

/-- Behind the blanks, both cursors go on over the same text. -/
theorem Twin.of_passes {p w k r : List Char} (h : back = p ++ w) (hk : w = k ++ r) :
    Twin front x y back ⟨byteLength (front ++ x ++ p) + byteLength k, r⟩
      ⟨byteLength (front ++ y ++ p) + byteLength k, r⟩ := by
  subst hk
  rw [← byteLength_append, ← byteLength_append, List.append_assoc _ p, List.append_assoc _ p]
  exact .behind (by rw [h, List.append_assoc])

/-- Before the blanks, both cursors go on over the same text. -/
theorem Twin.of_passes' {p k w : List Char} (h : front = p ++ (k ++ w)) :
    Twin front x y back ⟨byteLength p + byteLength k, w ++ (x ++ back)⟩
      ⟨byteLength p + byteLength k, w ++ (y ++ back)⟩ := by
  rw [← byteLength_append]
  exact .before (by rw [h, List.append_assoc])

/-- A character that is no blank is read by both or by neither. -/
theorem Twin.next? (hr : Respaced front x y) (h : Twin front x y back c c') {p : Char → Bool}
    (hp : ∀ b, isBlank b → p b = false) :
    Option.Rel (Twin front x y back) (c.next? p) (c'.next? p) := by
  have none {z : List Char} (hne : z ≠ []) (hz : ∀ b ∈ z, isBlank b) (o : Nat) :
      Cursor.next? p ⟨o, z ++ back⟩ = none := by
    obtain ⟨b, z, rfl⟩ := List.exists_cons_of_ne_nil hne
    simp [Cursor.next?, hp b (hz b List.mem_cons_self)]
  cases h with
  | @before q w h =>
    cases w with
    | nil =>
      rw [List.nil_append, List.nil_append, none hr.ne_nil hr.blank, none hr.ne_nil' hr.blank']
      exact .none
    | cons b w =>
      unfold Cursor.next?
      dsimp only [List.cons_append]
      split
      · have : Twin front x y back _ _ := Twin.of_passes' (k := [b]) h
        exact .some (by simpa using this)
      · exact .none
  | @behind q w h =>
    cases w with
    | nil => exact .none
    | cons b w =>
      unfold Cursor.next?
      dsimp only
      split
      · have : Twin front x y back _ _ := Twin.of_passes h (k := [b]) rfl
        exact .some (by simpa using this)
      · exact .none

/-- A text without blanks is read by both or by neither. -/
theorem Twin.strip? (hr : Respaced front x y) (h : Twin front x y back c c') {k : List Char}
    (hk : ∀ b ∈ k, isBlank b = false) :
    Option.Rel (Twin front x y back) (c.strip? k) (c'.strip? k) := by
  induction k generalizing c c' with
  | nil => exact .some h
  | cons b k ih =>
    have hb := hk b List.mem_cons_self
    have hn : ∀ z, isBlank z → decide (z = b) = false := by
      intro z hz
      rw [decide_eq_false_iff_not]
      rintro rfl
      rw [hb] at hz
      cases hz
    have hnext := h.next? hr hn
    unfold Cursor.strip?
    cases hd : c.next? (· = b) with
    | none =>
      rw [hd] at hnext
      cases hd' : c'.next? (· = b) with
      | none => exact .none
      | some d' => rw [hd'] at hnext; cases hnext
    | some d =>
      rw [hd] at hnext
      cases hd' : c'.next? (· = b) with
      | none => rw [hd'] at hnext; cases hnext
      | some d' =>
        rw [hd'] at hnext
        cases hnext with
        | some hnext => exact ih hnext fun z hz => hk z (List.mem_cons_of_mem b hz)

/-! ## Trivia -/

/-- Behind a cursor that stands in the blanks or before blanks, both go on in the text behind. -/
theorem Twin.skipWhile_behind (p : Char → Bool) :
    Twin front x y back (Cursor.skipWhile p ⟨byteLength (front ++ x), back⟩)
      (Cursor.skipWhile p ⟨byteLength (front ++ y), back⟩) := by
  have : Twin front x y back _ _ := Twin.of_passes (p := []) (w := back) rfl
    (List.takeWhile_append_dropWhile (p := p)).symm
  simpa [Cursor.skipWhile] using this

/-- Blanks are skipped to the same place. -/
theorem Twin.skipBlanks (hr : Respaced front x y) (h : Twin front x y back c c') :
    Twin front x y back (c.skipWhile isBlank) (c'.skipWhile isBlank) := by
  cases h with
  | @behind p w h =>
    exact .of_passes h List.takeWhile_append_dropWhile.symm
  | @before p w h =>
    by_cases hw : ∀ b ∈ w, isBlank b
    · -- nothing but blanks is left before the place
      rw [Cursor.skipWhile_append hw, Cursor.skipWhile_append hw, Cursor.skipWhile_append hr.blank,
        Cursor.skipWhile_append hr.blank', ← byteLength_append, ← byteLength_append,
        ← byteLength_append, ← h]
      exact .skipWhile_behind _
    · obtain ⟨u, b, v, rfl, hu, hb⟩ := (all_or_first isBlank w).resolve_left hw
      rw [List.append_assoc, List.append_assoc, Cursor.skipWhile_append hu, Cursor.skipWhile_append hu,
        List.cons_append, List.cons_append, Cursor.skipWhile_stop hb, Cursor.skipWhile_stop hb]
      exact .of_passes' h

theorem afterBlockComment?_cons (o : Nat) {b : Char} {w : List Char}
    (h : ¬(b = '*' ∧ w.head? = some '/')) :
    afterBlockComment? o (b :: w) = afterBlockComment? (o + b.utf8Size) w := by
  conv => lhs; unfold afterBlockComment?
  split
  · next heq =>
    obtain ⟨rfl, rfl⟩ := List.cons.inj heq
    exact absurd ⟨rfl, rfl⟩ h
  · next heq =>
    obtain ⟨rfl, rfl⟩ := List.cons.inj heq
    rfl
  · next heq => cases heq

/-- A block comment ends at the same text, wherever it stands. -/
theorem afterBlockComment?_shift (o o' : Nat) (w : List Char) :
    Option.Rel (fun d d' => ∃ k, Cursor.Passes ⟨o, w⟩ k d ∧ Cursor.Passes ⟨o', w⟩ k d')
      (afterBlockComment? o w) (afterBlockComment? o' w) := by
  induction w generalizing o o' with
  | nil => exact .none
  | cons b w ih =>
    by_cases h : b = '*' ∧ w.head? = some '/'
    · obtain ⟨rfl, hw⟩ := h
      obtain ⟨r, rfl⟩ := List.head?_eq_some_iff.1 hw
      exact .some ⟨['*', '/'], ⟨rfl, rfl⟩, ⟨rfl, rfl⟩⟩
    · have further {o : Nat} {k : List Char} {d : Cursor}
          (hd : Cursor.Passes ⟨o + b.utf8Size, w⟩ k d) : Cursor.Passes ⟨o, b :: w⟩ (b :: k) d :=
        Cursor.Passes.append (k := [b]) ⟨rfl, by simp⟩ hd
      rw [afterBlockComment?_cons o h, afterBlockComment?_cons o' h]
      exact rel_imp (ih _ _) fun d d' ⟨k, hd, hd'⟩ => ⟨b :: k, further hd, further hd'⟩

/-- A comment ends at the same text, wherever it stands. -/
theorem comment?_shift (o o' : Nat) (w : List Char) :
    Option.Rel (fun d d' => ∃ k, Cursor.Passes ⟨o, w⟩ k d ∧ Cursor.Passes ⟨o', w⟩ k d')
      (comment? ⟨o, w⟩) (comment? ⟨o', w⟩) := by
  have further {o : Nat} {b : Char} {w k : List Char} {d : Cursor} (hb : b.utf8Size = 1)
      (hd : Cursor.Passes ⟨o + 2, w⟩ k d) : Cursor.Passes ⟨o, '/' :: b :: w⟩ ('/' :: b :: k) d := by
    refine Cursor.Passes.append (k := ['/', b]) ⟨rfl, ?_⟩ hd
    rw [byteLength_cons, byteLength_cons, hb]
    rfl
  unfold comment?
  dsimp only
  split
  · next rest =>
    exact .some ⟨'/' :: '/' :: rest.takeWhile (· ≠ '\n'),
      further rfl ⟨List.takeWhile_append_dropWhile.symm, rfl⟩,
      further rfl ⟨List.takeWhile_append_dropWhile.symm, rfl⟩⟩
  · next rest =>
    exact rel_imp (afterBlockComment?_shift _ _ rest) fun d d' ⟨k, hd, hd'⟩ =>
      ⟨'/' :: '*' :: k, further rfl hd, further rfl hd'⟩
  · exact .none

/-- Behind the blanks, what shifts with the offset takes both to the same place. -/
theorem Twin.of_shift {p w : List Char} {o o' : Option Cursor} (h : back = p ++ w)
    (ho : Option.Rel (fun d d' => ∃ k, Cursor.Passes ⟨byteLength (front ++ x ++ p), w⟩ k d ∧
      Cursor.Passes ⟨byteLength (front ++ y ++ p), w⟩ k d') o o') :
    Option.Rel (Twin front x y back) o o' := by
  refine rel_imp ho ?_
  rintro ⟨o, r⟩ ⟨o', r'⟩ ⟨k, ⟨hk, rfl⟩, hk', rfl⟩
  obtain rfl := List.append_cancel_left (hk.symm.trans hk')
  exact .of_passes h hk

/-- A block comment does not end among blanks. -/
theorem afterBlockComment?_blanks {z : List Char} (hz : ∀ b ∈ z, isBlank b) (o : Nat) (r : List Char) :
    afterBlockComment? o (z ++ r) = afterBlockComment? (o + byteLength z) r := by
  induction z generalizing o with
  | nil => rfl
  | cons b z ih =>
    have hb := hz b List.mem_cons_self
    rw [List.cons_append, afterBlockComment?_cons, ih fun d hd => hz d (List.mem_cons_of_mem b hd),
      byteLength_cons, Nat.add_assoc]
    rintro ⟨rfl, -⟩
    cases hb

/-- A block comment ends at the same place. -/
theorem Twin.afterBlockComment? (hr : Respaced front x y) {p w : List Char} (h : front = p ++ w) :
    Option.Rel (Twin front x y back) (afterBlockComment? (byteLength p) (w ++ (x ++ back)))
      (afterBlockComment? (byteLength p) (w ++ (y ++ back))) := by
  induction w generalizing p with
  | nil =>
    rw [List.append_nil] at h
    subst h
    rw [List.nil_append, List.nil_append, afterBlockComment?_blanks hr.blank,
      afterBlockComment?_blanks hr.blank', ← byteLength_append, ← byteLength_append]
    refine Twin.of_shift (p := []) rfl ?_
    rw [List.append_nil, List.append_nil]
    exact afterBlockComment?_shift _ _ back
  | cons b w ih =>
    by_cases hclose : b = '*' ∧ w.head? = some '/'
    · obtain ⟨rfl, hw⟩ := hclose
      obtain ⟨r, rfl⟩ := List.head?_eq_some_iff.1 hw
      exact .some (.of_passes' (k := ['*', '/']) h)
    · have open_ {z : List Char} (hne : z ≠ []) (hz : ∀ b ∈ z, isBlank b) :
          ¬(b = '*' ∧ (w ++ (z ++ back)).head? = some '/') := by
        rintro ⟨hb, hhead⟩
        cases w with
        | cons d w => exact hclose ⟨hb, hhead⟩
        | nil =>
          obtain ⟨d, z, rfl⟩ := List.exists_cons_of_ne_nil hne
          cases hhead
          cases hz '/' List.mem_cons_self
      rw [List.cons_append, List.cons_append, afterBlockComment?_cons _ (open_ hr.ne_nil hr.blank),
        afterBlockComment?_cons _ (open_ hr.ne_nil' hr.blank')]
      have hnext := ih (p := p ++ [b]) (by rw [h, List.append_assoc]; rfl)
      rw [byteLength_append] at hnext
      exact hnext

/-- A line comment with the blanks behind it ends at the same place. -/
theorem Twin.lineComment (hr : Respaced front x y) {p q w : List Char}
    (h : front = q ++ '/' :: '/' :: w) (hp : front = p ++ w) :
    Twin front x y back
      ((Cursor.skipWhile (· ≠ '\n') ⟨byteLength p, w ++ (x ++ back)⟩).skipWhile isBlank)
      ((Cursor.skipWhile (· ≠ '\n') ⟨byteLength p, w ++ (y ++ back)⟩).skipWhile isBlank) := by
  rcases all_or_first (· ≠ '\n') w with hw | ⟨u, b, v, rfl, hu, hb⟩
  · have hopen : OpensLineComment front := ⟨q, w, h, fun hm => by simpa using hw _ hm⟩
    rw [Cursor.skipWhile_append hw, Cursor.skipWhile_append hw, ← byteLength_append, ← hp]
    have lines := hr.lines.resolve_right (fun h => h hopen)
    by_cases hn : '\n' ∈ x
    · -- the comment ends among the blanks
      have ends {z : List Char} (hz : ∀ b ∈ z, isBlank b) (hn : '\n' ∈ z) :
          (Cursor.skipWhile (· ≠ '\n') ⟨byteLength front, z ++ back⟩).skipWhile isBlank =
            Cursor.skipWhile isBlank ⟨byteLength (front ++ z), back⟩ := by
        rcases all_or_first (· ≠ '\n') z with hall | ⟨u, b, v, rfl, hu, hb⟩
        · exact absurd rfl (of_decide_eq_true (hall _ hn))
        · have hv : ∀ d ∈ b :: v, isBlank d := fun d hd => hz d (List.mem_append_right u hd)
          rw [List.append_assoc, Cursor.skipWhile_append hu, List.cons_append,
            Cursor.skipWhile_stop (p := fun d => decide (d ≠ '\n')) hb, ← List.cons_append,
            Cursor.skipWhile_append hv, byteLength_append, byteLength_append, Nat.add_assoc]
      rw [ends hr.blank hn, ends hr.blank' (lines.1 hn)]
      exact .skipWhile_behind isBlank
    · have passes {z : List Char} (hn : '\n' ∉ z) :
          Cursor.skipWhile (· ≠ '\n') ⟨byteLength front, z ++ back⟩ =
            Cursor.skipWhile (· ≠ '\n') ⟨byteLength (front ++ z), back⟩ := by
        rw [byteLength_append]
        refine Cursor.skipWhile_append fun b hb => ?_
        rw [decide_eq_true_eq]
        rintro rfl
        exact hn hb
      rw [passes hn, passes fun h => hn (lines.2 h)]
      exact (Twin.skipWhile_behind _).skipBlanks hr
  · rw [List.append_assoc, List.append_assoc, Cursor.skipWhile_append hu, Cursor.skipWhile_append hu,
      List.cons_append, List.cons_append, Cursor.skipWhile_stop (p := fun d => decide (d ≠ '\n')) hb,
      Cursor.skipWhile_stop (p := fun d => decide (d ≠ '\n')) hb]
    exact (Twin.of_passes' hp).skipBlanks hr

/-- What begins with no two slashes, and with no slash and star, is no comment. -/
theorem comment?_eq_none {o : Nat} {w : List Char} (h : ∀ r, w ≠ '/' :: '/' :: r)
    (h' : ∀ r, w ≠ '/' :: '*' :: r) : comment? ⟨o, w⟩ = none := by
  unfold comment?
  split
  · next hw => exact absurd hw (h _)
  · next hw => exact absurd hw (h' _)
  · rfl

/-- A comment with the blanks behind it is skipped by both or by neither. -/
theorem Twin.comment? (hr : Respaced front x y) (h : Twin front x y back c c') :
    Option.Rel (Twin front x y back) ((comment? c).map (·.skipWhile isBlank))
      ((comment? c').map (·.skipWhile isBlank)) := by
  have skip {o o' : Option Cursor} (h : Option.Rel (Twin front x y back) o o') :
      Option.Rel (Twin front x y back) (o.map (·.skipWhile isBlank)) (o'.map (·.skipWhile isBlank)) := by
    cases h with
    | none => exact .none
    | some h => exact .some (h.skipBlanks hr)
  cases h with
  | behind h => exact skip (Twin.of_shift h (comment?_shift _ _ _))
  | @before p w h =>
    by_cases hline : ∃ r, w = '/' :: '/' :: r
    · obtain ⟨r, rfl⟩ := hline
      have hr : Twin front x y back _ _ := Twin.lineComment hr h (p := p ++ ['/', '/'])
        (by rw [h, List.append_assoc]; rfl)
      rw [byteLength_append] at hr
      exact .some hr
    by_cases hblock : ∃ r, w = '/' :: '*' :: r
    · obtain ⟨r, rfl⟩ := hblock
      have hr : Option.Rel (Twin front x y back) _ _ := Twin.afterBlockComment? hr (p := p ++ ['/', '*'])
        (by rw [h, List.append_assoc]; rfl)
      rw [byteLength_append] at hr
      exact skip hr
    · have none {z : List Char} (hne : z ≠ []) (hz : ∀ b ∈ z, isBlank b) :
          comment? ⟨byteLength p, w ++ (z ++ back)⟩ = Option.none := by
        obtain ⟨b, z, rfl⟩ := List.exists_cons_of_ne_nil hne
        have hb := hz b List.mem_cons_self
        -- a blank is neither the first character nor the second
        have two {d e : Char} {r : List Char} (hd : isBlank d = false) (he : isBlank e = false)
            (h : w ++ (b :: z ++ back) = d :: e :: r) : ∃ r, w = d :: e :: r := by
          match w with
          | [] => rw [(List.cons.inj h).1, hd] at hb; cases hb
          | [_] => rw [(List.cons.inj (List.cons.inj h).2).1, he] at hb; cases hb
          | _ :: _ :: w =>
            obtain ⟨hd, htail⟩ := List.cons.inj h
            exact ⟨w, by rw [hd, (List.cons.inj htail).1]⟩
        exact comment?_eq_none (fun r h => hline (two rfl rfl h)) fun r h => hblock (two rfl rfl h)
      rw [none hr.ne_nil hr.blank, none hr.ne_nil' hr.blank']
      exact .none

theorem Twin.skipComments (hr : Respaced front x y) (h : Twin front x y back c c') {n n' : Nat}
    (hn : c.rest.length ≤ n) (hn' : c'.rest.length ≤ n') :
    Twin front x y back (skipComments n c) (skipComments n' c') := by
  have next {n : Nat} {c d : Cursor} (hn : c.rest.length ≤ n) (hd : Peg.comment? c = some d) :
      ∃ m, n = m + 1 ∧ (d.skipWhile isBlank).rest.length ≤ m := by
    have hlt := length_lt_of_comment? hd
    have hle := (Cursor.reaches_skipWhile isBlank d).length_le
    exact ⟨n - 1, by omega, by omega⟩
  have stay (n : Nat) {c : Cursor} (hd : Peg.comment? c = none) : Peg.skipComments n c = c := by
    cases n with
    | zero => rfl
    | succ n => rw [Peg.skipComments, hd]
  have hrel := h.comment? hr
  induction n using Nat.strongRecOn generalizing n' c c' with
  | ind n ih =>
  cases hd : Peg.comment? c with
  | none =>
    cases hd' : Peg.comment? c' with
    | none => rwa [stay n hd, stay n' hd']
    | some d' => rw [hd, hd'] at hrel; cases hrel
  | some d =>
    cases hd' : Peg.comment? c' with
    | none => rw [hd, hd'] at hrel; cases hrel
    | some d' =>
      obtain ⟨m, rfl, hm⟩ := next hn hd
      obtain ⟨m', rfl, hm'⟩ := next hn' hd'
      rw [hd, hd'] at hrel
      rw [Peg.skipComments, Peg.skipComments, hd, hd']
      cases hrel with
      | some hrel => exact ih m (Nat.lt_succ_self m) hrel hm hm' (hrel.comment? hr)

/-- Trivia takes both cursors to the same place. -/
theorem Twin.skipTrivia (hr : Respaced front x y) (h : Twin front x y back c c') :
    Twin front x y back (skipTrivia c) (skipTrivia c') := by
  have comments (c : Cursor) : Peg.skipTrivia c =
      Peg.skipComments (c.skipWhile isBlank).rest.length (c.skipWhile isBlank) := by
    unfold Peg.skipTrivia
    dsimp only
    split
    · rfl
    · next h =>
      cases (c.skipWhile isBlank).rest.length with
      | zero => rfl
      | succ n => rw [Peg.skipComments, Option.not_isSome_iff_eq_none.1 h]
  rw [comments, comments]
  exact (h.skipBlanks hr).skipComments hr (Nat.le_refl _) (Nat.le_refl _)

end ServiceLang.Peg
