import ServiceLang.Peg.Cursor

/-!
Cursors only move forward, and over text that they read.

`Passes c k d` says that the text `k` lies between the cursors `c` and `d`, and that
their offsets differ by its length, and `Reaches c d` that some text does.
Everything that moves a cursor reaches the place to which it moves, trivia included.
-/

namespace ServiceLang.Peg

namespace Cursor

/-- What lies between two cursors. -/
def Passes (c : Cursor) (k : List Char) (d : Cursor) : Prop :=
  c.rest = k ++ d.rest ∧ d.offset = c.offset + byteLength k

theorem Passes.nil (c : Cursor) : c.Passes [] c := ⟨rfl, rfl⟩

theorem start_passes {text k : List Char} (h : text = k) :
    (start text).Passes k ⟨byteLength text, []⟩ :=
  ⟨h.trans (List.append_nil k).symm, by rw [h]; exact (Nat.zero_add _).symm⟩

theorem Passes.append {c d e : Cursor} {k l : List Char} (h : c.Passes k d) (h2 : d.Passes l e) :
    c.Passes (k ++ l) e := by
  refine ⟨?_, ?_⟩
  · rw [h.1, h2.1, List.append_assoc]
  · rw [h2.2, h.2, byteLength_append, Nat.add_assoc]

theorem Passes.eq_of_nil {c d : Cursor} (h : c.Passes [] d) : c = d := by
  obtain ⟨hr, ho⟩ := h
  cases c
  cases d
  simp_all

theorem Passes.exists_cons {c d : Cursor} {x : Char} {k : List Char} (h : c.Passes (x :: k) d) :
    ∃ e : Cursor, c.Passes [x] e ∧ e.Passes k d := by
  refine ⟨⟨c.offset + x.utf8Size, k ++ d.rest⟩, ⟨h.1, by simp⟩, rfl, ?_⟩
  rw [h.2, byteLength_cons, Nat.add_assoc]

theorem Passes.exists_append {c d : Cursor} {k l : List Char} (h : c.Passes (k ++ l) d) :
    ∃ e : Cursor, c.Passes k e ∧ e.Passes l d := by
  refine ⟨⟨c.offset + byteLength k, l ++ d.rest⟩, ⟨?_, rfl⟩, rfl, ?_⟩
  · rw [h.1, List.append_assoc]
  · rw [h.2, byteLength_append, Nat.add_assoc]

theorem Passes.length_lt {c d : Cursor} {k : List Char} (h : c.Passes k d) (hk : k ≠ []) :
    d.rest.length < c.rest.length := by
  have := List.length_pos_iff.2 hk
  rw [h.1, List.length_append]
  omega

theorem Passes.offset_lt {c d : Cursor} {x : Char} {k : List Char} (h : c.Passes (x :: k) d) :
    c.offset < d.offset := by
  have := x.utf8Size_pos
  rw [h.2, byteLength_cons]
  omega

/-- Some text lies between the two cursors. -/
def Reaches (c d : Cursor) : Prop := ∃ k, c.Passes k d

theorem Passes.reaches {c d : Cursor} {k : List Char} (h : c.Passes k d) : c.Reaches d := ⟨k, h⟩

theorem Reaches.refl (c : Cursor) : c.Reaches c := ⟨[], .nil c⟩

theorem Reaches.trans {c d e : Cursor} (h : c.Reaches d) (h2 : d.Reaches e) : c.Reaches e := by
  obtain ⟨k, hk⟩ := h
  obtain ⟨l, hl⟩ := h2
  exact ⟨k ++ l, hk.append hl⟩

theorem Reaches.offset_le {c d : Cursor} (h : c.Reaches d) : c.offset ≤ d.offset := by
  obtain ⟨k, -, ho⟩ := h
  omega

/-- A cursor in a text is as far from its start as the text before it is long. -/
theorem Reaches.exists_before {text : List Char} {c : Cursor} (h : (start text).Reaches c) :
    ∃ b, text = b ++ c.rest ∧ c.offset = byteLength b := by
  obtain ⟨b, hb, ho⟩ := h
  exact ⟨b, hb, by simpa [start] using ho⟩

theorem next?_eq_some_iff (p : Char → Bool) (c d : Cursor) :
    c.next? p = some d ↔ ∃ x, c.rest = x :: d.rest ∧ p x ∧ d.offset = c.offset + x.utf8Size := by
  unfold next?
  cases hr : c.rest with
  | nil => simp
  | cons x xs =>
    dsimp only
    constructor
    · intro h
      split at h
      · next hp => cases h; exact ⟨x, rfl, hp, rfl⟩
      · cases h
    · rintro ⟨y, hy, hp, ho⟩
      cases hy
      rw [if_pos hp, ← ho]

theorem strip?_eq_some_iff (k : List Char) (c d : Cursor) :
    c.strip? k = some d ↔ c.Passes k d := by
  induction k generalizing c with
  | nil =>
    constructor
    · intro h
      cases h
      exact .nil _
    · intro h
      rw [h.eq_of_nil]
      rfl
  | cons x k ih =>
    unfold strip?
    constructor
    · intro h
      split at h
      · cases h
      next e he =>
      obtain ⟨y, hy, hp, ho⟩ := (next?_eq_some_iff _ c e).1 he
      obtain rfl : y = x := by simpa using hp
      obtain ⟨hr, ho2⟩ := (ih e).1 h
      refine ⟨by rw [hy, hr]; rfl, ?_⟩
      rw [ho2, ho, byteLength_cons, Nat.add_assoc]
    · rintro ⟨hr, ho⟩
      have he : c.next? (· = x) = some ⟨c.offset + x.utf8Size, k ++ d.rest⟩ :=
        (next?_eq_some_iff _ c _).2 ⟨x, hr, by simp, rfl⟩
      rw [he]
      refine (ih _).2 ⟨rfl, ?_⟩
      rw [ho, byteLength_cons, Nat.add_assoc]

theorem reaches_of_next? {p : Char → Bool} {c d : Cursor} (h : c.next? p = some d) :
    c.Reaches d := by
  obtain ⟨x, hx, -, ho⟩ := (next?_eq_some_iff p c d).1 h
  exact ⟨[x], hx, by simpa using ho⟩

theorem passes_of_strip? {c d : Cursor} {k : List Char} (h : c.strip? k = some d) :
    c.Passes k d :=
  (strip?_eq_some_iff k c d).1 h

theorem reaches_skipWhile (p : Char → Bool) (c : Cursor) : c.Reaches (c.skipWhile p) :=
  ⟨c.rest.takeWhile p, List.takeWhile_append_dropWhile.symm, rfl⟩

end Cursor

/-! ## Trivia -/

theorem reaches_of_afterBlockComment? (offset : Nat) (cs : List Char) (d : Cursor)
    (h : afterBlockComment? offset cs = some d) : Cursor.Reaches ⟨offset, cs⟩ d := by
  induction cs generalizing offset with
  | nil => cases h
  | cons c cs ih =>
    have next : afterBlockComment? (offset + c.utf8Size) cs = some d →
        Cursor.Reaches ⟨offset, c :: cs⟩ d := by
      intro h2
      obtain ⟨k, hk, ho⟩ := ih _ h2
      refine ⟨c :: k, ?_, ?_⟩
      · exact congrArg (c :: ·) hk
      · rw [ho, byteLength_cons, Nat.add_assoc]
    unfold afterBlockComment? at h
    split at h
    · next rest heq =>
      cases heq
      cases h
      exact ⟨['*', '/'], rfl, rfl⟩
    · next heq =>
      cases heq
      exact next h
    · next heq => cases heq

theorem reaches_of_comment? {c d : Cursor} (h : comment? c = some d) : c.Reaches d := by
  unfold comment? at h
  split at h
  · next rest hr =>
    cases h
    have h2 : c.Reaches ⟨c.offset + 2, rest⟩ := ⟨['/', '/'], hr, rfl⟩
    exact h2.trans (Cursor.reaches_skipWhile _ _)
  · next rest hr =>
    have h2 : c.Reaches ⟨c.offset + 2, rest⟩ := ⟨['/', '*'], hr, rfl⟩
    exact h2.trans (reaches_of_afterBlockComment? _ _ _ h)
  · cases h

theorem reaches_skipComments (n : Nat) (c : Cursor) : c.Reaches (skipComments n c) := by
  induction n generalizing c with
  | zero => exact .refl c
  | succ n ih =>
    unfold skipComments
    split
    · exact .refl c
    · next d hd =>
      exact ((reaches_of_comment? hd).trans (Cursor.reaches_skipWhile isBlank d)).trans (ih _)

theorem reaches_skipTrivia (c : Cursor) : c.Reaches (skipTrivia c) := by
  unfold skipTrivia
  dsimp only
  split
  · exact (Cursor.reaches_skipWhile isBlank c).trans (reaches_skipComments _ _)
  · exact Cursor.reaches_skipWhile isBlank c

/-- What holds behind blanks, and behind a comment and the blanks after it whenever it
holds before, holds behind trivia. -/
theorem skipTrivia_induction {P : Cursor → Prop} (c : Cursor) (hb : P (c.skipWhile isBlank))
    (hc : ∀ d e, P d → comment? d = some e → P (e.skipWhile isBlank)) : P (skipTrivia c) := by
  have many : ∀ n d, P d → P (skipComments n d) := by
    intro n
    induction n with
    | zero => exact fun d hd => hd
    | succ n ih =>
      intro d hd
      unfold skipComments
      split
      · exact hd
      · next e he => exact ih _ (hc d e hd he)
  unfold skipTrivia
  dsimp only
  split
  · exact many _ _ hb
  · exact hb

theorem Cursor.Reaches.length_le {c d : Cursor} (h : c.Reaches d) : d.rest.length ≤ c.rest.length := by
  obtain ⟨k, hk, -⟩ := h
  rw [hk, List.length_append]
  omega

theorem Cursor.Reaches.length_lt {c d : Cursor} (h : c.Reaches d) (ho : c.offset < d.offset) :
    d.rest.length < c.rest.length := by
  obtain ⟨k, hk⟩ := h
  refine hk.length_lt ?_
  rintro rfl
  rw [hk.eq_of_nil] at ho
  exact Nat.lt_irrefl _ ho

/-- A comment takes at least a character. -/
theorem length_lt_of_comment? {c d : Cursor} (h : comment? c = some d) :
    d.rest.length < c.rest.length := by
  unfold comment? at h
  split at h
  · next rest hr =>
    cases h
    have := (Cursor.reaches_skipWhile (· ≠ '\n') ⟨c.offset + 2, rest⟩).length_le
    rw [hr, List.length_cons, List.length_cons]
    dsimp only at this
    omega
  · next rest hr =>
    have := (reaches_of_afterBlockComment? _ _ _ h).length_le
    rw [hr, List.length_cons, List.length_cons]
    dsimp only at this
    omega
  · cases h

theorem comment?_skipComments (n : Nat) (c : Cursor) (h : c.rest.length ≤ n) :
    comment? (skipComments n c) = none := by
  induction n generalizing c with
  | zero =>
    have hr : c.rest = [] := List.length_eq_zero_iff.1 (by omega)
    show comment? c = none
    unfold comment?
    rw [hr]
  | succ n ih =>
    unfold skipComments
    split
    · next hd => exact hd
    · next d hd =>
      have h1 := length_lt_of_comment? hd
      have h2 := (Cursor.reaches_skipWhile isBlank d).length_le
      exact ih _ (by omega)

/-- Behind trivia no comment starts. -/
theorem comment?_skipTrivia (c : Cursor) : comment? (skipTrivia c) = none := by
  unfold skipTrivia
  dsimp only
  split
  · exact comment?_skipComments _ _ (Nat.le_refl _)
  · next h => exact Option.not_isSome_iff_eq_none.1 h

theorem skipTrivia_skipTrivia (c : Cursor) : skipTrivia (skipTrivia c) = skipTrivia c := by
  have solid : (skipTrivia c).skipWhile isBlank = skipTrivia c := by
    have behind : ∀ c : Cursor, (c.skipWhile isBlank).skipWhile isBlank = c.skipWhile isBlank := by
      intro c
      have head := List.head?_dropWhile_not isBlank c.rest
      unfold Cursor.skipWhile
      cases hd : c.rest.dropWhile isBlank with
      | nil => simp
      | cons x xs =>
        rw [hd] at head
        simp [show isBlank x = false by simpa using head]
    exact skipTrivia_induction (P := fun c => c.skipWhile isBlank = c) c (behind c)
      fun d e _ _ => behind e
  have none := comment?_skipTrivia c
  generalize skipTrivia c = d at solid none
  rw [skipTrivia, solid, none]
  rfl

/-- A blank is skipped with the trivia behind it. -/
theorem skipTrivia_of_isBlank {c d : Cursor} {x : Char} (hx : isBlank x) (h : c.Passes [x] d) :
    skipTrivia c = skipTrivia d := by
  have same : c.skipWhile isBlank = d.skipWhile isBlank := by
    have hr : c.rest = x :: d.rest := h.1
    have ho : d.offset = c.offset + x.utf8Size := h.2.trans (by simp)
    simp [Cursor.skipWhile, hr, ho, hx, Nat.add_assoc]
  simp only [skipTrivia, same]

theorem skipTrivia_of_blank {c d : Cursor} (h : c.Passes [' '] d) : skipTrivia c = skipTrivia d :=
  skipTrivia_of_isBlank rfl h

theorem skipTrivia_of_blanks {c d : Cursor} {k : List Char} (hk : ∀ x ∈ k, isBlank x)
    (h : c.Passes k d) : skipTrivia c = skipTrivia d := by
  induction k generalizing c with
  | nil => rw [h.eq_of_nil]
  | cons x k ih =>
    obtain ⟨hx, hk⟩ := List.forall_mem_cons.1 hk
    obtain ⟨e, hblank, h⟩ := h.exists_cons
    rw [skipTrivia_of_isBlank hx hblank, ih hk h]

/-- Nothing is skipped before a character that is no blank and begins no comment. -/
theorem skipTrivia_solid {c : Cursor} {x : Char} (hx : c.rest.head? = some x)
    (hb : isBlank x = false) (hs : x ≠ '/') : skipTrivia c = c := by
  obtain ⟨offset, rest⟩ := c
  obtain ⟨xs, rfl⟩ := List.head?_eq_some_iff.1 hx
  have solid : Cursor.skipWhile isBlank ⟨offset, x :: xs⟩ = ⟨offset, x :: xs⟩ := by
    simp [Cursor.skipWhile, hb]
  have none : comment? ⟨offset, x :: xs⟩ = none := by
    unfold comment?
    split
    · next h => exact absurd (List.cons.inj h).1 hs
    · next h => exact absurd (List.cons.inj h).1 hs
    · rfl
  rw [skipTrivia, solid, none]
  rfl

theorem skipTrivia_of_nil {c : Cursor} (h : c.rest = []) : skipTrivia c = c := by
  obtain ⟨offset, rest⟩ := c
  cases h
  rfl

/-- The text begins with a character of a token. -/
def BeginsToken (k : List Char) : Prop := ∃ x xs, k = x :: xs ∧ isBlank x = false ∧ x ≠ '/'

theorem BeginsToken.append {k : List Char} (h : BeginsToken k) (l : List Char) : BeginsToken (k ++ l) := by
  obtain ⟨x, xs, rfl, hx⟩ := h
  exact ⟨x, xs ++ l, rfl, hx⟩

theorem BeginsToken.skipTrivia {k : List Char} {c d : Cursor} (hk : BeginsToken k) (h : c.Passes k d) :
    skipTrivia c = c := by
  obtain ⟨x, xs, rfl, hb, hs⟩ := hk
  exact skipTrivia_solid (by rw [h.1]; rfl) hb hs

theorem Cursor.Passes.exists_token {k b l : List Char} {c d : Cursor} (h : c.Passes (k ++ (b ++ l)) d)
    (hb : ∀ x ∈ b, isBlank x) (hl : BeginsToken l) :
    ∃ e, c.Passes k e ∧ e.rest = b ++ l ++ d.rest ∧ (skipTrivia e).Passes l d := by
  obtain ⟨e, hk, h⟩ := h.exists_append
  refine ⟨e, hk, h.1, ?_⟩
  obtain ⟨f, hblanks, h⟩ := h.exists_append
  rwa [skipTrivia_of_blanks hb hblanks, hl.skipTrivia h]

theorem skipTrivia_blank {c d e : Cursor} {x : Char} {k : List Char} (h : c.Passes [' '] d)
    (hd : d.Passes (x :: k) e) (hb : isBlank x = false) (hs : x ≠ '/') : skipTrivia c = d := by
  rw [skipTrivia_of_blank h, skipTrivia_solid (x := x) (by rw [hd.1]; rfl) hb hs]

end ServiceLang.Peg
