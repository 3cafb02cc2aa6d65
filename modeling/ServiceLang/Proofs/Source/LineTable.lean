import Mathlib.Data.List.GetD
import Mathlib.Tactic.WLOG
import ServiceLang.Proofs.Region.Cut
import ServiceLang.Proofs.Source.Indented

/-!
Positions by a table of line starts.

A source can be asked for many positions, so it keeps the offsets at which its lines start and looks
an offset up by halving that table (`Source.lookUp`).  The table is strictly increasing, and the
entries up to an offset are one more than the newlines before it (`countP_lineStarts`); so the search
finds the line on which the walk of `Source.position` stops, whatever the offset
(`Source.lookUp_eq_position`).  Lines and columns are kept in 32 bits, which is enough for every
source that is shorter than `UInt32.size - 1` bytes.

`Source.position_exact` collects what the position of a character boundary is: the line counts the
newline bytes before it, the column counts the characters behind the last of them, and a later
boundary has a later line or, on the same line, a later column.
-/

namespace ServiceLang

/-! ## The table -/

/-- The offsets behind the newlines of some bytes, the first of which stands at `k`. -/
def startsFrom (k : Nat) (bytes : List UInt8) : List Nat :=
  ((bytes.zipIdx k).filter (·.1 = newline)).map (·.2 + 1)

/-- The offsets at which the lines of a text start. -/
def lineStarts (cs : List Char) : List Nat := 0 :: startsFrom 0 (utf8 cs)

theorem startsFrom_cons (k : Nat) (b : UInt8) (bytes : List UInt8) :
    startsFrom k (b :: bytes) =
      if b = newline then (k + 1) :: startsFrom (k + 1) bytes else startsFrom (k + 1) bytes := by
  unfold startsFrom
  rw [List.zipIdx_cons, List.filter_cons]
  by_cases h : b = newline <;> simp [h]

theorem startsFrom_append (k : Nat) (as bs : List UInt8) :
    startsFrom k (as ++ bs) = startsFrom k as ++ startsFrom (k + as.length) bs := by
  simp [startsFrom, List.zipIdx_append]

theorem startsFrom_eq_nil {k : Nat} {bytes : List UInt8} (h : newline ∉ bytes) :
    startsFrom k bytes = [] := by
  induction bytes generalizing k with
  | nil => rfl
  | cons b bytes ih =>
    have hb : b ≠ newline := fun hb => h (hb ▸ List.mem_cons_self)
    rw [startsFrom_cons, if_neg hb, ih fun hm => h (List.mem_cons_of_mem b hm)]

theorem lt_of_mem_startsFrom {k i : Nat} {bytes : List UInt8} (h : i ∈ startsFrom k bytes) : k < i := by
  induction bytes generalizing k with
  | nil => simp [startsFrom] at h
  | cons b bytes ih =>
    rw [startsFrom_cons] at h
    split at h
    · rcases List.mem_cons.1 h with rfl | h
      · exact Nat.lt_succ_self k
      · exact Nat.lt_of_succ_lt (ih h)
    · exact Nat.lt_of_succ_lt (ih h)

theorem pairwise_startsFrom (k : Nat) (bytes : List UInt8) : (startsFrom k bytes).Pairwise (· < ·) := by
  induction bytes generalizing k with
  | nil => exact .nil
  | cons b bytes ih =>
    rw [startsFrom_cons]
    split
    · exact .cons (fun _ h => lt_of_mem_startsFrom h) (ih _)
    · exact ih _

theorem pairwise_lineStarts (cs : List Char) : (lineStarts cs).Pairwise (· < ·) :=
  .cons (fun _ h => lt_of_mem_startsFrom h) (pairwise_startsFrom 0 _)

theorem countP_startsFrom (k n : Nat) (bytes : List UInt8) :
    (startsFrom k bytes).countP (· ≤ k + n) = (bytes.take n).count newline := by
  induction bytes generalizing k n with
  | nil => simp [startsFrom]
  | cons b bytes ih =>
    cases n with
    | zero =>
      rw [List.take_zero, List.count_nil, List.countP_eq_zero]
      intro i hi
      have := lt_of_mem_startsFrom hi
      simp
      omega
    | succ n =>
      rw [startsFrom_cons, List.take_succ_cons, List.count_cons, ← ih (k + 1) n, Nat.succ_add_eq_add_succ]
      by_cases h : b = newline <;> simp [h]

/-- The lines that start up to an offset are one more than the newlines before it. -/
theorem countP_lineStarts (cs : List Char) (n : Nat) :
    (lineStarts cs).countP (· ≤ n) = 1 + ((utf8 cs).take n).count newline := by
  have h := countP_startsFrom 0 n (utf8 cs)
  rw [Nat.zero_add] at h
  rw [lineStarts, List.countP_cons_of_pos (by simp), h, Nat.add_comm]

theorem lineStarts_append (xs ys : List Char) :
    lineStarts (xs ++ ys) = lineStarts xs ++ startsFrom (byteLength xs) (utf8 ys) := by
  rw [lineStarts, utf8_append, startsFrom_append, length_utf8, Nat.zero_add]
  rfl

theorem lineStarts_concat (cs : List Char) (c : Char) : lineStarts (cs ++ [c]) =
    if c = '\n' then lineStarts cs ++ [byteLength cs + 1] else lineStarts cs := by
  rw [lineStarts_append, utf8_cons, utf8_nil, List.append_nil]
  split
  · next h =>
    subst h
    rfl
  · next h => rw [startsFrom_eq_nil fun hm => h ((newline_mem_utf8EncodeChar c).1 hm), List.append_nil]

theorem length_lineStarts (cs : List Char) : (lineStarts cs).length = cs.count '\n' + 1 := by
  induction cs using List.reverseRecOn with
  | nil => rfl
  | append_singleton cs c ih =>
    rw [lineStarts_concat, List.count_append]
    by_cases h : c = '\n' <;> simp [h, ih]

/-- The last line of a text starts behind its last newline. -/
theorem getD_lineStarts (cs : List Char) :
    (lineStarts cs).getD (cs.count '\n') 0 = byteLength cs - byteLength (lastLine cs) := by
  induction cs using List.reverseRecOn with
  | nil => rfl
  | append_singleton cs c ih =>
    have hlength := length_lineStarts cs
    rw [lineStarts_concat, lastLine_concat, List.count_append]
    by_cases h : c = '\n'
    · subst h
      have hsize : ('\n' : Char).utf8Size = 1 := rfl
      simp [← hlength, hsize]
    · rw [if_neg h, if_neg h, List.count_singleton, if_neg (by simpa using h), Nat.add_zero, ih,
        byteLength_append, byteLength_append, Nat.add_sub_add_right]

/-! ## The search -/

/-- Halves the part of a table that begins at `base` until one entry is left, the last one up to `x`. -/
def searchFrom (table : List Nat) (x base size : Nat) : Nat :=
  if 1 < size then
    let half := size / 2
    if x < table.getD (base + half) 0 then searchFrom table x base (size - half)
    else searchFrom table x (base + half) (size - half)
  else base
termination_by size

/-- The index of an entry of a sorted table, or the index at which it could be inserted. -/
def binarySearch (table : List Nat) (x : Nat) : Except Nat Nat :=
  if table.isEmpty then .error 0
  else
    let base := searchFrom table x 0 table.length
    let entry := table.getD base 0
    if entry = x then .ok base else .error (if entry < x then base + 1 else base)

section

variable {table : List Nat} {x : Nat}

theorem getD_le_iff (hsorted : table.Pairwise (· < ·)) {i : Nat} (hi : i < table.length) :
    table.getD i 0 ≤ x ↔ i < table.countP (· ≤ x) := by
  induction hsorted generalizing i with
  | nil => exact absurd hi (Nat.not_lt_zero i)
  | @cons a table ha _ ih =>
    by_cases hx : a ≤ x
    · rw [List.countP_cons_of_pos (by simpa using hx)]
      cases i with
      | zero => simpa using hx
      | succ i => simpa using ih (Nat.lt_of_succ_lt_succ hi)
    · -- all that follow are larger still
      have hcount : table.countP (· ≤ x) = 0 := by
        rw [List.countP_eq_zero]
        intro b hb
        have := ha b hb
        simp
        omega
      rw [List.countP_cons_of_neg (by simpa using hx), hcount]
      cases i with
      | zero => simpa using hx
      | succ i =>
        have := ha _ (List.getElem_mem (Nat.lt_of_succ_lt_succ hi))
        simp [Nat.lt_of_succ_lt_succ hi]
        omega

/-- While the part is halved, the last entry up to `x` stays in it. -/
theorem searchFrom_eq (hsorted : table.Pairwise (· < ·)) {base size : Nat}
    (hbase : base < table.countP (· ≤ x)) (hcount : table.countP (· ≤ x) ≤ base + size)
    (hsize : base + size ≤ table.length) :
    searchFrom table x base size + 1 = table.countP (· ≤ x) := by
  induction size using Nat.strong_induction_on generalizing base with
  | _ size ih =>
    rw [searchFrom]
    split
    · next h =>
      have hmid := getD_le_iff (x := x) hsorted (i := base + size / 2) (by omega)
      dsimp only
      split
      · exact ih (size - size / 2) (by omega) hbase (by omega) (by omega)
      · exact ih (size - size / 2) (by omega) (by omega) (by omega) (by omega)
    · omega

/-- Found or not, the search names the last entry up to `x` when there is one. -/
theorem binarySearch_pred (hsorted : table.Pairwise (· < ·)) (hpos : 0 < table.countP (· ≤ x)) :
    (match binarySearch table x with
      | .ok i => i
      | .error i => i - 1) + 1 = table.countP (· ≤ x) := by
  have hle : table.countP (· ≤ x) ≤ table.length := List.countP_le_length
  have hbase : searchFrom table x 0 table.length + 1 = table.countP (· ≤ x) :=
    searchFrom_eq hsorted hpos (by omega) (by omega)
  have hentry := getD_le_iff (x := x) hsorted (i := searchFrom table x 0 table.length) (by omega)
  have hempty : table.isEmpty = false := by
    rw [List.isEmpty_eq_false_iff_exists_mem]
    exact List.exists_mem_of_length_pos (by omega)
  unfold binarySearch
  simp only [hempty, Bool.false_eq_true, if_false]
  split
  · next h =>
    split at h
    · cases h
      exact hbase
    · cases h
  · next h =>
    split at h
    · cases h
    · next hne =>
      cases h
      rw [if_pos (by omega)]
      exact hbase

end

/-! ## Parts of a text -/

/-- The text between two byte offsets, if they are character boundaries. -/
def slice? (cs : List Char) (i j : Nat) : Option (List Char) :=
  let taken := takeBytes (j - i) (dropBytes i cs)
  if byteLength (takeBytes i cs) = i ∧ byteLength taken = j - i then some taken else none

theorem slice?_append (xs ys zs : List Char) :
    slice? (xs ++ ys ++ zs) (byteLength xs) (byteLength xs + byteLength ys) = some ys := by
  unfold slice?
  rw [List.append_assoc, takeBytes_append, dropBytes_append, Nat.add_sub_cancel_left, takeBytes_append]
  exact if_pos ⟨rfl, rfl⟩

theorem takeBytes_append_cons {xs ys : List Char} {c : Char} {n : Nat} (hn : n < c.utf8Size) :
    takeBytes (byteLength xs + n) (xs ++ c :: ys) = xs := by
  induction xs with
  | nil => simp [takeBytes, Nat.not_le.2 hn]
  | cons x xs ih => simp [takeBytes, Nat.add_assoc, ih]

/-- There is no text between a boundary and the inside of a character. -/
theorem slice?_inside {xs ys zs : List Char} {c : Char} {n : Nat} (hpos : 0 < n) (hn : n < c.utf8Size) :
    slice? (xs ++ ys ++ c :: zs) (byteLength xs) (byteLength xs + byteLength ys + n) = none := by
  unfold slice?
  rw [List.append_assoc, dropBytes_append, Nat.add_assoc, Nat.add_sub_cancel_left, takeBytes_append_cons hn]
  exact if_neg (by omega)

/-! ## Looking up -/

theorem exists_eq_append_lastLine (w : List Char) : ∃ front, w = front ++ lastLine w := by
  refine ⟨(w.reverse.dropWhile (· ≠ '\n')).reverse, ?_⟩
  rw [lastLine, ← List.reverse_append, List.takeWhile_append_dropWhile, List.reverse_reverse]

/-- An offset in a text is a boundary, or it lies inside a character. -/
theorem exists_split (cs : List Char) {n : Nat} (hn : n ≤ byteLength cs) :
    ∃ before after, cs = before ++ after ∧ (n = byteLength before ∨
      ∃ c rest k, after = c :: rest ∧ 0 < k ∧ k < c.utf8Size ∧ n = byteLength before + k) := by
  induction cs generalizing n with
  | nil => exact ⟨[], [], rfl, .inl (Nat.le_zero.1 hn)⟩
  | cons c cs ih =>
    rcases Nat.eq_zero_or_pos n with rfl | hpos
    · exact ⟨[], c :: cs, rfl, .inl rfl⟩
    by_cases hc : n < c.utf8Size
    · exact ⟨[], c :: cs, rfl, .inr ⟨c, cs, n, rfl, hpos, hc, by simp⟩⟩
    rw [byteLength_cons] at hn
    obtain ⟨before, after, rfl, h | ⟨d, rest, k, hafter, h0, hk, h⟩⟩ :=
      ih (n := n - c.utf8Size) (by omega)
    · exact ⟨c :: before, after, rfl, .inl (by simp; omega)⟩
    · exact ⟨c :: before, after, rfl, .inr ⟨d, rest, k, hafter, h0, hk, by simp; omega⟩⟩

namespace Source

/-- The position of a byte offset, looked up in the table of line starts. -/
def lookUp (s : Source) (offset : Nat) : Position :=
  let offset := min offset s.byteLength
  let starts := lineStarts s.text
  let index := match binarySearch starts offset with
    | .ok i => i
    | .error i => i - 1
  let start := starts.getD index 0
  let column := ((slice? s.text start offset).map List.length).getD (offset - start)
  ⟨s.filename, (UInt32.ofNat (index + 1)).toNat, (UInt32.ofNat (column + 1)).toNat, offset⟩

theorem position_of_append (s : Source) {before after : List Char} (h : s.text = before ++ after) :
    s.position (ServiceLang.byteLength before) =
      ⟨s.filename, 1 + before.count '\n', 1 + (lastLine before).length, ServiceLang.byteLength before⟩ := by
  have hseek := Place.seek_start_append before after 0
  rw [Nat.add_zero, Place.foldl_advance] at hseek
  unfold position
  rw [h, hseek]
  cases after with
  | nil => rfl
  | cons c after => rw [Place.seek, if_pos (Nat.le_refl _)]

/-- The position of an offset inside a character. -/
theorem position_inside (s : Source) {before after : List Char} {c : Char} {n : Nat}
    (h : s.text = before ++ c :: after) (hpos : 0 < n) (hn : n < c.utf8Size) :
    s.position (ServiceLang.byteLength before + n) = ⟨s.filename, 1 + before.count '\n',
      1 + ServiceLang.byteLength (lastLine before) + n, ServiceLang.byteLength before + n⟩ := by
  obtain ⟨front, hfront⟩ := exists_eq_append_lastLine before
  have hlength : ServiceLang.byteLength before =
      ServiceLang.byteLength front + ServiceLang.byteLength (lastLine before) := by
    rw [← byteLength_append, ← hfront]
  have hseek := Place.seek_start_append before (c :: after) n
  rw [Place.foldl_advance, Place.seek, if_neg (by dsimp only; omega),
    if_pos (by dsimp only; omega)] at hseek
  unfold position
  rw [h, hseek]
  simp
  omega

/-- The search finds the line of the offset, and where that line starts. -/
theorem lookUp_eq {s : Source} {before after front : List Char} (h : s.text = before ++ after)
    (hfront : before = front ++ lastLine before) {offset : Nat} (hoffset : offset ≤ s.byteLength)
    (hline : (s.position offset).line = 1 + before.count '\n') :
    s.lookUp offset =
      ⟨s.filename, (UInt32.ofNat (before.count '\n' + 1)).toNat,
        (UInt32.ofNat (((slice? s.text (ServiceLang.byteLength front) offset).map List.length).getD
          (offset - ServiceLang.byteLength front) + 1)).toNat, offset⟩ := by
  have hindex := binarySearch_pred (x := offset) (pairwise_lineStarts s.text) (by
    rw [countP_lineStarts]
    omega)
  rw [countP_lineStarts, ← line_position, hline, Nat.add_comm 1] at hindex
  have hstart : (lineStarts s.text).getD (before.count '\n') 0 = ServiceLang.byteLength front := by
    have hlength := length_lineStarts before
    have hbytes := congrArg ServiceLang.byteLength hfront
    rw [byteLength_append] at hbytes
    rw [h, lineStarts_append, List.getD_append _ _ _ _ (by omega), getD_lineStarts]
    omega
  unfold lookUp
  dsimp only
  rw [Nat.min_eq_left hoffset, Nat.add_right_cancel hindex, hstart]

/-- The search finds the position that the walk finds. -/
theorem lookUp_eq_position (s : Source) (hs : s.byteLength + 1 < UInt32.size) (offset : Nat) :
    s.lookUp offset = s.position offset := by
  wlog hoffset : offset ≤ s.byteLength generalizing offset
  · have hend := this s.byteLength (Nat.le_refl _)
    rw [position_of_byteLength_le s (by omega), ← hend]
    unfold lookUp
    rw [Nat.min_eq_right (by omega), Nat.min_self]
  obtain ⟨before, after, htext, hsplit⟩ := exists_split s.text hoffset
  obtain ⟨front, hfront⟩ := exists_eq_append_lastLine before
  have hbytes : s.byteLength = ServiceLang.byteLength before + ServiceLang.byteLength after := by
    rw [byteLength, htext, byteLength_append]
  have hfrontBytes : ServiceLang.byteLength before =
      ServiceLang.byteLength front + ServiceLang.byteLength (lastLine before) := by
    rw [← byteLength_append, ← hfront]
  have hcount : before.count '\n' ≤ ServiceLang.byteLength before :=
    Nat.le_trans List.count_le_length (length_le_byteLength before)
  have hcolumn := length_le_byteLength (lastLine before)
  rcases hsplit with rfl | ⟨c, rest, n, rfl, hpos, hn, rfl⟩
  · have hposition := position_of_append s htext
    have hslice : slice? s.text (ServiceLang.byteLength front) (ServiceLang.byteLength before) =
        some (lastLine before) := by
      rw [htext, hfrontBytes]
      nth_rewrite 1 [hfront]
      exact slice?_append front (lastLine before) after
    rw [lookUp_eq htext hfront hoffset (by rw [hposition]), hslice, hposition, Option.map_some,
      Option.getD_some, UInt32.toNat_ofNat_of_lt' (by omega), UInt32.toNat_ofNat_of_lt' (by omega),
      Nat.add_comm 1, Nat.add_comm 1]
  · have hposition := position_inside s htext hpos hn
    have hslice : slice? s.text (ServiceLang.byteLength front) (ServiceLang.byteLength before + n) = none := by
      rw [htext, hfrontBytes]
      nth_rewrite 1 [hfront]
      exact slice?_inside hpos hn
    have hc : c.utf8Size ≤ ServiceLang.byteLength (c :: rest) := by simp
    rw [lookUp_eq htext hfront hoffset (by rw [hposition]), hslice, hposition, Option.map_none,
      Option.getD_none, UInt32.toNat_ofNat_of_lt' (by omega), UInt32.toNat_ofNat_of_lt' (by omega),
      Nat.add_comm _ 1]
    congr 1
    omega

/-! ## Order -/

theorem lastLine_append {xs ys : List Char} (h : '\n' ∉ ys) : lastLine (xs ++ ys) = lastLine xs ++ ys := by
  induction ys using List.reverseRecOn with
  | nil => simp
  | append_singleton ys c ih =>
    obtain ⟨hys, hc⟩ : '\n' ∉ ys ∧ ¬c = '\n' := by simpa [eq_comm] using h
    rw [← List.append_assoc, lastLine_concat, if_neg hc, ih hys, List.append_assoc]

/-- A later boundary is on a later line, or behind on the same line. -/
theorem position_lt (s : Source) {p q : Nat} (hp : Region.IsBoundary s.text p)
    (hq : Region.IsBoundary s.text q) (h : p < q) :
    (s.position p).line < (s.position q).line ∨
      (s.position p).line = (s.position q).line ∧ (s.position p).column < (s.position q).column := by
  obtain ⟨before, after, htext, rfl⟩ := hp
  obtain ⟨before', after', htext', rfl⟩ := hq
  obtain ⟨k, rfl⟩ : ∃ k, before' = before ++ k := by
    rcases List.append_eq_append_iff.1 (htext.symm.trans htext') with ⟨k, hk, -⟩ | ⟨k, rfl, -⟩
    · exact ⟨k, hk⟩
    · rw [byteLength_append] at h
      omega
  rw [position_of_append s htext, position_of_append s htext']
  dsimp only
  rw [List.count_append]
  by_cases hk : '\n' ∈ k
  · have := List.count_pos_iff.2 hk
    exact .inl (by omega)
  · rw [List.count_eq_zero.2 hk, lastLine_append hk, List.length_append]
    have hne : k ≠ [] := by
      rintro rfl
      simp at h
    have := List.length_pos_iff.2 hne
    exact .inr ⟨rfl, by omega⟩

/-- In a source of less than `UInt32.size - 1` bytes the position of a character boundary is exact,
offsets behind the end have the position of the end, positions are in the order of the offsets, and
the search in the table of line starts finds the position of every offset. -/
theorem position_exact (s : Source) (hs : s.byteLength + 1 < UInt32.size) :
    (∀ before after, s.text = before ++ after →
      s.position (ServiceLang.byteLength before) = ⟨s.filename, 1 + (utf8 before).count newline,
        1 + (lastLine before).length, ServiceLang.byteLength before⟩) ∧
    (∀ offset, s.byteLength ≤ offset → s.position offset = s.position s.byteLength) ∧
    (∀ p q, Region.IsBoundary s.text p → Region.IsBoundary s.text q → p < q →
      (s.position p).line < (s.position q).line ∨
        (s.position p).line = (s.position q).line ∧ (s.position p).column < (s.position q).column) ∧
    (∀ p q, Region.IsBoundary s.text p → Region.IsBoundary s.text q →
      (s.position p).line = (s.position q).line → (s.position p).column = (s.position q).column → p = q) ∧
    ∀ offset, s.lookUp offset = s.position offset := by
  refine ⟨fun before after h => ?_, fun _ => s.position_of_byteLength_le, fun p q => s.position_lt,
    fun p q hp hq hline hcolumn => ?_, s.lookUp_eq_position hs⟩
  · rw [count_newline_utf8, s.position_of_append h]
  · rcases Nat.lt_trichotomy p q with hlt | heq | hlt
    · have := s.position_lt hp hq hlt
      omega
    · exact heq
    · have := s.position_lt hq hp hlt
      omega

/-- An accented line, an empty one and a trailing newline: the offset inside the accented character,
those of the line starts, and one behind the end. -/
theorem position_exact_accented :
    let s := Source.ofString "a.cdt" "é=1\n\nx\n"
    s.byteLength + 1 < UInt32.size ∧
      s.lookUp 1 = ⟨"a.cdt", 1, 2, 1⟩ ∧ s.lookUp 4 = ⟨"a.cdt", 1, 4, 4⟩ ∧ s.lookUp 5 = ⟨"a.cdt", 2, 1, 5⟩ ∧
      s.lookUp 8 = ⟨"a.cdt", 4, 1, 8⟩ ∧ s.lookUp 50 = s.position 8 := by
  intro s
  have hs : s.byteLength + 1 < UInt32.size := by decide +kernel
  obtain ⟨-, hbehind, -, -, hlookUp⟩ := position_exact s hs
  simp only [hlookUp]
  exact ⟨hs, by decide +kernel, by decide +kernel, by decide +kernel, by decide +kernel,
    hbehind 50 (by decide +kernel)⟩

end Source

end ServiceLang
