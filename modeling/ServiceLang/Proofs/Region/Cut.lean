import ServiceLang.Proofs.Region.Declaration
import ServiceLang.Proofs.Source.Bytes
import ServiceLang.Region.Cut

/-!
Cutting a text into regions is sound.

`Placed` says what a region is: a part of the text between two character
boundaries that holds a declaration of its kind.  `Cut.Sound` says what a cut is:
its regions are placed, each ends before the next begins, and its main text is
the source with the bytes of the regions overwritten, newlines kept, so that
every offset has the line that it has in the source.  `cut_sound` is the theorem:
whatever text can be cut is cut soundly.
-/

namespace ServiceLang.Region

/-! ## Character boundaries -/

/-- A character of the text begins at this byte, or the text ends there. -/
def IsBoundary (text : List Char) (n : Nat) : Prop := ∃ b a, text = b ++ a ∧ byteLength b = n

theorem IsBoundary.le {text : List Char} {n : Nat} (h : IsBoundary text n) :
    n ≤ byteLength text := by
  obtain ⟨b, a, rfl, rfl⟩ := h
  simp

/-- No boundary lies inside a character. -/
theorem IsBoundary.le_or_le {pre cs : List Char} {c : Char} {n : Nat}
    (h : IsBoundary (pre ++ c :: cs) n) :
    n ≤ byteLength pre ∨ byteLength pre + c.utf8Size ≤ n := by
  obtain ⟨b, a, hba, rfl⟩ := h
  rcases List.append_eq_append_iff.1 hba with ⟨m, rfl, hm⟩ | ⟨m, rfl, -⟩
  · cases m with
    | nil => simp
    | cons x m =>
      obtain ⟨rfl, -⟩ : c = x ∧ cs = m ++ a := by simpa using hm
      right
      rw [byteLength_append, byteLength_cons]
      omega
  · simp

/-! ## Overwriting, byte by byte -/

/-- What a byte of a region becomes. -/
def blankByte (b : UInt8) : UInt8 := if b = newline then newline else 32

theorem blankByte_eq_newline_iff (b : UInt8) : blankByte b = newline ↔ b = newline := by
  unfold blankByte
  split
  · next h => simp [h]
  · next h =>
    constructor
    · intro h2; cases h2
    · intro h2; exact absurd h2 h

/-- Some region covers the byte at this offset. -/
def isCovered (regions : List Region) (offset : Nat) : Bool := regions.any (covers · offset)

/-- The bytes of a text with those of the regions overwritten. -/
def overwriteBytes (regions : List Region) (offset : Nat) (bytes : List UInt8) : List UInt8 :=
  bytes.mapIdx fun i b => if isCovered regions (offset + i) then blankByte b else b

theorem utf8_blankFor (c : Char) : utf8 (blankFor c) = (String.utf8EncodeChar c).map blankByte := by
  unfold blankFor
  split
  · next h => subst h; decide
  · next h =>
    have hb : ∀ b ∈ String.utf8EncodeChar c, blankByte b = 32 := by
      intro b hb
      unfold blankByte
      rw [if_neg]
      rintro rfl
      exact h ((newline_mem_utf8EncodeChar c).1 hb)
    rw [List.map_eq_replicate_iff.2 hb, String.length_utf8EncodeChar]
    induction c.utf8Size with
    | zero => rfl
    | succ n ih => rw [List.replicate_succ, utf8_cons, ih]; rfl

/-- Between two boundaries a character is covered whole or not at all. -/
theorem isCovered_inside (regions : List Region) (pre cs : List Char) (c : Char) (i : Nat)
    (hb : ∀ r ∈ regions, IsBoundary (pre ++ c :: cs) r.start ∧ IsBoundary (pre ++ c :: cs) r.stop)
    (hi : i < c.utf8Size) :
    isCovered regions (byteLength pre + i) = isCovered regions (byteLength pre) := by
  unfold isCovered
  rw [Bool.eq_iff_iff, List.any_eq_true, List.any_eq_true]
  have covers_iff : ∀ r ∈ regions, covers r (byteLength pre + i) ↔ covers r (byteLength pre) := by
    intro r hr
    obtain ⟨h1, h2⟩ := hb r hr
    have h1 := h1.le_or_le
    have h2 := h2.le_or_le
    simp only [covers, Bool.and_eq_true, decide_eq_true_eq]
    omega
  constructor
  · rintro ⟨r, hr, h⟩; exact ⟨r, hr, (covers_iff r hr).1 h⟩
  · rintro ⟨r, hr, h⟩; exact ⟨r, hr, (covers_iff r hr).2 h⟩

theorem overwriteBytes_append (regions : List Region) (offset : Nat) (xs ys : List UInt8) :
    overwriteBytes regions offset (xs ++ ys) =
      overwriteBytes regions offset xs ++ overwriteBytes regions (offset + xs.length) ys := by
  unfold overwriteBytes
  rw [List.mapIdx_append]
  simp only [Nat.add_assoc, Nat.add_comm xs.length]

theorem overwriteBytes_const (regions : List Region) (offset : Nat) (bytes : List UInt8) (b : Bool)
    (h : ∀ i, i < bytes.length → isCovered regions (offset + i) = b) :
    overwriteBytes regions offset bytes = if b then bytes.map blankByte else bytes := by
  unfold overwriteBytes
  apply List.ext_getElem
  · cases b <;> simp
  · intro i h1 h2
    have hi : i < bytes.length := by simpa using h1
    cases b <;> simp [h i hi]

/-- Overwriting characters overwrites their bytes. -/
theorem utf8_overwrite (regions : List Region) (pre cs : List Char)
    (hb : ∀ r ∈ regions, IsBoundary (pre ++ cs) r.start ∧ IsBoundary (pre ++ cs) r.stop) :
    utf8 (overwrite regions (byteLength pre) cs) =
      overwriteBytes regions (byteLength pre) (utf8 cs) := by
  induction cs generalizing pre with
  | nil => rfl
  | cons c cs ih =>
    have ih2 := ih (pre ++ [c]) (by simpa using hb)
    rw [byteLength_append] at ih2
    have hc : overwriteBytes regions (byteLength pre) (String.utf8EncodeChar c) =
        if isCovered regions (byteLength pre) then (String.utf8EncodeChar c).map blankByte
        else String.utf8EncodeChar c := by
      refine overwriteBytes_const _ _ _ _ ?_
      intro i hi
      rw [String.length_utf8EncodeChar] at hi
      exact isCovered_inside regions pre cs c i hb hi
    rw [utf8_cons, overwriteBytes_append, hc, String.length_utf8EncodeChar]
    unfold overwrite
    rw [utf8_append]
    congr 1
    unfold isCovered
    split
    · exact utf8_blankFor c
    · simp

/-- Overwriting keeps the newlines at their places. -/
theorem count_newline_overwriteBytes (regions : List Region) (offset n : Nat)
    (bytes : List UInt8) : ((overwriteBytes regions offset bytes).take n).count newline =
      (bytes.take n).count newline := by
  induction bytes generalizing offset n with
  | nil => rfl
  | cons b bytes ih =>
    cases n with
    | zero => rfl
    | succ n =>
      have hcons := overwriteBytes_append regions offset [b] bytes
      have hb : overwriteBytes regions offset [b] =
          [if isCovered regions offset then blankByte b else b] := rfl
      rw [hb] at hcons
      rw [List.singleton_append, List.singleton_append] at hcons
      rw [hcons, List.take_succ_cons, List.take_succ_cons, List.count_cons, List.count_cons, ih]
      have := blankByte_eq_newline_iff b
      split <;> simp [this]

theorem isBlank_of_mem_blankFor {c x : Char} (h : x ∈ blankFor c) : isBlank x := by
  unfold blankFor at h
  split at h
  · rw [List.mem_singleton.1 h]; rfl
  · rw [(List.mem_replicate.1 h).2]; rfl

theorem isBlank_of_mem_flatMap_blankFor {text : List Char} :
    ∀ c ∈ text.flatMap blankFor, isBlank c := by
  intro c hc
  obtain ⟨x, -, hx⟩ := List.mem_flatMap.1 hc
  exact isBlank_of_mem_blankFor hx

theorem byteLength_flatMap_blankFor (text : List Char) :
    byteLength (text.flatMap blankFor) = byteLength text := by
  induction text with
  | nil => rfl
  | cons c text ih =>
    rw [List.flatMap_cons, byteLength_append, byteLength_blankFor, ih, byteLength_cons]

theorem newline_mem_flatMap_blankFor_iff (text : List Char) :
    '\n' ∈ text.flatMap blankFor ↔ '\n' ∈ text := by
  have hchar (c : Char) : '\n' ∈ blankFor c ↔ c = '\n' := by
    unfold blankFor
    split <;> simp_all
  simp [List.mem_flatMap, hchar]

/-- What is no blank after overwriting was not overwritten, and stands where it stood. -/
theorem exists_of_overwrite (regions : List Region) (offset : Nat) (cs b : List Char)
    (x : Char) (rest : List Char) (h : overwrite regions offset cs = b ++ x :: rest)
    (hx : isBlank x = false) :
    isCovered regions (offset + byteLength b) = false ∧ ∃ k a, cs = k ++ x :: a ∧
      byteLength k = byteLength b ∧
      overwrite regions (offset + byteLength b + x.utf8Size) a = rest := by
  induction cs generalizing offset b with
  | nil =>
    have := congrArg List.length h
    simp [overwrite] at this
  | cons c cs ih =>
    -- the character stands behind the first one
    have later (m : List Char) (hm : overwrite regions (offset + c.utf8Size) cs = m ++ x :: rest)
        (hlen : byteLength b = c.utf8Size + byteLength m) :
        isCovered regions (offset + byteLength b) = false ∧ ∃ k a, c :: cs = k ++ x :: a ∧
          byteLength k = byteLength b ∧
          overwrite regions (offset + byteLength b + x.utf8Size) a = rest := by
      obtain ⟨hcovered, k, a, hcs, hk, ha⟩ := ih _ m hm
      have ho : offset + c.utf8Size + byteLength m = offset + byteLength b := by omega
      rw [ho] at hcovered ha
      exact ⟨hcovered, c :: k, a, by rw [hcs]; rfl, by rw [byteLength_cons, hk, hlen], ha⟩
    unfold overwrite at h
    rcases List.append_eq_append_iff.1 h with ⟨m, hm, hmore⟩ | ⟨m, hm, hmore⟩
    · refine later m hmore ?_
      rw [hm, byteLength_append]
      split <;> simp [byteLength_blankFor]
    · cases m with
      | nil =>
        rw [List.append_nil] at hm
        refine later [] hmore.symm ?_
        rw [← hm]
        split <;> simp [byteLength_blankFor]
      | cons y m =>
        obtain ⟨rfl, hrest⟩ : x = y ∧ rest = m ++ overwrite regions (offset + c.utf8Size) cs := by
          simpa using hmore
        split at hm
        · have hmem : x ∈ blankFor c := by rw [hm]; simp
          rw [isBlank_of_mem_blankFor hmem] at hx
          cases hx
        · next hc =>
          obtain ⟨rfl, rfl, rfl⟩ : b = [] ∧ x = c ∧ m = [] := by
            simpa [eq_comm, List.append_eq_singleton_iff] using hm
          exact ⟨by simpa [isCovered] using hc, [], cs, rfl, rfl, by simp [hrest]⟩

theorem overwrite_append (regions : List Region) (offset : Nat) (xs ys : List Char) :
    overwrite regions offset (xs ++ ys) =
      overwrite regions offset xs ++ overwrite regions (offset + byteLength xs) ys := by
  induction xs generalizing offset with
  | nil => rfl
  | cons c xs ih =>
    rw [List.cons_append, overwrite, overwrite, ih, byteLength_cons, Nat.add_assoc, List.append_assoc]

/-- What a text becomes depends on which of its bytes are covered. -/
theorem overwrite_congr {regions regions' : List Region} {o o' : Nat} {cs : List Char}
    (h : ∀ i < byteLength cs, isCovered regions (o + i) = isCovered regions' (o' + i)) :
    overwrite regions o cs = overwrite regions' o' cs := by
  induction cs generalizing o o' with
  | nil => rfl
  | cons c cs ih =>
    rw [byteLength_cons] at h
    have hc := h 0 (by have := c.utf8Size_pos; omega)
    have htail : overwrite regions (o + c.utf8Size) cs = overwrite regions' (o' + c.utf8Size) cs := by
      refine ih fun i hi => ?_
      rw [Nat.add_assoc, Nat.add_assoc]
      exact h (c.utf8Size + i) (by omega)
    have hc : (regions.any (covers · o)) = regions'.any (covers · o') := hc
    rw [overwrite, overwrite, htail, hc]

/-- Of a text that is covered, the blanks are left. -/
theorem overwrite_of_covered {regions : List Region} {o : Nat} {cs : List Char}
    (h : ∀ i < byteLength cs, isCovered regions (o + i) = true) :
    overwrite regions o cs = cs.flatMap blankFor := by
  induction cs generalizing o with
  | nil => rfl
  | cons c cs ih =>
    rw [byteLength_cons] at h
    have hc := h 0 (by have := c.utf8Size_pos; omega)
    have htail : overwrite regions (o + c.utf8Size) cs = cs.flatMap blankFor := by
      refine ih fun i hi => ?_
      rw [Nat.add_assoc]
      exact h (c.utf8Size + i) (by omega)
    have hc : regions.any (covers · o) = true := hc
    rw [overwrite, htail, if_pos hc, List.flatMap_cons]

/-- A text that is not covered stays as it is. -/
theorem overwrite_of_uncovered {regions : List Region} {o : Nat} {cs : List Char}
    (h : ∀ i < byteLength cs, isCovered regions (o + i) = false) : overwrite regions o cs = cs := by
  induction cs generalizing o with
  | nil => rfl
  | cons c cs ih =>
    rw [byteLength_cons] at h
    have hc : regions.any (covers · o) = false := h 0 (by have := c.utf8Size_pos; omega)
    have htail : overwrite regions (o + c.utf8Size) cs = cs := by
      refine ih fun i hi => ?_
      rw [Nat.add_assoc]
      exact h (c.utf8Size + i) (by omega)
    rw [overwrite, htail, hc]
    rfl

/-! ## Soundness -/

/-- The region is a part of the text and holds a declaration of its kind. -/
structure Placed (text : List Char) (r : Region) : Prop where
  nonempty : r.start < r.stop
  start_isBoundary : IsBoundary text r.start
  stop_isBoundary : IsBoundary text r.stop
  byteLength_text : byteLength (r.text text) = r.stop - r.start
  /-- A keyword of the kind begins the region, or the mark of an annotation. -/
  begins : (∃ word ∈ r.kind.keywords, word.toList <+: r.text text) ∨
    r.kind = .endpoint ∧ (r.text text).head? = some '@'
  isDeclaration : IsDeclaration r.kind (r.text text)

theorem takeBytes_append_of_le {n : Nat} {xs : List Char} (h : n ≤ byteLength xs) (ys : List Char) :
    takeBytes n (xs ++ ys) = takeBytes n xs := by
  induction xs generalizing n with
  | nil =>
    obtain rfl : n = 0 := Nat.le_zero.1 h
    cases ys with
    | nil => rfl
    | cons y ys =>
      have := y.utf8Size_pos
      simp [takeBytes]
      omega
  | cons x xs ih =>
    rw [byteLength_cons] at h
    rw [List.cons_append, takeBytes, takeBytes, ih (by omega)]

/-- The text of a region does not depend on what follows it. -/
theorem Placed.text_append {xs ys zs : List Char} {r : Region} (h : Placed (xs ++ ys) r)
    (hstop : r.stop ≤ byteLength xs) : r.text (xs ++ zs) = r.text xs := by
  obtain ⟨b, a, htext, hb⟩ := h.start_isBoundary
  have hlt := h.nonempty
  obtain ⟨t, rfl⟩ : ∃ t, xs = b ++ t := by
    rcases List.append_eq_append_iff.1 htext with ⟨t, hbt, -⟩ | ⟨t, hxt, -⟩
    · have := congrArg byteLength hbt
      rw [byteLength_append] at this
      omega
    · exact ⟨t, hxt⟩
  unfold text
  rw [byteLength_append] at hstop
  rw [← hb, List.append_assoc, dropBytes_append, dropBytes_append,
    takeBytes_append_of_le (by omega)]

/-- The text is taken apart as it should be. -/
structure Cut.Sound (text : List Char) (c : Cut) : Prop where
  placed : ∀ r ∈ c.regions, Placed text r
  ordered : c.regions.Pairwise fun a b => a.start < b.start ∧ a.stop ≤ b.start
  byteLength_main : byteLength c.main = byteLength text
  utf8_main : utf8 c.main = overwriteBytes c.regions 0 (utf8 text)
  line_main : ∀ filename offset, (Source.position ⟨filename, c.main⟩ offset).line =
    (Source.position ⟨filename, text⟩ offset).line

theorem text_append {r : Region} {b inside a : List Char} (hstart : byteLength b = r.start)
    (hstop : byteLength (b ++ inside) = r.stop) : r.text (b ++ inside ++ a) = inside := by
  have hlen : r.stop - r.start = byteLength inside := by
    rw [← hstart, ← hstop, byteLength_append]
    omega
  unfold text
  rw [hlen, ← hstart, List.append_assoc, dropBytes_append, takeBytes_append]

theorem Holds.placed {text : List Char} {r : Region} (h : Holds text r) : Placed text r := by
  obtain ⟨b, inside, a, rfl, hstart, hstop, hd⟩ := h
  have htext : r.text (b ++ inside ++ a) = inside := text_append hstart hstop
  refine ⟨?_, ⟨b, inside ++ a, by simp, hstart⟩, ⟨b ++ inside, a, rfl, hstop⟩, ?_, ?_, ?_⟩
  · obtain ⟨lead, word, body, rfl, -, -, -, -, hb⟩ := hd
    obtain ⟨c, body, rfl⟩ := List.exists_cons_of_ne_nil hb.ne_nil
    have := c.utf8Size_pos
    rw [← hstart, ← hstop]
    simp
    omega
  · rw [htext, ← hstart, ← hstop, byteLength_append]
    omega
  · rw [htext]
    obtain ⟨lead, word, body, rfl, rfl | ⟨hk, hl⟩, -, hw, -, -⟩ := hd
    · exact .inl ⟨word, hw, ⟨body, rfl⟩⟩
    · right
      refine ⟨hk, ?_⟩
      rw [List.append_assoc, List.head?_append, hl.head?]
      rfl
  · rw [htext]; exact hd

theorem cut_eq_ok {text : List Char} {c : Cut} (h : cut text = .ok c) :
    find text = .ok c.regions ∧ c.main = overwrite c.regions 0 text := by
  unfold cut at h
  split at h
  · cases h
  next regions hf =>
  cases h
  exact ⟨hf, rfl⟩

/-- The regions that are found are placed, one after another. -/
theorem placed_of_find {text : List Char} {regions : List Region} (h : find text = .ok regions) :
    (∀ r ∈ regions, Placed text r) ∧
      regions.Pairwise fun a b => a.start < b.start ∧ a.stop ≤ b.start := by
  obtain ⟨hh, hp⟩ := find_sound text regions h
  have placed : ∀ r ∈ regions, Placed text r := fun r hr => (hh r hr).placed
  refine ⟨placed, hp.imp_of_mem ?_⟩
  intro a b ha _ hab
  have := (placed a ha).nonempty
  exact ⟨by omega, hab⟩

/-- Every text that can be cut is cut soundly. -/
theorem cut_sound (text : List Char) (c : Cut) (h : cut text = .ok c) : c.Sound text := by
  obtain ⟨hf, hmain⟩ := cut_eq_ok h
  obtain ⟨placed, ordered⟩ := placed_of_find hf
  have bytes : utf8 c.main = overwriteBytes c.regions 0 (utf8 text) := by
    rw [hmain]
    exact utf8_overwrite c.regions [] text
      fun r hr => ⟨(placed r hr).start_isBoundary, (placed r hr).stop_isBoundary⟩
  refine ⟨placed, ordered, by rw [hmain, byteLength_overwrite], bytes, ?_⟩
  intro filename offset
  rw [Source.line_position, Source.line_position]
  dsimp only
  rw [bytes, count_newline_overwriteBytes]

/-- An annotated endpoint behind a character of two bytes, with a parenthesis in a
string of the annotation. -/
theorem cut_sound_annotated_endpoint :
    let text := "é\n@a(\")\") endpoint GET \"/\" \x7b\n\x7d".toList
    let c : Cut := ⟨"é\n                          \n ".toList, [⟨.endpoint, 3, 31⟩]⟩
    cut text = .ok c ∧ c.Sound text := by
  have h : cut "é\n@a(\")\") endpoint GET \"/\" \x7b\n\x7d".toList =
      .ok ⟨"é\n                          \n ".toList, [⟨.endpoint, 3, 31⟩]⟩ := by rfl
  exact ⟨h, cut_sound _ _ h⟩

end ServiceLang.Region
