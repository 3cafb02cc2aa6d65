import ServiceLang.Proofs.Region.Beside
import ServiceLang.Proofs.Region.Cut

/-!
Blanks in front of a text.

The scanner passes blanks at the start of a text and has seen nothing of them when the text
goes on.  So a text with blanks in front is cut into the same regions, moved by the length
of the blanks, and the same main text behind the blanks (`cut_blanks_append`).
-/

namespace ServiceLang

theorem dropBytes_append_add (w s : List Char) (n : Nat) :
    dropBytes (byteLength w + n) (w ++ s) = dropBytes n s := by
  induction w with
  | nil => simp
  | cons c w ih =>
    obtain ⟨m, hm⟩ : ∃ m, byteLength (c :: w) + n = m + 1 :=
      Nat.exists_eq_add_one.2 (by have := c.utf8Size_pos; simp; omega)
    rw [hm, List.cons_append, dropBytes, ← ih]
    congr 1
    simp at hm
    omega

namespace Region

/-- The region so many bytes further on. -/
def shift (n : Nat) (r : Region) : Region := ⟨r.kind, r.start + n, r.stop + n⟩

/-- The cut with blanks in front of the text. -/
def Cut.indent (w : List Char) (c : Cut) : Cut := ⟨w ++ c.main, c.regions.map (shift (byteLength w))⟩

theorem text_shift (r : Region) (w s : List Char) :
    (r.shift (byteLength w)).text (w ++ s) = r.text s := by
  unfold text shift
  dsimp only
  rw [Nat.add_comm r.start, dropBytes_append_add, Nat.add_comm r.stop, Nat.add_sub_add_left]

variable {w w' s : List Char}

/-- Two texts that differ in the blanks in front are cut alike. -/
theorem find_of_blanks (hw : ∀ c ∈ w, isBlank c) (hw' : ∀ c ∈ w', isBlank c) {regions : List Region}
    (h : find (w ++ s) = .ok regions) : ∃ regions', find (w' ++ s) = .ok regions' ∧
      List.Forall₂ (Moved (byteLength w) (byteLength w')) regions regions' := by
  have quiet {b : List Char} (hb : ∀ c ∈ b, isBlank c) : Quiet b.reverse :=
    .of_blanks fun c hc => hb c (List.mem_reverse.1 hc)
  have beside : (Scan.start.after w).Beside (byteLength w) (byteLength w') [] []
      (Scan.start.after w') := by
    refine ⟨?_, ?_, .cons (.main 0) .nil, .none, ⟨[], [], rfl, rfl, .nil⟩⟩
    · rw [Scan.before_after, Scan.before_after]
      exact .quiet [] (by simpa [Scan.start] using quiet hw) (by simpa [Scan.start] using quiet hw')
    · simp [Scan.start, Nat.add_comm]
  have hcode : (Frame.main 0).IsCode := trivial
  obtain ⟨new, new', rfl, hf', hmoved⟩ :=
    beside.find (.blanks rfl hcode hw s) (.blanks rfl hcode hw' s) h
  exact ⟨new', hf', hmoved⟩

theorem map_shift_of_moved {n : Nat} {regions regions' : List Region}
    (h : List.Forall₂ (Moved 0 n) regions regions') : regions' = regions.map (shift n) := by
  induction h with
  | nil => rfl
  | @cons r r' _ _ hr _ ih =>
    obtain ⟨hkind, hstart, hstop⟩ := hr
    rw [List.map_cons, ← ih, shift, ← hkind, hstart, hstop]
    rfl

/-- The regions of a text are those of the text with blanks in front, moved. -/
theorem find_blanks_append_iff (hw : ∀ c ∈ w, isBlank c) (s : List Char) (regions' : List Region) :
    find (w ++ s) = .ok regions' ↔
      ∃ regions, find s = .ok regions ∧ regions' = regions.map (shift (byteLength w)) := by
  have forward {regions : List Region} (h : find s = .ok regions) :
      find (w ++ s) = .ok (regions.map (shift (byteLength w))) := by
    obtain ⟨regions', hf', hmoved⟩ := find_of_blanks (w := []) nofun hw h
    rw [hf', map_shift_of_moved hmoved]
  constructor
  · intro h
    have hnone : ∀ c ∈ ([] : List Char), isBlank c := nofun
    obtain ⟨regions, hf, -⟩ := find_of_blanks hw hnone h
    exact ⟨regions, hf, Except.ok.inj (h.symm.trans (forward hf))⟩
  · rintro ⟨regions, hf, rfl⟩
    exact forward hf

/-- What is overwritten behind blanks is what is overwritten without them. -/
theorem overwrite_shift (w s : List Char) (regions : List Region) :
    overwrite (regions.map (shift (byteLength w))) 0 (w ++ s) = w ++ overwrite regions 0 s := by
  have covered (i : Nat) : isCovered (regions.map (shift (byteLength w))) i =
      (decide (byteLength w ≤ i) && isCovered regions (i - byteLength w)) := by
    unfold isCovered
    induction regions with
    | nil => simp
    | cons r regions ih =>
      rw [List.map_cons, List.any_cons, List.any_cons, ih, Bool.and_or_distrib_left]
      congr 1
      rw [Bool.eq_iff_iff]
      unfold covers shift
      simp only [Bool.and_eq_true, decide_eq_true_iff]
      omega
  rw [overwrite_append, Nat.zero_add]
  congr 1
  · refine overwrite_of_uncovered fun i hi => ?_
    rw [Nat.zero_add, covered, decide_eq_false (by omega)]
    rfl
  · refine overwrite_congr fun i hi => ?_
    rw [covered, decide_eq_true (by omega), Nat.zero_add, Nat.add_sub_cancel_left]
    rfl

/-- A text with blanks in front is cut like the text itself. -/
theorem cut_blanks_append (hw : ∀ c ∈ w, isBlank c) (s : List Char) (c' : Cut) :
    cut (w ++ s) = .ok c' ↔ ∃ c, cut s = .ok c ∧ c' = c.indent w := by
  unfold cut
  constructor
  · intro h
    cases hf' : find (w ++ s) with
    | error e => rw [hf'] at h; cases h
    | ok regions' =>
      rw [hf'] at h
      obtain ⟨regions, hf, rfl⟩ := (find_blanks_append_iff hw s regions').1 hf'
      rw [hf]
      exact ⟨_, rfl, by rw [← Except.ok.inj h, overwrite_shift]; rfl⟩
  · rintro ⟨c, h, rfl⟩
    cases hf : find s with
    | error e => rw [hf] at h; cases h
    | ok regions =>
      rw [hf] at h
      rw [(find_blanks_append_iff hw s _).2 ⟨regions, hf, rfl⟩, ← Except.ok.inj h]
      dsimp only
      rw [overwrite_shift]
      rfl

end Region

end ServiceLang
