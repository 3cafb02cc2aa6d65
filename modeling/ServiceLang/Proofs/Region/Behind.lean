import ServiceLang.Proofs.Region.Indented
import ServiceLang.Proofs.Region.Isolated

/-!
The text behind a region is read as a text of its own.

A region is found at the brace that closes it, and there the scanner is back at the top level,
with no annotations pending (`Reads.exists_closing`).  It looks back at that brace in vain, so
it goes on like a scanner at the start of a text: the regions behind are those of the text that
is left, moved (`find_behind`).
-/

namespace ServiceLang.Region

/-- A step finds nothing, or it closes the region that is read. -/
theorem found_of_step {s t : Scan} {c : Char} {rest : List Char} (h : step s c rest = .ok t) :
    t.found = s.found ∨ ∃ kind start d b below, s.stack = .region kind start d b :: below ∧
      t = { s.advance '\x7d' with
        stack := below, found := ⟨kind, start, (s.advance '\x7d').offset⟩ :: s.found } := by
  rcases step_cases h with ⟨top, below, hs, ht, hcode⟩ | ⟨fs, -, rfl⟩
  · cases hcode with
    | quote => exact .inl (by simp [Scan.push])
    | other => exact .inl (by simp)
    | openBrace => cases top <;> exact .inl (by simp [openBrace])
    | closeBrace =>
      cases top with
      | region kind start d b =>
        unfold closeBrace
        dsimp only
        split
        · exact .inr ⟨kind, start, d, b, below, hs, rfl⟩
        · exact .inl rfl
      | _ => exact .inl rfl
    | word =>
      cases top with
      | main d =>
        rw [stepWord_main]
        split
        · exact .inl rfl
        split
        · exact .inl rfl
        split <;> exact .inl rfl
      | _ => exact .inl rfl
    | _ => exact .inl rfl
  · exact .inl rfl

/-- The scanner has just found the region, and stands at the top level behind it. -/
structure Scan.Closes (s : Scan) (r : Region) : Prop where
  stack_eq : s.stack = [.main 0]
  pending_eq : s.pending = none
  offset_eq : s.offset = r.stop
  exists_before : ∃ before, s.before = '\x7d' :: before
  exists_found : ∃ old, s.found = r :: old

/-- A region that is found was closed by a step on the way. -/
theorem Reads.exists_closing_step {text ys : List Char} {t : Scan} {r : Region}
    (h : Reads .start text t ys) (hr : r ∈ t.found) :
    ∃ s c xs d b below, Reads .start text s (c :: xs) ∧
      s.stack = .region r.kind r.start d b :: below ∧ r.stop = (s.advance '\x7d').offset ∧
      Region.step s c xs = .ok { s.advance '\x7d' with stack := below, found := r :: s.found } := by
  have closing {s u : Scan} {xs ys : List Char} (hs : Reads .start text s xs) (h : Reads s xs u ys)
      (hr : r ∈ u.found) : r ∈ s.found ∨ ∃ s c xs d b below, Reads .start text s (c :: xs) ∧
        s.stack = .region r.kind r.start d b :: below ∧ r.stop = (s.advance '\x7d').offset ∧
        Region.step s c xs = .ok { s.advance '\x7d' with stack := below, found := r :: s.found } := by
    induction h with
    | done => exact .inl hr
    | @step s u v c xs ys hst _ ih =>
      rcases ih (hs.trans (.step hst (.done _ _))) hr with hr | h
      · rcases found_of_step hst with hf | ⟨kind, start, d, b, below, hstack, ht⟩
        · exact .inl (hf ▸ hr)
        subst ht
        rcases List.mem_cons.1 hr with rfl | hr
        · exact .inr ⟨s, c, xs, d, b, below, hs, hstack, rfl, hst⟩
        · exact .inl hr
      · exact .inr h
  exact (closing (.done _ _) h hr).resolve_left nofun

theorem Reads.exists_closing {text ys : List Char} {t : Scan} {r : Region}
    (h : Reads .start text t ys) (hr : r ∈ t.found) :
    ∃ s xs, Reads .start text s xs ∧ s.Closes r := by
  obtain ⟨s, c, xs, d, b, below, hs, hstack, hstop, hstep⟩ := h.exists_closing_step hr
  obtain ⟨hbelow, hpending⟩ := hs.settled hstack
  exact ⟨_, xs, hs.trans (.step hstep (.done _ _)), hbelow, hpending, hstop.symm, ⟨_, rfl⟩, ⟨_, rfl⟩⟩

variable {a d b : List Char} {kind : Kind} {regions : List Region}

/-- Behind a region, the regions of a text are those of the rest of it, moved. -/
theorem find_behind (hf : find (a ++ d ++ b) = .ok regions)
    (hr : ⟨kind, byteLength a, byteLength (a ++ d)⟩ ∈ regions) :
    ∃ before after, find b = .ok after ∧ regions =
      before ++ ⟨kind, byteLength a, byteLength (a ++ d)⟩ :: after.map (shift (byteLength (a ++ d))) := by
  obtain ⟨t, ht, -, hfound⟩ := (find_eq_ok_iff _ _).1 hf
  obtain ⟨s, xs, hs, hcloses⟩ := ht.exists_closing (List.mem_reverse.1 (hfound ▸ hr))
  obtain ⟨before, hbefore⟩ := hcloses.exists_before
  obtain ⟨old, hold⟩ := hcloses.exists_found
  obtain ⟨htext, hoffset⟩ := hs.before_start
  -- what is ahead behind the closing brace is the rest of the text
  obtain rfl : xs = b := by
    have hdrop := dropBytes_append s.before.reverse xs
    rw [← htext, ← hoffset, hcloses.offset_eq, dropBytes_append] at hdrop
    exact hdrop.symm
  have beside : s.Beside (byteLength (a ++ d)) 0 s.found [] .start := by
    refine ⟨?_, ?_, ?_, ?_, ⟨[], [], rfl, rfl, .nil⟩⟩
    · rw [hbefore]
      exact .quiet [] (.of_cons rfl rfl) (.of_blanks nofun)
    · rw [hcloses.offset_eq]
      simp [Scan.start]
    · rw [hcloses.stack_eq]
      exact .cons (.main 0) .nil
    · rw [hcloses.pending_eq]
      exact .none
  obtain ⟨new, new', hnew, hf', hmoved⟩ := beside.find hs (.done _ _) hf
  obtain rfl : new = new'.map (shift (byteLength (a ++ d))) :=
    map_shift_of_moved (hmoved.flip.imp fun r r' h => ⟨h.kind_eq.symm, h.start_eq.symm, h.stop_eq.symm⟩)
  rw [hold, List.reverse_cons, List.append_assoc] at hnew
  exact ⟨old.reverse, new', hf', hnew⟩

end ServiceLang.Region
