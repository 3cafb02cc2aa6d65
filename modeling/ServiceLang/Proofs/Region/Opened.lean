import ServiceLang.Proofs.Region.Found

/-!
Where the region that is being read was opened.

Of all steps, only two bear on where a region starts: the mark of an annotation, and the
word that opens a region (`RegionStep`).  So the frame of a region lies on main text alone,
with no annotation waiting (`Reads.settled`), and at its start the scanner stood at the
top level before a mark or before the word (`Reads.exists_opening`).
-/

namespace ServiceLang.Region

/-- The regions open behind a step were open before it, on the same frames. -/
def KeepsRegions (fs gs : List Frame) : Prop :=
  ∀ kind start d b below, .region kind start d b :: below <:+ gs →
    ∃ d' b', .region kind start d' b' :: below <:+ fs

def Frame.isRegion : Frame → Bool
  | .region _ _ _ _ => true
  | _ => false

namespace KeepsRegions

variable {f g : Frame} {fs gs : List Frame}

theorem refl (fs : List Frame) : KeepsRegions fs fs := fun _ _ d b _ h => ⟨d, b, h⟩

theorem push (hf : f.isRegion = false) : KeepsRegions fs (f :: fs) := by
  intro kind start d b below h
  rcases List.suffix_cons_iff.1 h with heq | h
  · rw [← (List.cons.inj heq).1] at hf
    cases hf
  · exact ⟨d, b, h⟩

theorem leave : KeepsRegions (f :: fs) fs := fun _ _ d b _ h => ⟨d, b, h.trans (List.suffix_cons f fs)⟩

theorem change (hg : g.isRegion = false) : KeepsRegions (f :: fs) (g :: fs) := by
  intro kind start d b below h
  obtain ⟨d, b, h⟩ := push hg kind start d b below h
  exact leave kind start d b below h

theorem region {kind : Kind} {start d d' : Nat} {b b' : Bool} :
    KeepsRegions (.region kind start d b :: fs) (.region kind start d' b' :: fs) := by
  intro kind start e o below h
  rcases List.suffix_cons_iff.1 h with heq | h
  · cases heq
    exact ⟨d, b, List.suffix_rfl⟩
  · exact leave kind start e o below h

end KeepsRegions

/-- The word ahead opens a region of the kind that starts with the word, or with the
annotations that wait before it. -/
structure OpensRegion (s : Scan) (c : Char) (rest : List Char) (kind : Kind) : Prop where
  isWordChar : isWordChar c
  insideWord : insideWord true s.before = false
  headAt : headAt s.before (c :: rest) = some kind
  execAt : execAt (c :: rest) = false

/-- The state behind the first character of a word that opens a region. -/
def Scan.openRegion (s : Scan) (c : Char) (kind : Kind) : Scan :=
  ((s.advance c).dropPendingIf true).push (.region kind (Scanned.regionStart s kind) 0 false)

theorem OpensRegion.codeStep {s : Scan} {c : Char} {rest : List Char} {kind : Kind} {below : List Frame}
    (h : OpensRegion s c rest kind) : CodeStep s (.main 0) below c rest (s.openRegion c kind) := by
  have hstep : stepWord s (.main 0) c rest = s.openRegion c kind := by
    rw [stepWord_main, h.execAt, if_neg (by simp), if_neg (by simp), h.headAt]
    cases kind <;> rfl
  rw [← hstep]
  exact .word h.isWordChar h.insideWord

/-- What a step does to the regions that are open, and to the annotations that wait. -/
inductive RegionStep (s : Scan) (c : Char) (rest : List Char) (t : Scan) : Prop
  | keep : KeepsRegions s.stack t.stack → t.pending = s.pending ∨ t.pending = none →
      RegionStep s c rest t
  | await : c = '@' → s.stack = [.main 0] → KeepsRegions s.stack t.stack →
      t.pending = some (s.pending.getD s.offset) → RegionStep s c rest t
  | declare {kind : Kind} : s.stack = [.main 0] → OpensRegion s c rest kind → t = s.openRegion c kind →
      RegionStep s c rest t

theorem regionStep_of_word {s : Scan} {d : Nat} {c : Char} {rest : List Char}
    (hs : s.stack = [.main d]) (hc : isWordChar c)
    (hi : insideWord (Frame.main d).isTopLevel s.before = false) :
    RegionStep s c rest (stepWord s (.main d) c rest) := by
  rw [stepWord_main]
  split
  · exact .keep (.push rfl) (.inr rfl)
  next hx =>
  split
  · exact .keep (.refl _) (.inl rfl)
  next hd =>
  obtain rfl : d = 0 := by omega
  have hx : execAt (c :: rest) = false := by simpa using hx
  split
  · exact .keep (.refl _) (.inr rfl)
  · next hk => exact .declare hs ⟨hc, hi, hk, hx⟩ rfl
  · next hk => exact .declare hs ⟨hc, hi, hk, hx⟩ rfl

theorem regionStep_of_codeStep {s t : Scan} {top : Frame} {below : List Frame} {c : Char}
    {rest : List Char} (hs : s.stack = top :: below) (ht : top.IsCode) (hg : s.Grounded)
    (h : CodeStep s top below c rest t) : RegionStep s c rest t := by
  have main {d : Nat} (htop : top = .main d) : s.stack = [.main d] := by
    have hd : .main d :: below <:+ s.stack := htop ▸ hs ▸ List.suffix_rfl
    rw [hs, htop, hg d below hd]
  have topLevel (htop : top.isTopLevel) : s.stack = [.main 0] := main (eq_main_of_isTopLevel htop)
  cases h with
  | blank => exact .keep (.refl _) (.inl rfl)
  | lineComment => exact .keep (.push rfl) (.inl rfl)
  | blockComment => exact .keep (.push rfl) (.inl rfl)
  | quote =>
    cases top.isTopLevel with
    | true => exact .keep (.push rfl) (.inr rfl)
    | false => exact .keep (.push rfl) (.inl rfl)
  | openBrace =>
    cases top with
    | main d =>
      refine .keep (hs ▸ .change rfl) ?_
      cases (Frame.main d).isTopLevel with
      | true => exact .inr rfl
      | false => exact .inl rfl
    | region => exact .keep (hs ▸ .region) (.inl rfl)
    | _ => cases ht
  | closeBrace =>
    cases top with
    | main d => exact .keep (hs ▸ .change rfl) (.inl rfl)
    | region kind start d b =>
      unfold closeBrace
      dsimp only
      split
      · exact .keep (hs ▸ .leave) (.inl rfl)
      · exact .keep (hs ▸ .region) (.inl rfl)
    | _ => cases ht
  | withArguments htop _ => exact .await rfl (topLevel htop) (.push rfl) rfl
  | withoutArguments htop _ => exact .await rfl (topLevel htop) (.refl _) rfl
  | insideWord => exact .keep (.refl _) (.inl rfl)
  | other =>
    cases top.isTopLevel with
    | true => exact .keep (.refl _) (.inr rfl)
    | false => exact .keep (.refl _) (.inl rfl)
  | word hc hi =>
    cases top with
    | main d => exact regionStep_of_word (main rfl) hc hi
    | region => exact .keep (.refl _) (.inl rfl)
    | _ => cases ht

theorem regionStep_of_step {s t : Scan} {c : Char} {rest : List Char} (hg : s.Grounded)
    (h : step s c rest = .ok t) : RegionStep s c rest t := by
  rcases step_cases h with ⟨top, below, hs, ht, hcode⟩ | ⟨fs, hframe, rfl⟩
  · exact regionStep_of_codeStep hs ht hg hcode
  refine .keep ?_ (.inl rfl)
  cases hframe with
  | stay => exact .refl _
  | quote => exact .push rfl
  | quoted hs => exact hs ▸ .change rfl
  | shell hs => exact hs ▸ .change rfl
  | leave hs => exact hs ▸ .leave

/-! ## Regions that are open -/

/-- Regions lie on main text alone, and no annotation waits while one is read. -/
def Scan.Settled (s : Scan) : Prop :=
  ∀ kind start d b below, .region kind start d b :: below <:+ s.stack →
    below = [.main 0] ∧ s.pending = none

theorem RegionStep.settled {s t : Scan} {c : Char} {rest : List Char} (h : RegionStep s c rest t)
    (hs : s.Settled) : t.Settled := by
  intro kind start d b below hb
  cases h with
  | keep hk hp =>
    obtain ⟨d', b', hb⟩ := hk kind start d b below hb
    obtain ⟨hbelow, hnone⟩ := hs kind start d' b' below hb
    rw [hnone, or_self] at hp
    exact ⟨hbelow, hp⟩
  | await _ hm hk _ =>
    obtain ⟨d', b', hb⟩ := hk kind start d b below hb
    rw [hm] at hb
    have := hb.length_le
    rcases List.suffix_cons_iff.1 hb with heq | hb
    · cases heq
    · cases List.suffix_nil.1 hb
  | declare hm _ ht =>
    subst ht
    rcases List.suffix_cons_iff.1 hb with heq | hb
    · cases heq
      exact ⟨hm, rfl⟩
    · have hb : .region kind start d b :: below <:+ s.stack := hb
      rw [hm] at hb
      rcases List.suffix_cons_iff.1 hb with heq | hb
      · cases heq
      · cases List.suffix_nil.1 hb

/-- Where a region is read, main text lies under it, and no annotation waits. -/
theorem Reads.settled {text ys : List Char} {s : Scan} {kind : Kind} {start d : Nat} {b : Bool}
    {below : List Frame} (h : Reads .start text s ys)
    (hs : s.stack = .region kind start d b :: below) : below = [.main 0] ∧ s.pending = none := by
  have keep {s t : Scan} {xs ys : List Char} (h : Reads s xs t ys) (hg : s.Grounded) (hs : s.Settled) :
      t.Settled := by
    induction h with
    | done => exact hs
    | step hst _ ih =>
      have hstep := regionStep_of_step hg hst
      exact ih ((advances_of_step hst).stack_of.grounded hg _ rfl) (hstep.settled hs)
  refine keep h grounded_start ?_ kind start d b below (hs ▸ List.suffix_rfl)
  intro kind start d b below hb
  rcases List.suffix_cons_iff.1 hb with heq | hb
  · cases heq
  · cases List.suffix_nil.1 hb

/-- Nothing of a region that starts at the offset is open or waits. -/
def Scan.Clear (s : Scan) (start : Nat) : Prop :=
  (∀ kind d b below, ¬ .region kind start d b :: below <:+ s.stack) ∧ s.pending ≠ some start

/-- The scanner stands at the start of a region, at the top level: before the mark of an
annotation that it begins with, or before the word that opens it. -/
structure Opening (s : Scan) (c : Char) (rest : List Char) : Prop where
  stack_eq : s.stack = [.main 0]
  begins : (c = '@' ∧ s.pending = none) ∨
    ∃ kind, OpensRegion s c rest kind ∧ Scanned.regionStart s kind = s.offset

theorem RegionStep.clear_or_opening {s t : Scan} {c : Char} {rest : List Char} {start : Nat}
    (h : RegionStep s c rest t) (hs : s.Clear start) :
    t.Clear start ∨ s.offset = start ∧ Opening s c rest := by
  obtain ⟨hframes, hpending⟩ := hs
  have clear (hk : KeepsRegions s.stack t.stack) (hp : t.pending ≠ some start) : t.Clear start := by
    refine ⟨fun kind d b below hb => ?_, hp⟩
    obtain ⟨d', b', hb⟩ := hk kind start d b below hb
    exact hframes kind d' b' below hb
  cases h with
  | keep hk hp =>
    refine .inl (clear hk ?_)
    rcases hp with hp | hp <;> rw [hp]
    · exact hpending
    · exact (Option.some_ne_none start).symm
  | await hc hm hk hp =>
    by_cases heq : s.pending.getD s.offset = start
    · right
      cases hw : s.pending with
      | none =>
        rw [hw] at heq
        exact ⟨heq, hm, .inl ⟨hc, hw⟩⟩
      | some q =>
        rw [hw] at heq hpending
        exact absurd (congrArg some heq) hpending
    · refine .inl (clear hk ?_)
      rw [hp]
      exact fun h => heq (Option.some.inj h)
  | @declare kind hm hopens ht =>
    subst ht
    by_cases heq : Scanned.regionStart s kind = start
    · right
      have hstart : Scanned.regionStart s kind = s.offset := by
        cases kind with
        | flow => rfl
        | endpoint =>
          cases hw : s.pending with
          | none => simp [Scanned.regionStart, hw]
          | some q =>
            rw [Scanned.regionStart, hw] at heq
            rw [hw] at hpending
            exact absurd (congrArg some heq) hpending
      exact ⟨hstart.symm.trans heq, hm, .inr ⟨kind, hopens, hstart⟩⟩
    · left
      refine ⟨fun kind' d b below hb => ?_, (Option.some_ne_none start).symm⟩
      rcases List.suffix_cons_iff.1 hb with hb | hb
      · cases hb
        exact heq rfl
      · exact hframes kind' d b below hb

/-- A region that is open and was not has been opened on the way. -/
theorem Reads.exists_opening_of_clear {s t : Scan} {xs ys : List Char} {kind : Kind} {start d : Nat}
    {b : Bool} {below : List Frame} (h : Reads s xs t ys) (hg : s.Grounded) (hs : s.Clear start)
    (ht : t.stack = .region kind start d b :: below) :
    ∃ u c rest, Reads s xs u (c :: rest) ∧ Reads u (c :: rest) t ys ∧ u.offset = start ∧
      Opening u c rest := by
  induction h with
  | done => exact absurd (ht ▸ List.suffix_rfl) (hs.1 kind d b below)
  | step hst h ih =>
    rcases (regionStep_of_step hg hst).clear_or_opening hs with hclear | ⟨hoffset, hopening⟩
    · obtain ⟨u, c, rest, hu, hut, hopening⟩ :=
        ih ((advances_of_step hst).stack_of.grounded hg _ rfl) hclear ht
      exact ⟨u, c, rest, .step hst hu, hut, hopening⟩
    · exact ⟨_, _, _, .done _ _, .step hst h, hoffset, hopening⟩

/-- At the start of a region that is open the scanner stood at its opening. -/
theorem Reads.exists_opening {text ys : List Char} {t : Scan} {kind : Kind} {start d : Nat} {b : Bool}
    {below : List Frame} (h : Reads .start text t ys)
    (ht : t.stack = .region kind start d b :: below) :
    ∃ s c rest, Reads .start text s (c :: rest) ∧ Reads s (c :: rest) t ys ∧ s.offset = start ∧
      Opening s c rest := by
  refine h.exists_opening_of_clear grounded_start ⟨fun kind d b below hb => ?_, nofun⟩ ht
  rcases List.suffix_cons_iff.1 hb with heq | hb
  · cases heq
  · cases List.suffix_nil.1 hb

end ServiceLang.Region
