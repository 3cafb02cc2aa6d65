import ServiceLang.Proofs.Region.Step

/-!
Words of the main text.

Where main text is read, the first character of a word decides what opens there:
a region, an `exec` block or nothing.  `headAt` and `execAt` say which, from the
characters around the place (`stepWord_main`).  `places` lists all places that the
scanner of a text comes to, so what holds at each of them can be decided.
-/

namespace ServiceLang.Region

/-! ## What a word opens -/

/-- A word begins ahead. -/
def StartsWord (atTop : Bool) (before ahead : List Char) : Prop :=
  ahead.head?.any isWordChar ∧ insideWord atTop before = false

/-- The kind of region that the word ahead opens at the top level. -/
def headAt (before ahead : List Char) : Option Kind :=
  declares? before (String.ofList (ahead.takeWhile isWordChar)) (ahead.dropWhile isWordChar)

/-- The word ahead opens an `exec` block. -/
def execAt (ahead : List Char) : Bool :=
  String.ofList (ahead.takeWhile isWordChar) = "exec" && nextIs '\x7b' (ahead.dropWhile isWordChar)

/-- The number of braces around the main text that is read. -/
def Scan.mainDepth? (s : Scan) : Option Nat :=
  match s.stack with
  | .main d :: _ => some d
  | _ => none

theorem mainDepth?_eq_some_iff (s : Scan) (d : Nat) :
    s.mainDepth? = some d ↔ s.stack.head? = some (.main d) := by
  unfold Scan.mainDepth?
  split
  · next h => rw [h]; simp
  · next h =>
    constructor
    · intro h2; cases h2
    · intro h2
      obtain ⟨below, hb⟩ := List.head?_eq_some_iff.1 h2
      exact absurd hb (h d below)

instance (atTop : Bool) (before ahead : List Char) : Decidable (StartsWord atTop before ahead) :=
  inferInstanceAs (Decidable (_ ∧ _))

theorem stepWord_main (s : Scan) (d : Nat) (c : Char) (rest : List Char) :
    stepWord s (.main d) c rest =
      if execAt (c :: rest) then ((s.advance c).dropPendingIf true).push (.shell s.offset 1 false)
      else if d ≠ 0 then s.advance c
      else
        match headAt s.before (c :: rest) with
        | none => (s.advance c).dropPendingIf true
        | some .endpoint => ((s.advance c).dropPendingIf true).push
            (.region .endpoint (s.pending.getD s.offset) 0 false)
        | some .flow => ((s.advance c).dropPendingIf true).push
            (.region .flow s.offset 0 false) := rfl

/-- A word that opens an `exec` block declares nothing. -/
theorem headAt_of_execAt (before ahead : List Char) (h : execAt ahead) :
    headAt before ahead = none := by
  have hw : String.ofList (ahead.takeWhile isWordChar) = "exec" := by
    unfold execAt at h
    simp only [Bool.and_eq_true, decide_eq_true_eq] at h
    exact h.1
  unfold headAt declares?
  rw [hw]
  simp

/-- The word ahead of the scanner opens an `exec` block. -/
def OpensExec (s : Scan) (ahead : List Char) : Prop :=
  s.mainDepth?.isSome ∧ StartsWord (s.mainDepth? = some 0) s.before ahead ∧ execAt ahead

instance (s : Scan) (ahead : List Char) : Decidable (OpensExec s ahead) :=
  inferInstanceAs (Decidable (_ ∧ _ ∧ _))

theorem mainDepth?_of_stack {s : Scan} {d : Nat} {below : List Frame} (hs : s.stack = .main d :: below) :
    s.mainDepth? = some d := by
  rw [mainDepth?_eq_some_iff, hs]
  rfl

theorem startsWord_main_iff {s : Scan} {d : Nat} {below : List Frame} (hs : s.stack = .main d :: below)
    (c : Char) (rest : List Char) :
    StartsWord (s.mainDepth? = some 0) s.before (c :: rest) ↔
      isWordChar c ∧ insideWord (Frame.main d).isTopLevel s.before = false := by
  rw [mainDepth?_of_stack hs, isTopLevel_main]
  show (isWordChar c = true ∧ _) ↔ _
  simp

theorem opensExec_iff {s : Scan} {d : Nat} {below : List Frame} (hs : s.stack = .main d :: below)
    (c : Char) (rest : List Char) :
    OpensExec s (c :: rest) ↔
      isWordChar c ∧ insideWord (Frame.main d).isTopLevel s.before = false ∧ execAt (c :: rest) := by
  unfold OpensExec
  rw [startsWord_main_iff hs, mainDepth?_of_stack hs]
  show (true = true ∧ _) ↔ _
  simp [and_assoc]

/-! ## Places of a scan -/

/-- The states of a scan, with the text ahead of each. -/
def places (s : Scan) : List Char → List (Scan × List Char)
  | [] => [(s, [])]
  | c :: rest =>
    (s, c :: rest) ::
      match step s c rest with
      | .error _ => []
      | .ok next => places next rest

theorem mem_places_iff (s t : Scan) (xs ys : List Char) : (t, ys) ∈ places s xs ↔ Reads s xs t ys := by
  induction xs generalizing s with
  | nil =>
    constructor
    · intro h
      cases List.mem_singleton.1 h
      exact .done _ _
    · intro h
      cases h
      exact List.mem_singleton.2 rfl
  | cons c rest ih =>
    constructor
    · intro h
      rcases List.mem_cons.1 h with h | h
      · cases h
        exact .done _ _
      · cases hs : step s c rest with
        | error e => rw [hs] at h; cases h
        | ok u => rw [hs] at h; exact .step hs ((ih u).1 h)
    · intro h
      cases h with
      | done => exact List.mem_cons_self
      | @step _ u _ _ _ _ hs h =>
        refine List.mem_cons_of_mem _ ?_
        rw [hs]
        exact (ih u).2 h

theorem forall_reads_iff (text : List Char) (P : Scan → List Char → Prop) :
    (∀ s ahead, Reads .start text s ahead → P s ahead) ↔
      ∀ p ∈ places .start text, P p.1 p.2 := by
  constructor
  · rintro h ⟨s, ahead⟩ hp
    exact h s ahead ((mem_places_iff _ _ _ _).1 hp)
  · intro h s ahead hr
    exact h (s, ahead) ((mem_places_iff _ _ _ _).2 hr)

end ServiceLang.Region
