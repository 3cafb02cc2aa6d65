import ServiceLang.Region.Scan

/-!
Main text and regions of a source.

Cutting a region out of the main text overwrites it with blanks, one for each
byte, and keeps its newlines.  Offsets and lines in the main text are therefore
those of the source.
-/

namespace ServiceLang.Region

/-- The byte at this offset lies in the region. -/
def covers (r : Region) (offset : Nat) : Bool := r.start ≤ offset && offset < r.stop

/-- What a character of a region leaves in the main text. -/
def blankFor (c : Char) : List Char :=
  if c = '\n' then ['\n'] else List.replicate c.utf8Size ' '

/-- The text from `offset` on with the regions overwritten. -/
def overwrite (regions : List Region) (offset : Nat) : List Char → List Char
  | [] => []
  | c :: cs =>
    (if regions.any (covers · offset) then blankFor c else [c]) ++
      overwrite regions (offset + c.utf8Size) cs

/-- A source text taken apart. -/
structure Cut where
  /-- The source with every region overwritten. -/
  main : List Char
  /-- The regions in source order. -/
  regions : List Region

/-- Takes a source text apart. -/
def cut (text : List Char) : Except (Located Fault) Cut :=
  match find text with
  | .error e => .error e
  | .ok regions => .ok ⟨overwrite regions 0 text, regions⟩

theorem byteLength_replicate_space (n : Nat) : byteLength (List.replicate n ' ') = n := by
  induction n with
  | zero => rfl
  | succ n ih => simp [List.replicate_succ, ih, Char.utf8Size]; omega

/-- A character and its blanks take the same number of bytes. -/
theorem byteLength_blankFor (c : Char) : byteLength (blankFor c) = c.utf8Size := by
  unfold blankFor
  split
  · next h => subst h; rfl
  · exact byteLength_replicate_space _

/-- Overwriting keeps the number of bytes. -/
theorem byteLength_overwrite (regions : List Region) (offset : Nat) (cs : List Char) :
    byteLength (overwrite regions offset cs) = byteLength cs := by
  induction cs generalizing offset with
  | nil => rfl
  | cons c cs ih =>
    simp only [overwrite, byteLength_append, byteLength_cons, ih]
    split <;> simp [byteLength_blankFor]

end ServiceLang.Region
