import ServiceLang.Proofs.Grammar.Indented
import ServiceLang.Proofs.Lower.RelocatedRegion
import ServiceLang.Proofs.Lower.RelocatedStatement
import ServiceLang.Proofs.Parse.Elsewhere
import ServiceLang.Proofs.Region.Indented
import ServiceLang.Proofs.Source.Indented

/-!
Parsing does not depend on blanks in front of the source.

With blanks in front, the source is cut into the same regions further on
(`Region.cut_blanks_append`), the main text leaves the same nodes further on
(`MainGrammar.agree_blanks_append`), and positions are moved (`Source.position_blanks_append`).
Each part is lowered to the same statements with other positions, and sorting by offset keeps
the order, since all offsets grow alike.  So both sources are refused, or they have the same
program up to positions (`Source.parse_blanks_append`).
-/

namespace ServiceLang

open Peg

namespace Source

variable {f : Position → Position} {s s' : Source}

/-! ## Parts of a source -/

/-- What `parsePart` makes of related trees is related. -/
theorem parsePart_carries {R α : Type} [DecidableEq R] {g : Grammar R} {root : R}
    {lower : (Nat → Position) → List (ParseTree R) → Lowered α} {base base' : Nat}
    {text text' : List Char} {relocate : α → α} {P : α → Prop}
    (h : Agree (fun trees trees' => Carries relocate P
        (lower (fun offset => s.position (base + offset)) trees)
        (lower (fun offset => s'.position (base' + offset)) trees'))
      (g.parse root text) (g.parse root text')) :
    Carries relocate P (s.parsePart g root lower base text)
      (s'.parsePart g root lower base' text') := by
  unfold parsePart
  generalize g.parse root text = x at h
  generalize g.parse root text' = x' at h
  cases h with
  | error e e' => exact .error _ _
  | @ok trees trees' h =>
    dsimp only
    generalize lower (fun offset => s.position (base + offset)) trees = y at h
    generalize lower (fun offset => s'.position (base' + offset)) trees' = y' at h
    cases h with
    | error e e' => exact .error _ _
    | ok ha => exact .ok ha

/-- A region with the same text declares the same, elsewhere. -/
theorem parseRegion_carries {r r' : Region} (hkind : r'.kind = r.kind)
    (htext : r'.text s'.text = r.text s.text)
    (hplace : ∀ offset, s'.position (r'.start + offset) = f (s.position (r.start + offset))) :
    Carries (Stmt.relocate f) (fun x => x.same x = true) (s.parseRegion r) (s'.parseRegion r') := by
  have self {R : Type} [DecidableEq R] (g : Grammar R) (root : R)
      {S : List (ParseTree R) → List (ParseTree R) → Prop} (hS : ∀ trees, S trees trees) :
      Agree S (g.parse root (r.text s.text)) (g.parse root (r.text s.text)) := by
    cases g.parse root (r.text s.text) with
    | error e => exact .error _ _
    | ok trees => exact .ok (hS trees)
  unfold parseRegion
  rw [hkind, htext]
  split
  · have h : Carries (Endpoint.relocate f) (fun _ => True)
        (s.parsePart EndpointGrammar.grammar .endpointFile EndpointGrammar.lowerRegion r.start
          (r.text s.text))
        (s'.parsePart EndpointGrammar.grammar .endpointFile EndpointGrammar.lowerRegion r'.start
          (r.text s.text)) := by
      refine parsePart_carries (self _ _ fun trees => ?_)
      exact EndpointGrammar.lowerRegion_carries fun _ _ _ _ _ u _ => hplace u.offset
    exact h.map fun e _ => ⟨rfl, e.same_self⟩
  · refine parsePart_carries (self _ _ fun trees => ?_)
    exact FlowGrammar.lowerRegion_carries fun _ _ _ _ _ u _ => hplace u.offset

/-! ## Merging -/

/-- Merging commutes with replacing positions that keeps the order of offsets. -/
theorem mergeStatements_relocate {main regions : List Stmt}
    (hf : ∀ x ∈ main ++ regions, ∀ y ∈ main ++ regions,
      ((f x.pos).offset ≤ (f y.pos).offset ↔ x.pos.offset ≤ y.pos.offset)) :
    mergeStatements (main.map (Stmt.relocate f)) (regions.map (Stmt.relocate f)) =
      (mergeStatements main regions).map (Stmt.relocate f) := by
  let pair (x : Stmt) : Stmt × Stmt := (x, x.relocate f)
  have hfst (xs : List Stmt) : (xs.map pair).map Prod.fst = xs := by
    rw [List.map_map]
    exact List.map_id xs
  have hsnd (xs : List Stmt) : (xs.map pair).map Prod.snd = xs.map (Stmt.relocate f) := List.map_map
  have hpaired {z : Stmt × Stmt} (hz : z ∈ main.map pair ++ regions.map pair) :
      ∃ x ∈ main ++ regions, pair x = z := by
    rw [← List.map_append] at hz
    exact List.mem_map.1 hz
  obtain ⟨merged, hperm, h, h'⟩ := mergeStatements_pairs (main.map pair) (regions.map pair)
    (fun z hz => by
      obtain ⟨x, -, rfl⟩ := List.mem_map.1 hz
      exact isEndpoint_relocate f x)
    (fun z hz w hw => by
      obtain ⟨x, hx, rfl⟩ := hpaired hz
      obtain ⟨y, hy, rfl⟩ := hpaired hw
      rw [Stmt.pos_relocate, Stmt.pos_relocate]
      exact (hf x hx y hy).symm)
  rw [hfst, hfst] at h
  rw [hsnd, hsnd] at h'
  rw [h, h', List.map_map]
  refine List.map_congr_left fun z hz => ?_
  obtain ⟨x, -, rfl⟩ := hpaired (hperm.mem_iff.1 hz)
  rfl

/-! ## Blanks in front -/

variable {w : List Char}

theorem parseMain_blanks_append (hw : ∀ c ∈ w, isBlank c) (filename : String) (text main : List Char) :
    Carries (List.map (Stmt.relocate (Position.indent w))) (fun ss => ∀ x ∈ ss, x.same x = true)
      ((Source.mk filename text).parseMain main)
      ((Source.mk filename (w ++ text)).parseMain (w ++ main)) := by
  have hplace (offset : Nat) : (Source.mk filename (w ++ text)).position
        (0 + (offset + ServiceLang.byteLength w)) =
      ((Source.mk filename text).position (0 + offset)).indent w := by
    rw [Nat.zero_add, Nat.zero_add, Nat.add_comm, position_blanks_append hw]
  refine parsePart_carries ?_
  have h := MainGrammar.agree_blanks_append hw main
  generalize MainGrammar.grammar.parse .program main = x at h
  generalize MainGrammar.grammar.parse .program (w ++ main) = x' at h
  cases h with
  | error e e' => exact .error _ _
  | ok h =>
    refine .ok (MainGrammar.lowerProgram_carries (List.Forall₂.imp (fun t t' ht => ?_) h))
    exact List.Forall₂.imp (fun u u' hu => MainGrammar.alike_of_shifted hu hplace) ht

theorem mapM_parseRegion_blanks_append (hw : ∀ c ∈ w, isBlank c) (filename : String)
    (text : List Char) (regions : List Region) :
    Carries (List.map (Stmt.relocate (Position.indent w))) (fun ss => ∀ x ∈ ss, x.same x = true)
      (regions.mapM (Source.mk filename text).parseRegion)
      ((regions.map (Region.shift (ServiceLang.byteLength w))).mapM
        (Source.mk filename (w ++ text)).parseRegion) := by
  refine .mapM (List.forall₂_map_right_iff.2 (List.forall₂_same.2 fun r _ => ?_))
  refine parseRegion_carries rfl (Region.text_shift r w text) fun offset => ?_
  rw [← position_blanks_append hw]
  simp only [Region.shift]
  congr 1
  omega

theorem position_zero (filename : String) (text : List Char) :
    (Source.mk filename text).position 0 = ⟨filename, 1, 1, 0⟩ := by
  cases text <;> rfl

/-- With blanks in front of the source, the program is the same, elsewhere. -/
theorem parse_blanks_append_carries (hw : ∀ c ∈ w, isBlank c) (filename : String) (text : List Char) :
    Carries (fun p : Program => Program.mk p.pos (p.statements.map (Stmt.relocate (Position.indent w))))
      (fun p => p.same p = true) (Source.mk filename text).parse
      (Source.mk filename (w ++ text)).parse := by
  unfold parse
  dsimp only
  cases hcut : Region.cut text with
  | error e =>
    cases hcut' : Region.cut (w ++ text) with
    | error e' => exact .error _ _
    | ok c' =>
      obtain ⟨c, hc, -⟩ := (Region.cut_blanks_append hw text c').1 hcut'
      rw [hcut] at hc
      cases hc
  | ok c =>
    rw [(Region.cut_blanks_append hw text _).2 ⟨c, hcut, rfl⟩]
    have hmain := parseMain_blanks_append hw filename text c.main
    have hdeclared := mapM_parseRegion_blanks_append hw filename text c.regions
    dsimp only [Region.Cut.indent]
    generalize (Source.mk filename text).parseMain c.main = x at hmain
    generalize (Source.mk filename (w ++ text)).parseMain (w ++ c.main) = x' at hmain
    cases hmain with
    | error e e' => exact .error _ _
    | @ok main hmain =>
    dsimp only
    generalize c.regions.mapM (Source.mk filename text).parseRegion = y at hdeclared
    generalize List.mapM (Source.mk filename (w ++ text)).parseRegion _ = y' at hdeclared
    cases hdeclared with
    | error e e' => exact .error _ _
    | @ok declared hdeclared =>
    dsimp only
    rw [position_zero, position_zero, mergeStatements_relocate]
    · refine Carries.ok (a := Program.mk ⟨filename, 1, 1, 0⟩ (mergeStatements main declared)) ?_
      refine (Stmt.sameAll_self_iff _).2 fun x hx => ?_
      exact (mem_mergeStatements hx).elim (hmain x) (hdeclared x)
    · intro x _ y _
      simp [Position.indent]

/-- Parsing is invariant under blanks in front of the source: both sources are accepted or
neither is, and then the programs are equal but for positions, each of which is moved, as
are the regions. -/
theorem parse_blanks_append (hw : ∀ c ∈ w, isBlank c) (filename : String) (text : List Char) :
    ((∃ p', (Source.mk filename (w ++ text)).parse = .ok p') ↔
      ∃ p, (Source.mk filename text).parse = .ok p) ∧
    (∀ p p', (Source.mk filename text).parse = .ok p →
      (Source.mk filename (w ++ text)).parse = .ok p' → p'.same p = true ∧ p'.pos = p.pos ∧
        p'.statements = p.statements.map (Stmt.relocate (Position.indent w))) ∧
    ∀ c', Region.cut (w ++ text) = .ok c' ↔ ∃ c, Region.cut text = .ok c ∧
      c' = ⟨w ++ c.main, c.regions.map (Region.shift (ServiceLang.byteLength w))⟩ := by
  have h := parse_blanks_append_carries hw filename text
  refine ⟨?_, ?_, Region.cut_blanks_append hw text⟩
  all_goals
    generalize (Source.mk filename text).parse = x at h
    generalize (Source.mk filename (w ++ text)).parse = x' at h
    cases h
  case refine_1.ok => exact ⟨fun _ => ⟨_, rfl⟩, fun _ => ⟨_, rfl⟩⟩
  case refine_1.error => exact ⟨nofun, nofun⟩
  case refine_2.error => nofun
  case refine_2.ok p hp =>
    rintro _ _ ⟨⟩ ⟨⟩
    refine ⟨?_, rfl, rfl⟩
    have hsame := Program.same_relocate (Position.indent w) p p
    rw [hp] at hsame
    exact hsame

/-- Blanks on two lines in front of a statement that shares its line with a workflow. -/
theorem parse_blanks_append_twoLines :
    let w := "\t\r\n ".toList
    let text := "exec \x7bé\x7d workflow w \x7b step s \x7b input \x7b k: [1] \x7d \x7d \x7d\nreturn".toList
    (∀ c ∈ w, isBlank c) ∧ ∃ p p', (Source.mk "" text).parse = .ok p ∧
      (Source.mk "" (w ++ text)).parse = .ok p' ∧ p'.same p = true ∧ p'.pos = p.pos ∧
        p'.statements = p.statements.map (Stmt.relocate (Position.indent w)) := by
  intro w text
  have hw : ∀ c ∈ w, isBlank c := by decide
  obtain ⟨haccepted, hprograms, -⟩ := parse_blanks_append hw "" text
  obtain ⟨p, hp⟩ := exists_ok_of_isSome (x := (Source.mk "" text).parse) (by decide +kernel)
  obtain ⟨p', hp'⟩ := haccepted.2 ⟨p, hp⟩
  exact ⟨hw, p, p', hp, hp', hprograms p p' hp hp'⟩

end Source

end ServiceLang
