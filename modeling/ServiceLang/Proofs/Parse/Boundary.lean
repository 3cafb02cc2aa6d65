import ServiceLang.Proofs.Grammar.Behind
import ServiceLang.Proofs.Parse.Indented
import ServiceLang.Proofs.Parse.Position
import ServiceLang.Proofs.Parse.Split
import ServiceLang.Proofs.Region.Front

/-!
Regions as boundaries between statements.

A source falls apart at a region (`Parts`) if the texts in front of it and behind it are accepted by
themselves and the statements are those in front, the declaration of the region and those behind,
with the endpoints behind all others.  The scanner always works so (`Region.cut_split`), and so do
regions and merging, but the main grammar does not: a region is blanked out of the main text, and an
optional tail of a statement in front may be found behind it, as `var x` takes its value from there
(`statement_continues`).  So a source falls apart if and only if its main text does
(`parse_parts_iff`), and for the text behind it is enough that the first statement there begins at
the first token (`MainGrammar.exists_parse_behind`).
-/

namespace ServiceLang

open Peg Region

theorem mapM_append_eq_ok {ε α β : Type} {f : α → Except ε β} {xs ys : List α} {zs : List β}
    (h : (xs ++ ys).mapM f = .ok zs) :
    ∃ as bs, zs = as ++ bs ∧ xs.mapM f = .ok as ∧ ys.mapM f = .ok bs := by
  rw [List.mapM_append] at h
  cases hx : xs.mapM f with
  | error e => rw [hx] at h; cases h
  | ok as =>
    cases hy : ys.mapM f with
    | error e => rw [hx, hy] at h; cases h
    | ok bs =>
      rw [hx, hy] at h
      cases h
      exact ⟨as, bs, rfl, rfl, rfl⟩

namespace Stmt

/-- The statement declares a variable of this name, and the test takes its position and value. -/
def declaresVariable (s : Stmt) (name : String) (test : Position → Option Expr → Bool) : Bool :=
  match s with
  | .varDecl pos n value => n = name && test pos value
  | _ => false

theorem exists_of_declaresVariable {s : Stmt} {name : String} {test : Position → Option Expr → Bool}
    (h : s.declaresVariable name test = true) :
    ∃ pos value, s = .varDecl pos name value ∧ test pos value = true := by
  unfold declaresVariable at h
  split at h
  · next pos n value =>
    obtain ⟨hname, htest⟩ := Bool.and_eq_true_iff.1 h
    exact ⟨pos, value, by rw [of_decide_eq_true hname], htest⟩
  · cases h

end Stmt

namespace Source

/-! ## Positions -/

/-- Where a position in the text `v` stands in the source with `u` in front. -/
def behind (filename : String) (u v : List Char) (p : Position) : Position :=
  (Source.mk filename (u ++ v)).position (ServiceLang.byteLength u + p.offset)

/-- Where a position stands in the text `u` alone. -/
def within (filename : String) (u : List Char) (p : Position) : Position :=
  (Source.mk filename u).position p.offset

section

variable (filename : String) (u v : List Char) (offset : Nat)

/-- The position of an offset goes to that of the offset further on. -/
theorem behind_position : behind filename u v ((Source.mk filename v).position offset) =
    (Source.mk filename (u ++ v)).position (ServiceLang.byteLength u + offset) := by
  unfold behind
  by_cases h : offset ≤ (Source.mk filename v).byteLength
  · rw [offset_position _ _ h]
  · have hlen : (Source.mk filename (u ++ v)).byteLength =
        ServiceLang.byteLength u + (Source.mk filename v).byteLength := byteLength_append u v
    rw [position_of_byteLength_le _ (by omega : (Source.mk filename v).byteLength ≤ offset),
      offset_position _ _ (Nat.le_refl _),
      position_of_byteLength_le _ (by omega : _ ≤ ServiceLang.byteLength u + offset), hlen]

/-- The position of an offset goes to that of the same offset. -/
theorem within_position : within filename u ((Source.mk filename (u ++ v)).position offset) =
    (Source.mk filename u).position offset := by
  unfold within
  have hlen : (Source.mk filename (u ++ v)).byteLength =
      (Source.mk filename u).byteLength + ServiceLang.byteLength v := byteLength_append u v
  by_cases h : offset ≤ (Source.mk filename (u ++ v)).byteLength
  · rw [offset_position _ _ h]
  · rw [position_of_byteLength_le _ (by omega : (Source.mk filename (u ++ v)).byteLength ≤ offset),
      offset_position _ _ (Nat.le_refl _), position_of_byteLength_le _
        (by omega : (Source.mk filename u).byteLength ≤ (Source.mk filename (u ++ v)).byteLength),
      position_of_byteLength_le _ (by omega : (Source.mk filename u).byteLength ≤ offset)]

end

/-! ## Parts of a source -/

theorem parse_of_parts {s : Source} {c : Cut} {main declared : List Stmt} (hc : cut s.text = .ok c)
    (hm : s.parseMain c.main = .ok main) (hdeclared : c.regions.mapM s.parseRegion = .ok declared) :
    s.parse = .ok ⟨s.position 0, mergeStatements main declared⟩ := by
  unfold parse
  rw [hc]
  dsimp only
  rw [hm]
  dsimp only
  rw [hdeclared]

/-- Main statements stand where their nodes do. -/
theorem map_offset_of_parseMain {s : Source} {c : Cut} {main : List Stmt}
    {trees : List (ParseTree MainGrammar.Rule)} (hc : cut s.text = .ok c)
    (hm : s.parseMain c.main = .ok main)
    (ht : MainGrammar.grammar.parse .program c.main = .ok trees) :
    main.map (·.pos.offset) = (MainGrammar.statementNodes trees).map ParseTree.offset := by
  have hlen : ServiceLang.byteLength c.main ≤ s.byteLength := by
    rw [(cut_eq_ok hc).2, byteLength_overwrite]
    exact Nat.le_refl _
  obtain ⟨trees', ht', hl⟩ := parsePart_eq_ok hm
  obtain rfl := Except.ok.inj (ht.symm.trans ht')
  obtain ⟨-, hstart⟩ := MainGrammar.pairwise_statementNodes ht
  have hlowered := forall₂_of_mapM (f := MainGrammar.lowerStmt _) hl
  have hoffsets : List.Forall₂ (fun (y : Stmt) (t : ParseTree MainGrammar.Rule) => y.pos.offset = t.offset)
      main (MainGrammar.statementNodes trees) := by
    refine ((List.forall₂_and_left _ _).2 ⟨hstart, hlowered⟩).flip.imp ?_
    rintro y t ⟨⟨e, -, -, hreach, ho, -⟩, hy⟩
    obtain ⟨pre, hpre, hoffset⟩ := hreach.exists_before
    rw [hpre, byteLength_append] at hlen
    rw [(MainGrammar.standsAt_of_lowerStmt hy).1, s.offset_position _ (by omega), Nat.zero_add]
  rw [← List.forall₂_eq_eq_eq, List.forall₂_map_left_iff, List.forall₂_map_right_iff]
  exact hoffsets

/-! ## Offsets -/

variable {a d b : List Char} {filename : String} {c : Cut} {kind : Region.Kind} {p : Program}

/-- No statement of a program stands behind the end of the source. -/
theorem offset_le_of_parse {s : Source} {x : Stmt} (h : s.parse = .ok p) (hx : x ∈ p.statements) :
    x.pos.offset ≤ s.byteLength := by
  obtain ⟨base, text, -, e, -, hstands⟩ := exists_behind_of_parse h hx
  have hpos : x.pos = s.position (base + e.offset) := hstands.beginsAt.pos_eq
  rw [hpos]
  exact s.offset_position_le _

theorem offset_relocate_behind {u v : List Char} {x : Stmt} (hp : (Source.mk filename v).parse = .ok p)
    (hx : x ∈ p.statements) :
    (x.relocate (behind filename u v)).pos.offset = ServiceLang.byteLength u + x.pos.offset := by
  have hle := offset_le_of_parse hp hx
  have hlen : (Source.mk filename (u ++ v)).byteLength =
      ServiceLang.byteLength u + (Source.mk filename v).byteLength := byteLength_append u v
  rw [Stmt.pos_relocate]
  exact (Source.mk filename (u ++ v)).offset_position _ (by omega)

theorem offset_relocate_within {u : List Char} {x : Stmt} (hx : x.pos.offset ≤ ServiceLang.byteLength u) :
    (x.relocate (within filename u)).pos.offset = x.pos.offset := by
  rw [Stmt.pos_relocate]
  exact (Source.mk filename u).offset_position _ hx

/-- If all offsets grow alike, merging comes before moving. -/
theorem mergeStatements_moved {f : Position → Position} {n : Nat} {main declared : List Stmt}
    (h : ∀ y ∈ main ++ declared, (y.relocate f).pos.offset = n + y.pos.offset) :
    mergeStatements (main.map (Stmt.relocate f)) (declared.map (Stmt.relocate f)) =
      (mergeStatements main declared).map (Stmt.relocate f) := by
  refine mergeStatements_relocate fun y hy z hz => ?_
  have hy := h y hy
  have hz := h z hz
  rw [Stmt.pos_relocate] at hy hz
  omega

/-- Statements in strict order are determined by which they are. -/
theorem eq_of_mem_iff {xs ys : List Stmt} (hx : xs.Pairwise fun a b => a.pos.offset < b.pos.offset)
    (hy : ys.Pairwise fun a b => a.pos.offset < b.pos.offset) (h : ∀ z, z ∈ xs ↔ z ∈ ys) : xs = ys := by
  have nodup {zs : List Stmt} (hz : zs.Pairwise fun a b => a.pos.offset < b.pos.offset) : zs.Nodup := by
    refine List.Pairwise.imp (fun hlt => ?_) hz
    rintro rfl
    exact Nat.lt_irrefl _ hlt
  exact List.Perm.eq_of_pairwise (fun a b _ _ hab hba => absurd hab (Nat.lt_asymm hba)) hx hy
    ((List.perm_ext_iff_of_nodup (nodup hx) (nodup hy)).2 h)

/-! ## Sources that fall apart -/

/-- A program with the region `d` in it is put together from the statements of the text in front of
`d`, the declaration in `d`, and the statements of the text behind it. -/
structure Parts (filename : String) (a d b : List Char) (kind : Region.Kind) (p p₁ p₂ : Program)
    (front : List Stmt) (x : Stmt) : Prop where
  front_parsed : (Source.mk filename a).parse = .ok p₁
  region_parsed : (Source.mk filename (a ++ d ++ b)).parseRegion
    ⟨kind, ServiceLang.byteLength a, ServiceLang.byteLength (a ++ d)⟩ = .ok x
  behind_parsed : (Source.mk filename b).parse = .ok p₂
  front_eq : p₁.statements = front.map (Stmt.relocate (within filename a))
  in_front : ∀ y ∈ front, y.pos.offset < ServiceLang.byteLength a
  statements_eq : p.statements =
    endpointsLast (front ++ x :: p₂.statements.map (Stmt.relocate (behind filename (a ++ d) b)))

/-- No main statement takes text from the other side of the region `d`: by itself, the main
text in front of `d` leaves the statements that it leaves there, and the first statement behind
`d` begins at the first token there. -/
structure MainSplits (filename : String) (a d : List Char) (c : Cut) (main : List Stmt)
    (trees : List (ParseTree MainGrammar.Rule)) : Prop where
  parseMain_front : (Source.mk filename a).parseMain (takeBytes (ServiceLang.byteLength a) c.main) =
    .ok ((main.filter (·.pos.offset < ServiceLang.byteLength a)).map (Stmt.relocate (within filename a)))
  beginsBehind : MainGrammar.BeginsBehind
    ⟨ServiceLang.byteLength (a ++ d), dropBytes (ServiceLang.byteLength (a ++ d)) c.main⟩ trees

section

variable {main declared : List Stmt} {c₁ c₂ : Cut} {trees : List (ParseTree MainGrammar.Rule)}
  (hsplits : c.Splits a d kind c₁ c₂)

include hsplits

/-! ## From main texts to programs -/

/-- The main text behind a region by itself leaves the statements that it leaves there. -/
theorem exists_parseMain_behind
    (hm : (Source.mk filename (a ++ d ++ b)).parseMain c.main = .ok main)
    (ht : MainGrammar.grammar.parse .program c.main = .ok trees)
    (hbegins : MainGrammar.BeginsBehind ⟨ServiceLang.byteLength (a ++ d), c₂.main⟩ trees) :
    ∃ first rest, (Source.mk filename b).parseMain c₂.main = .ok rest ∧
      (∀ y ∈ first, y.pos.offset < ServiceLang.byteLength (a ++ d)) ∧
      main = first ++ rest.map (Stmt.relocate (behind filename (a ++ d) b)) := by
  obtain ⟨trees₁, ht₁, hl⟩ := parsePart_eq_ok hm
  obtain rfl := Except.ok.inj (ht.symm.trans ht₁)
  obtain ⟨pre, hpre, hmain⟩ := hsplits.main_split
  rw [hmain] at ht
  rw [← hpre] at hbegins
  obtain ⟨trees', nodes, nodes', ht', hnodes, hfront, -, hall⟩ :=
    MainGrammar.exists_parse_behind ht hbegins
  rw [hpre] at hfront hall
  have hl : (MainGrammar.statementNodes trees).mapM (MainGrammar.lowerStmt fun offset =>
      (Source.mk filename (a ++ d ++ b)).position (0 + offset)) = .ok main := hl
  rw [hnodes] at hl
  obtain ⟨first, last, rfl, hfirst, hlast⟩ := mapM_append_eq_ok hl
  have hcarries : Carries (List.map (Stmt.relocate (behind filename (a ++ d) b)))
      (fun ss => ∀ x ∈ ss, x.same x = true)
      ((MainGrammar.statementNodes trees').mapM (MainGrammar.lowerStmt fun offset =>
        (Source.mk filename b).position (0 + offset)))
      (nodes'.mapM (MainGrammar.lowerStmt fun offset =>
        (Source.mk filename (a ++ d ++ b)).position (0 + offset))) := by
    refine .mapM (hall.imp fun t t' h => MainGrammar.lowerStmt_carries
      (MainGrammar.alike_of_shifted h fun offset => ?_))
    rw [Nat.zero_add, Nat.zero_add, behind_position, Nat.add_comm]
  rw [hlast] at hcarries
  obtain ⟨rest, hrest, rfl⟩ := hcarries.exists_of_ok
  refine ⟨first, rest, ?_, fun y hy => ?_, rfl⟩
  · unfold parseMain parsePart
    rw [ht']
    dsimp only
    rw [show MainGrammar.lowerProgram (fun offset => (Source.mk filename b).position (0 + offset)) trees' =
      .ok rest from hrest]
  · obtain ⟨t, ht, hy⟩ := exists_partner (forall₂_of_mapM hfirst) hy
    rw [(MainGrammar.standsAt_of_lowerStmt hy).1]
    exact Nat.lt_of_le_of_lt (offset_position_le_self _ _) (by simpa using hfront t ht)

/-- The regions on both sides by themselves declare what they declare in the whole. -/
theorem exists_declared (hc₁ : cut a = .ok c₁)
    (h : c.regions.mapM (Source.mk filename (a ++ d ++ b)).parseRegion = .ok declared) :
    ∃ first x rest, c₁.regions.mapM (Source.mk filename (a ++ d ++ b)).parseRegion = .ok first ∧
      c₁.regions.mapM (Source.mk filename a).parseRegion =
        .ok (first.map (Stmt.relocate (within filename a))) ∧
      (Source.mk filename (a ++ d ++ b)).parseRegion
        ⟨kind, ServiceLang.byteLength a, ServiceLang.byteLength (a ++ d)⟩ = .ok x ∧
      c₂.regions.mapM (Source.mk filename b).parseRegion = .ok rest ∧
      declared = first ++ x :: rest.map (Stmt.relocate (behind filename (a ++ d) b)) := by
  rw [hsplits.regions_eq, ← List.singleton_append] at h
  obtain ⟨first, others, rfl, hfirst, hothers⟩ := mapM_append_eq_ok h
  obtain ⟨own, last, rfl, hown, hlast⟩ := mapM_append_eq_ok hothers
  obtain ⟨x, none, hx, hnone, rfl⟩ := List.forall₂_cons_left_iff.1 (forall₂_of_mapM hown)
  obtain rfl := List.forall₂_nil_left_iff.1 hnone
  have hfront : Carries (List.map (Stmt.relocate (within filename a))) (fun ss => ∀ x ∈ ss, x.same x = true)
      (c₁.regions.mapM (Source.mk filename (a ++ d ++ b)).parseRegion)
      (c₁.regions.mapM (Source.mk filename a).parseRegion) := by
    refine .mapM (List.forall₂_same.2 fun r hr => parseRegion_carries rfl ?_ fun offset => ?_)
    · obtain ⟨u, inside, v, rfl, hstart, hstop, -⟩ := (find_sound a c₁.regions (cut_eq_ok hc₁).1).1 r hr
      rw [text_append hstart hstop]
      dsimp only
      rw [List.append_assoc _ d b, List.append_assoc (u ++ inside), text_append hstart hstop]
    · rw [List.append_assoc, within_position]
  have hbehind : Carries (List.map (Stmt.relocate (behind filename (a ++ d) b)))
      (fun ss => ∀ x ∈ ss, x.same x = true) (c₂.regions.mapM (Source.mk filename b).parseRegion)
      ((c₂.regions.map (Region.shift (ServiceLang.byteLength (a ++ d)))).mapM
        (Source.mk filename (a ++ d ++ b)).parseRegion) := by
    refine .mapM (List.forall₂_map_right_iff.2 (List.forall₂_same.2 fun r _ => ?_))
    refine parseRegion_carries rfl (Region.text_shift r (a ++ d) b) fun offset => ?_
    rw [behind_position]
    simp only [Region.shift]
    congr 1
    omega
  rw [hfirst] at hfront
  rw [hlast] at hbehind
  obtain ⟨rest, hrest, rfl⟩ := hbehind.exists_of_ok
  exact ⟨first, x, rest, hfirst, hfront.eq_of_ok, hx, hrest, rfl⟩

/-- What regions in front declare stands in front. -/
theorem offset_lt_of_declared {first : List Stmt} (hc : cut (a ++ d ++ b) = .ok c)
    (hfirst : c₁.regions.mapM (Source.mk filename (a ++ d ++ b)).parseRegion = .ok first) :
    ∀ y ∈ first, y.pos.offset < ServiceLang.byteLength a := by
  intro y hy
  obtain ⟨placed, ordered⟩ := placed_of_find (cut_eq_ok hc).1
  obtain ⟨r, hr, hy⟩ := exists_partner (forall₂_of_mapM hfirst) hy
  have hmem : r ∈ c.regions := hsplits.regions_eq ▸ List.mem_append_left _ hr
  rw [hsplits.regions_eq] at ordered
  have hle := ((List.pairwise_append.1 ordered).2.2 r hr _ List.mem_cons_self).2
  exact Nat.lt_of_lt_of_le (loweredFrom_of_parseRegion (placed r hmem) hy).lt_stop hle

/-- What does not stand in the region, but in front of its end, stands in front. -/
theorem lt_of_not_isCovered {offset : Nat} (h : isCovered c.regions offset = false)
    (hlt : offset < ServiceLang.byteLength (a ++ d)) : offset < ServiceLang.byteLength a := by
  have hcovered := List.any_eq_false.1 h _ hsplits.mem
  simp only [covers, Bool.and_eq_true, decide_eq_true_eq] at hcovered
  omega

theorem offset_of_region {x : Stmt} (hc : cut (a ++ d ++ b) = .ok c)
    (hx : (Source.mk filename (a ++ d ++ b)).parseRegion
      ⟨kind, ServiceLang.byteLength a, ServiceLang.byteLength (a ++ d)⟩ = .ok x) :
    ServiceLang.byteLength a ≤ x.pos.offset ∧ x.pos.offset < ServiceLang.byteLength (a ++ d) := by
  have hlow := loweredFrom_of_parseRegion ((placed_of_find (cut_eq_ok hc).1).1 _ hsplits.mem) hx
  exact ⟨hlow.start_le, hlow.lt_stop⟩

theorem takeBytes_main : takeBytes (ServiceLang.byteLength a) c.main = c₁.main := by
  rw [hsplits.main_eq, ← hsplits.byteLength_front, List.append_assoc, takeBytes_append]

theorem dropBytes_main : dropBytes (ServiceLang.byteLength (a ++ d)) c.main = c₂.main := by
  obtain ⟨pre, hpre, hmain⟩ := hsplits.main_split
  rw [hmain, ← hpre, dropBytes_append]

/-- If the main text splits at the region, the program falls apart there. -/
theorem exists_parts (hc : cut (a ++ d ++ b) = .ok c) (hc₁ : cut a = .ok c₁) (hc₂ : cut b = .ok c₂)
    (hp : (Source.mk filename (a ++ d ++ b)).parse = .ok p)
    (hm : (Source.mk filename (a ++ d ++ b)).parseMain c.main = .ok main)
    (ht : MainGrammar.grammar.parse .program c.main = .ok trees)
    (h : MainSplits filename a d c main trees) :
    ∃ p₁ p₂ front x, Parts filename a d b kind p p₁ p₂ front x := by
  let f := behind filename (a ++ d) b
  let g := within filename a
  obtain ⟨hfront, hbegins⟩ := h
  rw [takeBytes_main hsplits] at hfront
  rw [dropBytes_main hsplits] at hbegins
  obtain ⟨c', main', declared, hcut', hm', hdeclared, rfl⟩ := parse_eq_ok hp
  obtain rfl := Except.ok.inj (hc.symm.trans hcut')
  obtain rfl := Except.ok.inj (hm.symm.trans hm')
  have hne := pairwise_ne_of_parsed hc hm hdeclared
  obtain ⟨houtside, -⟩ := isCovered_of_parsed hc hm hdeclared
  have hplain : ∀ y ∈ main, isEndpoint y = false := fun y hy =>
    ((parseMain_sound ((cut_eq_ok hc).2 ▸ hm)).2 y hy).2
  obtain ⟨first, rest, hm₂, hfirst, rfl⟩ := exists_parseMain_behind hsplits hm ht hbegins
  obtain ⟨first', x, rest', hdeclared₁, hdeclared₁', hx, hdeclared₂, rfl⟩ :=
    exists_declared hsplits hc₁ hdeclared
  have hp₂ := parse_of_parts (s := ⟨filename, b⟩) hc₂ hm₂ hdeclared₂
  obtain ⟨hstart, hstop⟩ := offset_of_region hsplits hc hx
  have hin : ∀ y ∈ first, y.pos.offset < ServiceLang.byteLength a := fun y hy =>
    lt_of_not_isCovered hsplits (houtside y (List.mem_append_left _ hy)) (hfirst y hy)
  have hin' : ∀ y ∈ first ++ first', y.pos.offset < ServiceLang.byteLength a := fun y hy =>
    (List.mem_append.1 hy).elim (hin y) (offset_lt_of_declared hsplits hc hdeclared₁ y)
  have hmoved : ∀ y ∈ rest ++ rest', (y.relocate f).pos.offset =
      ServiceLang.byteLength (a ++ d) + y.pos.offset := fun y hy =>
    offset_relocate_behind hp₂ ((mergeStatements_perm rest rest').mem_iff.2 hy)
  have hbehind : ∀ y ∈ rest.map (Stmt.relocate f) ++ rest'.map (Stmt.relocate f),
      ServiceLang.byteLength (a ++ d) ≤ y.pos.offset := by
    intro y hy
    rw [← List.map_append] at hy
    obtain ⟨z, hz, rfl⟩ := List.mem_map.1 hy
    rw [hmoved z hz]
    omega
  have hfilter : (first ++ rest.map (Stmt.relocate f)).filter (·.pos.offset < ServiceLang.byteLength a) =
      first := by
    rw [List.filter_append, List.filter_eq_self.2 fun y hy => decide_eq_true (hin y hy),
      List.filter_eq_nil_iff.2 fun y hy => ?_, List.append_nil]
    have := hbehind y (List.mem_append_left _ hy)
    simp
    omega
  rw [hfilter] at hfront
  have hp₁ := parse_of_parts (s := ⟨filename, a⟩) hc₁ hfront hdeclared₁'
  refine ⟨_, _, mergeStatements first first', x, hp₁, hx, hp₂, ?_, fun y hy => ?_, ?_⟩
  · refine mergeStatements_moved (n := 0) fun y hy => ?_
    rw [offset_relocate_within (Nat.le_of_lt (hin' y hy)), Nat.zero_add]
  · exact hin' y ((mergeStatements_perm first first').mem_iff.1 hy)
  · rw [← mergeStatements_moved hmoved]
    refine mergeStatements_append hplain hne (fun y hy => ?_) fun y hy => ?_
    · exact Nat.lt_of_lt_of_le (hin' y hy) hstart
    · exact Nat.lt_of_lt_of_le hstop (hbehind y hy)

/-! ## From programs to main texts -/

/-- If the program falls apart, the main text in front leaves by itself what it leaves there. -/
theorem parseMain_front_of_parts {p₁ p₂ : Program} {front : List Stmt} {x : Stmt}
    (hc : cut (a ++ d ++ b) = .ok c) (hc₁ : cut a = .ok c₁)
    (hp : (Source.mk filename (a ++ d ++ b)).parse = .ok p)
    (hm : (Source.mk filename (a ++ d ++ b)).parseMain c.main = .ok main)
    (h : Parts filename a d b kind p p₁ p₂ front x) :
    (Source.mk filename a).parseMain c₁.main = .ok
      ((main.filter (·.pos.offset < ServiceLang.byteLength a)).map (Stmt.relocate (within filename a))) := by
  obtain ⟨c', main', declared, hcut', hm', hdeclared, rfl⟩ := parse_eq_ok hp
  obtain rfl := Except.ok.inj (hc.symm.trans hcut')
  obtain rfl := Except.ok.inj (hm.symm.trans hm')
  obtain ⟨hfront_parsed, hx, hp₂, hfront, hin, hstatements⟩ := h
  obtain ⟨c₁', main₁, declared₁, hcut₁', hm₁, hdeclared₁, rfl⟩ := parse_eq_ok hfront_parsed
  obtain rfl := Except.ok.inj (hc₁.symm.trans hcut₁')
  obtain ⟨houtside, hinside⟩ := isCovered_of_parsed hc hm hdeclared
  obtain ⟨houtside₁, hinside₁⟩ := isCovered_of_parsed hc₁ hm₁ hdeclared₁
  have hmem := mem_append_iff hstatements
  have hmem₁ (z : Stmt) : z ∈ main₁ ++ declared₁ ↔ z ∈ front.map (Stmt.relocate (within filename a)) :=
    (mergeStatements_perm main₁ declared₁).mem_iff.symm.trans (by rw [← hfront])
  have hcovered {y : Stmt} (hy : y.pos.offset < ServiceLang.byteLength a) :
      isCovered c₁.regions (y.relocate (within filename a)).pos.offset = isCovered c.regions y.pos.offset := by
    rw [offset_relocate_within (Nat.le_of_lt hy), hsplits.isCovered_front hc hy]
  rw [hm₁]
  refine congrArg Except.ok (eq_of_mem_iff (parseMain_sound ((cut_eq_ok hc₁).2 ▸ hm₁)).1 ?_ fun z => ?_)
  · refine List.pairwise_map.2 (((parseMain_sound ((cut_eq_ok hc).2 ▸ hm)).1.filter _).imp_of_mem ?_)
    intro y z hy hz hlt
    have hy := of_decide_eq_true (List.mem_filter.1 hy).2
    have hz := of_decide_eq_true (List.mem_filter.1 hz).2
    rwa [offset_relocate_within (Nat.le_of_lt hy), offset_relocate_within (Nat.le_of_lt hz)]
  rw [List.mem_map]
  constructor
  · intro hz
    obtain ⟨y, hy, rfl⟩ := List.mem_map.1 ((hmem₁ z).1 (List.mem_append_left _ hz))
    rcases List.mem_append.1 ((hmem y).2 (List.mem_append_left _ hy)) with hy' | hy'
    · exact ⟨y, List.mem_filter.2 ⟨hy', decide_eq_true (hin y hy)⟩, rfl⟩
    · -- what a region declares is no main statement in front either
      have huncovered := houtside₁ _ hz
      rw [hcovered (hin y hy), hinside y hy'] at huncovered
      cases huncovered
  · rintro ⟨y, hy, rfl⟩
    obtain ⟨hy, hlt⟩ := List.mem_filter.1 hy
    have hlt := of_decide_eq_true hlt
    rcases List.mem_append.1 ((hmem y).1 (List.mem_append_left _ hy)) with hy' | hy'
    · refine (List.mem_append.1 ((hmem₁ _).2 (List.mem_map_of_mem hy'))).resolve_right fun hdeclared => ?_
      have huncovered := houtside y hy
      rw [← hcovered hlt, hinside₁ _ hdeclared] at huncovered
      cases huncovered
    rcases List.mem_cons.1 hy' with rfl | hy'
    · have := (offset_of_region hsplits hc hx).1
      omega
    · obtain ⟨z, hz, rfl⟩ := List.mem_map.1 hy'
      rw [offset_relocate_behind hp₂ hz, byteLength_append] at hlt
      omega

/-- If the program falls apart, the main statements behind the region are those of the text there. -/
theorem offset_mem_iff_of_parts {trees₂ : List (ParseTree MainGrammar.Rule)} {p₁ p₂ : Program}
    {front : List Stmt} {x : Stmt} (hc : cut (a ++ d ++ b) = .ok c) (hc₂ : cut b = .ok c₂)
    (hp : (Source.mk filename (a ++ d ++ b)).parse = .ok p)
    (h : Parts filename a d b kind p p₁ p₂ front x)
    (ht : MainGrammar.grammar.parse .program c.main = .ok trees)
    (ht₂ : MainGrammar.grammar.parse .program c₂.main = .ok trees₂) (offset : Nat) :
    ServiceLang.byteLength (a ++ d) + offset ∈ (MainGrammar.statementNodes trees).map ParseTree.offset ↔
      offset ∈ (MainGrammar.statementNodes trees₂).map ParseTree.offset := by
  obtain ⟨c', main, declared, hcut', hm, hdeclared, rfl⟩ := parse_eq_ok hp
  obtain rfl := Except.ok.inj (hc.symm.trans hcut')
  obtain ⟨-, hx, hp₂, -, hin, hstatements⟩ := h
  obtain ⟨c₂', main₂, declared₂, hcut₂', hm₂, hdeclared₂, rfl⟩ := parse_eq_ok hp₂
  obtain rfl := Except.ok.inj (hc₂.symm.trans hcut₂')
  obtain ⟨houtside, hinside⟩ := isCovered_of_parsed hc hm hdeclared
  obtain ⟨houtside₂, hinside₂⟩ := isCovered_of_parsed hc₂ hm₂ hdeclared₂
  rw [← map_offset_of_parseMain hc hm ht, ← map_offset_of_parseMain hc₂ hm₂ ht₂, List.mem_map,
    List.mem_map]
  have hmem := mem_append_iff hstatements
  have hoffset {z : Stmt} (hz : z ∈ mergeStatements main₂ declared₂) :=
    offset_relocate_behind (u := a ++ d) hp₂ hz
  constructor
  · rintro ⟨y, hy, ho⟩
    rcases List.mem_append.1 ((hmem y).1 (List.mem_append_left _ hy)) with hfront | hrest
    · have := hin y hfront
      rw [byteLength_append] at ho
      omega
    rcases List.mem_cons.1 hrest with rfl | hrest
    · have := (offset_of_region hsplits hc hx).2
      omega
    obtain ⟨z, hz, rfl⟩ := List.mem_map.1 hrest
    have ho : z.pos.offset = offset := by
      rw [hoffset hz] at ho
      omega
    rcases mem_mergeStatements hz with hz' | hz'
    · exact ⟨z, hz', ho⟩
    · have huncovered := houtside _ hy
      rw [hoffset hz, hsplits.isCovered_behind hc, hinside₂ z hz'] at huncovered
      cases huncovered
  · rintro ⟨z, hz, rfl⟩
    have hz' : z ∈ mergeStatements main₂ declared₂ :=
      (mergeStatements_perm main₂ declared₂).mem_iff.2 (List.mem_append_left _ hz)
    have hy := (hmem _).2 (List.mem_append_right _ (List.mem_cons_of_mem _ (List.mem_map_of_mem hz')))
    refine ⟨_, (List.mem_append.1 hy).resolve_right fun hy => ?_, hoffset hz'⟩
    have hcovered := hinside _ hy
    rw [hoffset hz', hsplits.isCovered_behind hc, houtside₂ z hz] at hcovered
    cases hcovered

/-- If the program falls apart, a statement begins behind the region. -/
theorem beginsBehind_of_parts {p₁ p₂ : Program} {front : List Stmt} {x : Stmt}
    (hc : cut (a ++ d ++ b) = .ok c) (hc₂ : cut b = .ok c₂)
    (hp : (Source.mk filename (a ++ d ++ b)).parse = .ok p)
    (h : Parts filename a d b kind p p₁ p₂ front x)
    (ht : MainGrammar.grammar.parse .program c.main = .ok trees) :
    MainGrammar.BeginsBehind ⟨ServiceLang.byteLength (a ++ d), c₂.main⟩ trees := by
  obtain ⟨c₂', main₂, declared₂, hcut₂', hm₂, -, -⟩ := parse_eq_ok h.behind_parsed
  obtain rfl := Except.ok.inj (hc₂.symm.trans hcut₂')
  obtain ⟨trees₂, ht₂, -⟩ := parsePart_eq_ok hm₂
  have hmem := offset_mem_iff_of_parts hsplits hc hc₂ hp h ht ht₂
  have hbehind {t : ParseTree MainGrammar.Rule}
      (hfind : (MainGrammar.statementNodes trees).find?
        (ServiceLang.byteLength (a ++ d) ≤ ·.offset) = some t) :
      ∃ u ∈ MainGrammar.statementNodes trees₂, t.offset = ServiceLang.byteLength (a ++ d) + u.offset := by
    have hle : ServiceLang.byteLength (a ++ d) ≤ t.offset := by simpa using List.find?_some hfind
    obtain ⟨k, hk⟩ := Nat.exists_eq_add_of_le hle
    have ht := List.mem_map_of_mem (f := ParseTree.offset) (List.mem_of_find?_eq_some hfind)
    rw [hk] at ht
    obtain ⟨u, hu, ho⟩ := List.mem_map.1 ((hmem k).1 ht)
    exact ⟨u, hu, by rw [hk, ho]⟩
  unfold MainGrammar.BeginsBehind
  rw [skipTrivia_behind]
  rcases MainGrammar.nil_or_cons_statementNodes ht₂ with ⟨hnil, hrest⟩ | ⟨t', ts', hcons, hstart⟩
  · refine ⟨fun t hfind => ?_, fun hne => absurd hrest hne⟩
    obtain ⟨u, hu, -⟩ := hbehind hfind
    rw [hnil] at hu
    cases hu
  · obtain ⟨u, hu, ho⟩ := List.mem_map.1 ((hmem t'.offset).2 (by rw [hcons]; simp))
    refine ⟨fun t hfind => ?_, fun _ => ⟨u, hu, by dsimp only; omega⟩⟩
    -- `t` is the first statement behind the region, and `t'` the first one of the text there
    obtain ⟨v, hv, hvo⟩ := hbehind hfind
    have hbegin : t'.offset ≤ v.offset := by
      have hpair := (MainGrammar.pairwise_statementNodes ht₂).1
      rw [hcons] at hpair hv
      rcases List.mem_cons.1 hv with rfl | hv
      · exact Nat.le_refl _
      · exact Nat.le_of_lt ((List.pairwise_cons.1 hpair).1 v hv)
    have hfirst : t.offset ≤ u.offset := by
      obtain ⟨-, us, vs, hnodes, hnone⟩ := List.find?_eq_some_iff_append.1 hfind
      have hpair := (MainGrammar.pairwise_statementNodes ht).1
      rw [hnodes] at hpair hu
      rcases List.mem_append.1 hu with hu | hu
      · have hnot : ¬ServiceLang.byteLength (a ++ d) ≤ u.offset := by
          simpa only [Bool.not_eq_true', decide_eq_false_iff_not] using hnone u hu
        omega
      · rcases List.mem_cons.1 hu with rfl | hu
        · exact Nat.le_refl _
        · exact Nat.le_of_lt ((List.pairwise_cons.1 (List.pairwise_append.1 hpair).2.1).1 u hu)
    have hplace : t'.offset = (skipTrivia (.start c₂.main)).offset := hstart ▸ t'.offset_eq
    simp only [Cursor.shift]
    omega

end

/-- A program falls apart at a region if and only if its main text splits there. -/
theorem parse_parts_iff (filename : String) {a d b : List Char} {c : Cut} {kind : Region.Kind}
    {p : Program} {main : List Stmt} {trees : List (ParseTree MainGrammar.Rule)}
    (hc : cut (a ++ d ++ b) = .ok c)
    (hr : ⟨kind, ServiceLang.byteLength a, ServiceLang.byteLength (a ++ d)⟩ ∈ c.regions)
    (hm : (Source.mk filename (a ++ d ++ b)).parseMain c.main = .ok main)
    (ht : MainGrammar.grammar.parse .program c.main = .ok trees)
    (hp : (Source.mk filename (a ++ d ++ b)).parse = .ok p) :
    MainSplits filename a d c main trees ↔
      ∃ p₁ p₂ front x, Parts filename a d b kind p p₁ p₂ front x := by
  obtain ⟨c₁, c₂, hc₁, hc₂, hsplits⟩ := cut_split hc hr
  constructor
  · exact exists_parts hsplits hc hc₁ hc₂ hp hm ht
  · rintro ⟨p₁, p₂, front, x, h⟩
    refine ⟨?_, ?_⟩
    · rw [takeBytes_main hsplits]
      exact parseMain_front_of_parts hsplits hc hc₁ hp hm h
    · rw [dropBytes_main hsplits]
      exact beginsBehind_of_parts hsplits hc hc₂ hp h ht

/-- A workflow between a variable and an assignment, and an endpoint at the end. -/
theorem parse_parts_assignment :
    let a := "var x\n".toList
    let d := "workflow w \x7b\x7d".toList
    let b := "\nx = y\nendpoint GET \"/\" \x7b\x7d".toList
    ∃ c main trees p, cut (a ++ d ++ b) = .ok c ∧
      ⟨.flow, ServiceLang.byteLength a, ServiceLang.byteLength (a ++ d)⟩ ∈ c.regions ∧
      (Source.mk "" (a ++ d ++ b)).parseMain c.main = .ok main ∧
      MainGrammar.grammar.parse .program c.main = .ok trees ∧
      (Source.mk "" (a ++ d ++ b)).parse = .ok p ∧ MainSplits "" a d c main trees ∧
      ∃ p₁ p₂ front x, Parts "" a d b .flow p p₁ p₂ front x := by
  intro a d b
  let first (pos : Position) (value : Option Expr) : Bool := pos = ⟨"", 1, 1, 0⟩ ∧ value.isNone
  have hbare {x : Stmt} (h : x.declaresVariable "x" first) : x = .varDecl ⟨"", 1, 1, 0⟩ "x" none := by
    obtain ⟨pos, value, rfl, h⟩ := Stmt.exists_of_declaresVariable h
    obtain ⟨rfl, hnone⟩ := of_decide_eq_true h
    rw [Option.isNone_iff_eq_none.1 hnone]
  obtain ⟨c, hc, hcuts⟩ := exists_ok_of_any (x := cut (a ++ d ++ b))
    (f := fun c => ⟨.flow, ServiceLang.byteLength a, ServiceLang.byteLength (a ++ d)⟩ ∈ c.regions ∧
      (MainGrammar.grammar.parse .program c.main).toOption.any (MainGrammar.BeginsBehind
        ⟨ServiceLang.byteLength (a ++ d), dropBytes (ServiceLang.byteLength (a ++ d)) c.main⟩ ·) ∧
      ((Source.mk "" (a ++ d ++ b)).parseMain c.main).toOption.any (fun main =>
        main.length = 2 ∧ main.head?.any (·.declaresVariable "x" first) ∧
          main.getLast?.any (ServiceLang.byteLength a ≤ ·.pos.offset)) ∧
      ((Source.mk "" a).parseMain (takeBytes (ServiceLang.byteLength a) c.main)).toOption.any (fun main =>
        main.length = 1 ∧ main.head?.any (·.declaresVariable "x" first))) (by decide +kernel)
  obtain ⟨p, hp⟩ := exists_ok_of_isSome (x := (Source.mk "" (a ++ d ++ b)).parse) (by decide +kernel)
  have hwithin : within "" a ⟨"", 1, 1, 0⟩ = ⟨"", 1, 1, 0⟩ := by decide +kernel
  obtain ⟨hr, hbegins, hmain, hfront⟩ := of_decide_eq_true hcuts
  obtain ⟨trees, ht, hbegins⟩ := exists_ok_of_any hbegins
  obtain ⟨main, hm, hmain⟩ := exists_ok_of_any hmain
  obtain ⟨main₁, hm₁, hfront⟩ := exists_ok_of_any hfront
  have hsplits : MainSplits "" a d c main trees := by
    refine ⟨?_, of_decide_eq_true hbegins⟩
    rw [hm₁]
    obtain ⟨hlength, hx, hy⟩ := of_decide_eq_true hmain
    obtain ⟨x, y, rfl⟩ := List.length_eq_two.1 hlength
    obtain rfl := hbare hx
    obtain ⟨hlength, hx⟩ := of_decide_eq_true hfront
    obtain ⟨x, rfl⟩ := List.length_eq_one_iff.1 hlength
    obtain rfl := hbare hx
    have hfilter : [.varDecl ⟨"", 1, 1, 0⟩ "x" none, y].filter
        (·.pos.offset < ServiceLang.byteLength a) = [.varDecl ⟨"", 1, 1, 0⟩ "x" none] := by
      rw [List.filter_cons_of_pos (by decide), List.filter_cons_of_neg (by simpa using hy),
        List.filter_nil]
    rw [hfilter, List.map_singleton, Stmt.relocate, hwithin]
    rfl
  exact ⟨c, main, trees, p, hc, hr, hm, ht, hp, hsplits,
    (parse_parts_iff "" hc hr hm ht hp).1 hsplits⟩

/-- A variable takes its value from behind a workflow, and the text there is refused by
itself. -/
theorem statement_continues :
    let s : Source := ⟨"", "var x\nworkflow w \x7b\x7d\n= 5".toList⟩
    ∃ c r p e pos value, cut s.text = .ok c ∧ r ∈ c.regions ∧ s.parse = .ok p ∧
      .varDecl pos "x" (some value) ∈ p.statements ∧ pos.offset < r.start ∧ r.stop ≤ value.pos.offset ∧
      (Source.mk "" (dropBytes r.stop s.text)).parse = .error e := by
  intro s
  have hparts : (cut s.text).toOption.any fun c => (s.parseMain c.main).toOption.any fun main =>
      c.regions.any fun r => (Source.mk "" (dropBytes r.stop s.text)).parse.toOption.isNone ∧
        main.any (·.declaresVariable "x" fun pos value => pos.offset < r.start ∧
          value.any (r.stop ≤ ·.pos.offset)) := by
    decide +kernel
  obtain ⟨p, hp⟩ := exists_ok_of_isSome (x := s.parse) (by decide +kernel)
  obtain ⟨c, main, declared, hcut, hmain, -, rfl⟩ := parse_eq_ok hp
  rw [hcut] at hparts
  dsimp only [Except.toOption, Option.any_some] at hparts
  rw [hmain] at hparts
  obtain ⟨r, hr, hparts⟩ := List.any_eq_true.1 hparts
  obtain ⟨hrefused, hx⟩ := of_decide_eq_true hparts
  obtain ⟨x, hx, htakes⟩ := List.any_eq_true.1 hx
  have hmem : x ∈ mergeStatements main declared :=
    (mergeStatements_perm main declared).mem_iff.2 (List.mem_append_left _ hx)
  cases he : (Source.mk "" (dropBytes r.stop s.text)).parse with
  | ok p' => rw [he] at hrefused; cases hrefused
  | error e =>
  obtain ⟨pos, value?, rfl, htakes⟩ := Stmt.exists_of_declaresVariable htakes
  obtain ⟨hfront, hvalue⟩ := of_decide_eq_true htakes
  obtain ⟨value, rfl, hbehind⟩ := (Option.any_eq_true ..).1 hvalue
  exact ⟨c, r, _, e, pos, value, hcut, hr, hp, hmem, hfront, of_decide_eq_true hbehind, he⟩

end Source

end ServiceLang
