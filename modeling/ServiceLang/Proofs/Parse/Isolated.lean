import ServiceLang.Proofs.Lower.RelocatedStatement
import ServiceLang.Proofs.Parse.Elsewhere
import ServiceLang.Proofs.Parse.Position
import ServiceLang.Proofs.Region.Indented
import ServiceLang.Proofs.Region.Isolated

/-!
The body of a region bears on no other statement.

Two sources differ in the body of one region.  They are cut alike around it
(`Region.resized_of_cut`), and the blanks in its place are of different lengths.  Unless a
string literal, shell text or a line comment of the main text runs over these blanks, the
main text leaves nodes that are alike, and every other region has the same text in both
sources.  So all statements but the one are the same up to positions, in the same order
(`Source.parse_of_body`).
-/

namespace ServiceLang

open Peg Region

/-- Lists whose elements are paired off. -/
theorem exists_pairs {α β : Type} {R : α → β → Prop} {xs : List α} {ys : List β}
    (h : List.Forall₂ R xs ys) :
    ∃ zs : List (α × β), zs.map Prod.fst = xs ∧ zs.map Prod.snd = ys ∧ ∀ z ∈ zs, R z.1 z.2 :=
  ⟨xs.zip ys, List.map_fst_zip h.length_eq.le, List.map_snd_zip h.length_eq.ge,
    fun _ hz => List.forall₂_zip h hz⟩

/-- What is mapped from the middle of a list stands in the middle. -/
theorem forall₂_append_cons_left {α β : Type} {R : α → β → Prop} {xs₁ xs₂ : List α} {x : α}
    {ys : List β} (h : List.Forall₂ R (xs₁ ++ x :: xs₂) ys) :
    ∃ ys₁ y ys₂, ys = ys₁ ++ y :: ys₂ ∧ List.Forall₂ R xs₁ ys₁ ∧ R x y ∧ List.Forall₂ R xs₂ ys₂ := by
  induction xs₁ generalizing ys with
  | nil =>
    obtain ⟨y, ys₂, hy, hys, rfl⟩ := List.forall₂_cons_left_iff.1 h
    exact ⟨[], y, ys₂, rfl, .nil, hy, hys⟩
  | cons a xs₁ ih =>
    obtain ⟨b, ys, hb, hys, rfl⟩ := List.forall₂_cons_left_iff.1 h
    obtain ⟨ys₁, y, ys₂, rfl, h₁, hy, h₂⟩ := ih hys
    exact ⟨b :: ys₁, y, ys₂, rfl, .cons hb h₁, hy, h₂⟩

/-- What two lists of related elements come to. -/
theorem forall₂_of_both {α β γ δ : Type} {M : α → β → Prop} {P : α → γ → Prop} {Q : β → δ → Prop}
    {as : List α} {bs : List β} {cs : List γ} {ds : List δ} (h : List.Forall₂ M as bs)
    (hP : List.Forall₂ P as cs) (hQ : List.Forall₂ Q bs ds) :
    List.Forall₂ (fun c d => ∃ a b, M a b ∧ P a c ∧ Q b d) cs ds := by
  induction h generalizing cs ds with
  | nil =>
    cases hP
    cases hQ
    exact .nil
  | cons hab _ ih =>
    cases hP with
    | cons hc hP =>
    cases hQ with
    | cons hd hQ => exact .cons ⟨_, _, hab, hc, hd⟩ (ih hP hQ)

namespace Source

/-- The statements are the same up to positions, where a text of `n` bytes at `start` has `m`
bytes in the second source and the statements stand outside of it. -/
structure SameOutside (start n m : Nat) (x x' : Stmt) : Prop where
  unplaced_eq : x'.unplaced = x.unplaced
  isEndpoint_eq : isEndpoint x' = isEndpoint x
  offset : x.pos.offset < start ∧ x'.pos.offset = x.pos.offset ∨
    start + n ≤ x.pos.offset ∧ x'.pos.offset + n = x.pos.offset + m

/-- Statements outside of the text stand in the same order in both sources. -/
theorem SameOutside.le_iff {start n m : Nat} {x x' y y' : Stmt} (hx : SameOutside start n m x x')
    (hy : SameOutside start n m y y') :
    x.pos.offset ≤ y.pos.offset ↔ x'.pos.offset ≤ y'.pos.offset := by
  have := hx.offset
  have := hy.offset
  omega

/-- A statement in the text is on the same side of those outside in both sources. -/
theorem SameOutside.le_inside_iff {start n m : Nat} {x x' y y' : Stmt} (hx : SameOutside start n m x x')
    (hy : start ≤ y.pos.offset ∧ y.pos.offset < start + n)
    (hy' : start ≤ y'.pos.offset ∧ y'.pos.offset < start + m) :
    (x.pos.offset ≤ y.pos.offset ↔ x'.pos.offset ≤ y'.pos.offset) ∧
      (y.pos.offset ≤ x.pos.offset ↔ y'.pos.offset ≤ x'.pos.offset) := by
  have := hx.offset
  omega

/-- Where an offset goes when a text of `n` bytes at `start` has `m` bytes. -/
def resize (start n m offset : Nat) : Nat := if offset ≤ start then offset else offset - n + m

variable {a b d d' front back : List Char} {filename : String} {c c' : Cut} {kind : Region.Kind}
  {before after after' : List Region}

/-- The blanks in place of two declarations. -/
theorem respaced_of_lines (hd : d ≠ []) (hd' : d' ≠ [])
    (hlines : ('\n' ∈ d ↔ '\n' ∈ d') ∨ ¬OpensLineComment front) :
    Respaced front (d.flatMap blankFor) (d'.flatMap blankFor) where
  ne_nil h := hd (eq_nil_of_byteLength_eq_zero (by rw [← byteLength_flatMap_blankFor, h]; rfl))
  ne_nil' h := hd' (eq_nil_of_byteLength_eq_zero (by rw [← byteLength_flatMap_blankFor, h]; rfl))
  blank := isBlank_of_mem_flatMap_blankFor
  blank' := isBlank_of_mem_flatMap_blankFor
  lines := by rwa [newline_mem_flatMap_blankFor_iff, newline_mem_flatMap_blankFor_iff]

/-- Twin cursors stand at offsets that go to one another. -/
theorem offset_of_twin {x y : List Char} {e e' : Cursor} (hx : x ≠ [])
    (h : Twin front x y back e e') :
    e'.offset = resize (ServiceLang.byteLength front) (ServiceLang.byteLength x)
        (ServiceLang.byteLength y) e.offset ∧
      e.offset ≤ ServiceLang.byteLength (front ++ x ++ back) := by
  have hpos : 0 < ServiceLang.byteLength x :=
    Nat.pos_of_ne_zero fun h => hx (eq_nil_of_byteLength_eq_zero h)
  unfold resize
  cases h with
  | before h =>
    subst h
    simp
  | behind h =>
    subst h
    simp only [byteLength_append]
    rw [if_neg (by omega)]
    omega

/-- An offset outside of the text goes to one outside of the text in its place. -/
theorem resize_outside {start n m offset : Nat} (hn : 0 < n) (h : offset < start ∨ start + n ≤ offset) :
    offset < start ∧ resize start n m offset = offset ∨
      start + n ≤ offset ∧ resize start n m offset + n = offset + m := by
  unfold resize
  split <;> omega

/-- Where a position goes when a text of `n` bytes at `start` has `m` bytes in the source. -/
def resized (s : Source) (start n m : Nat) (p : Position) : Position :=
  s.position (resize start n m p.offset)

/-- A position outside of the declaration goes to one outside of that in its place. -/
theorem offset_resized (hd : d ≠ []) {p : Position} (hle : p.offset ≤ ServiceLang.byteLength (a ++ d ++ b))
    (h : p.offset < ServiceLang.byteLength a ∨ ServiceLang.byteLength (a ++ d) ≤ p.offset) :
    p.offset < ServiceLang.byteLength a ∧ (resized ⟨filename, a ++ d' ++ b⟩ (ServiceLang.byteLength a)
        (ServiceLang.byteLength d) (ServiceLang.byteLength d') p).offset = p.offset ∨
      ServiceLang.byteLength a + ServiceLang.byteLength d ≤ p.offset ∧
        (resized ⟨filename, a ++ d' ++ b⟩ (ServiceLang.byteLength a) (ServiceLang.byteLength d)
          (ServiceLang.byteLength d') p).offset + ServiceLang.byteLength d =
            p.offset + ServiceLang.byteLength d' := by
  have hn : 0 < ServiceLang.byteLength d :=
    Nat.pos_of_ne_zero fun h => hd (eq_nil_of_byteLength_eq_zero h)
  rw [byteLength_append] at h
  rw [byteLength_append, byteLength_append] at hle
  have hplace := resize_outside (m := ServiceLang.byteLength d') hn h
  have hlength : (Source.mk filename (a ++ d' ++ b)).byteLength =
      ServiceLang.byteLength a + ServiceLang.byteLength d' + ServiceLang.byteLength b := by
    unfold Source.byteLength
    rw [byteLength_append, byteLength_append]
  have hoffset : (resized ⟨filename, a ++ d' ++ b⟩ (ServiceLang.byteLength a) (ServiceLang.byteLength d)
      (ServiceLang.byteLength d') p).offset =
        resize (ServiceLang.byteLength a) (ServiceLang.byteLength d) (ServiceLang.byteLength d') p.offset :=
    offset_position _ _ (by omega)
  rwa [hoffset]

/-- The main statements stand outside of the region. -/
theorem outside_of_parseMain (hrs : Resized a d d' c c' kind before after after' front back)
    (hc : cut (a ++ d ++ b) = .ok c) {main : List Stmt}
    (hm : (Source.mk filename (a ++ d ++ b)).parseMain c.main = .ok main) {x : Stmt} (hx : x ∈ main) :
    x.pos.offset ≤ ServiceLang.byteLength (a ++ d ++ b) ∧
      (x.pos.offset < ServiceLang.byteLength a ∨ ServiceLang.byteLength (a ++ d) ≤ x.pos.offset) := by
  obtain ⟨e, -, hstands⟩ := behind_of_parseMain hm hx
  have hpos : x.pos = (Source.mk filename (a ++ d ++ b)).position (0 + e.offset) := hstands.beginsAt.pos_eq
  refine ⟨hpos ▸ offset_position_le _ _, ?_⟩
  rw [(cut_eq_ok hc).2] at hm
  have hcovered := List.any_eq_false.1 ((parseMain_sound hm).2 x hx).1 ⟨kind, ServiceLang.byteLength a,
    ServiceLang.byteLength (a ++ d)⟩ (by rw [hrs.regions_eq]; simp)
  simp only [covers, Bool.and_eq_true, decide_eq_true_eq] at hcovered
  omega

section

variable (hrs : Resized a d d' c c' kind before after after' front back)
  (hc : cut (a ++ d ++ b) = .ok c) (hd : d ≠ []) (hd' : d' ≠ [])
  (hlines : ('\n' ∈ d ↔ '\n' ∈ d') ∨ ¬OpensLineComment front)
  (havoid : ∀ trees, MainGrammar.grammar.parse .program c.main = .ok trees →
    MainGrammar.LiteralsAvoid (ServiceLang.byteLength a) trees)
  {main main' : List Stmt} (hm : (Source.mk filename (a ++ d ++ b)).parseMain c.main = .ok main)
  (hm' : (Source.mk filename (a ++ d' ++ b)).parseMain c'.main = .ok main')
include hrs hc hd hd' hlines havoid hm hm'

/-- The main statements are those of the other source, with their positions moved. -/
theorem parseMain_eq_relocated :
    main' = main.map (Stmt.relocate (resized ⟨filename, a ++ d' ++ b⟩ (ServiceLang.byteLength a)
      (ServiceLang.byteLength d) (ServiceLang.byteLength d'))) := by
  let s : Source := ⟨filename, a ++ d ++ b⟩
  let s' : Source := ⟨filename, a ++ d' ++ b⟩
  let f := resized s' (ServiceLang.byteLength a) (ServiceLang.byteLength d) (ServiceLang.byteLength d')
  have hr := respaced_of_lines hd hd' hlines
  obtain ⟨trees, ht, hl⟩ := parsePart_eq_ok hm
  obtain ⟨trees', ht', hl'⟩ := parsePart_eq_ok hm'
  have havoid := havoid trees ht
  have hmain := hrs.main_eq
  rw [hrs.main_eq, List.append_assoc] at ht
  rw [hrs.main_eq', List.append_assoc] at ht'
  obtain ⟨trees₁, ht₁, htwins⟩ := MainGrammar.parse_twins hr ht
  obtain rfl : trees₁ = trees' := by
    rw [ht'] at ht₁
    exact (Except.ok.inj ht₁).symm
  -- a node of the second text is placed where `f` says
  have hplace (e e' : Cursor)
      (he : Twin front (d.flatMap blankFor) (d'.flatMap blankFor) back e e') :
      s'.position (0 + e'.offset) = f (s.position (0 + e.offset)) := by
    obtain ⟨he', hle⟩ := offset_of_twin hr.ne_nil he
    rw [← hmain, (cut_eq_ok hc).2, byteLength_overwrite] at hle
    rw [hrs.byteLength_front, byteLength_flatMap_blankFor, byteLength_flatMap_blankFor] at he'
    have hoffset : (s.position e.offset).offset = e.offset := s.offset_position _ hle
    rw [Nat.zero_add, Nat.zero_add, he']
    show _ = s'.position (resize _ _ _ (s.position e.offset).offset)
    rw [hoffset]
  rw [← hrs.byteLength_front] at havoid
  have halike : List.Forall₂ (MainGrammar.AlikeTrees f (fun offset => s.position (0 + offset))
      fun offset => s'.position (0 + offset)) trees trees₁ :=
    MainGrammar.alike_of_twins hr htwins hplace havoid
  have hcarries := MainGrammar.lowerProgram_carries
    (List.Forall₂.imp (fun t t' h => ParseTree.Related.children h) halike)
  rw [hl] at hcarries
  exact Except.ok.inj (hl'.symm.trans hcarries.eq_of_ok)

/-- The main statements are the same up to positions. -/
theorem parseMain_of_resized :
    List.Forall₂ (SameOutside (ServiceLang.byteLength a) (ServiceLang.byteLength d)
      (ServiceLang.byteLength d')) main main' := by
  obtain rfl := parseMain_eq_relocated hrs hc hd hd' hlines havoid hm hm'
  refine List.forall₂_map_right_iff.2 (List.forall₂_same.2 fun x hx => ?_)
  obtain ⟨hle, houtside⟩ := outside_of_parseMain hrs hc hm hx
  refine ⟨x.unplaced_relocate _, isEndpoint_relocate _ x, ?_⟩
  rw [Stmt.pos_relocate]
  exact offset_resized hd hle houtside

end

/-- The statements of other regions are the same up to positions. -/
theorem parseRegion_of_resized {r r' : Region} {x x' : Stmt}
    (hr : Region.Placed (a ++ d ++ b) r) (hr' : Region.Placed (a ++ d' ++ b) r')
    (hmoved : r' = r ∧ r.stop ≤ ServiceLang.byteLength a ∨
      Moved (ServiceLang.byteLength d) (ServiceLang.byteLength d') r r' ∧
        ServiceLang.byteLength (a ++ d) ≤ r.start)
    (h : (Source.mk filename (a ++ d ++ b)).parseRegion r = .ok x)
    (h' : (Source.mk filename (a ++ d' ++ b)).parseRegion r' = .ok x') :
    SameOutside (ServiceLang.byteLength a) (ServiceLang.byteLength d) (ServiceLang.byteLength d')
      x x' := by
  obtain ⟨hkind, htext⟩ : r'.kind = r.kind ∧ r'.text (a ++ d' ++ b) = r.text (a ++ d ++ b) := by
    rcases hmoved with ⟨rfl, hstop⟩ | ⟨hmoved, hstart⟩
    · rw [List.append_assoc] at hr hr'
      rw [List.append_assoc, List.append_assoc, hr'.text_append hstop, hr.text_append hstop]
      exact ⟨rfl, rfl⟩
    · refine ⟨hmoved.kind_eq, ?_⟩
      have hstart' := hmoved.start_eq
      have hstop' := hmoved.stop_eq
      have hlt := hr.nonempty
      let q : Region := ⟨r.kind, r.start - ServiceLang.byteLength (a ++ d),
        r.stop - ServiceLang.byteLength (a ++ d)⟩
      have hq : r = q.shift (ServiceLang.byteLength (a ++ d)) := by
        show r = ⟨r.kind, r.start - _ + _, r.stop - _ + _⟩
        rw [Nat.sub_add_cancel hstart, Nat.sub_add_cancel (by omega)]
      have hq' : r' = q.shift (ServiceLang.byteLength (a ++ d')) := by
        have hlength := byteLength_append a d
        have hlength' := byteLength_append a d'
        show r' = ⟨r.kind, r.start - _ + _, r.stop - _ + _⟩
        rw [← hmoved.kind_eq, show r.start - ServiceLang.byteLength (a ++ d) +
          ServiceLang.byteLength (a ++ d') = r'.start by omega, show r.stop -
          ServiceLang.byteLength (a ++ d) + ServiceLang.byteLength (a ++ d') = r'.stop by omega]
      rw [hq, hq', text_shift, text_shift]
  obtain ⟨hsame, hendpoint, k, hk, hk'⟩ := parseRegion_elsewhere hr hr' hkind htext h h'
  refine ⟨hsame, hendpoint, ?_⟩
  have hlow := loweredFrom_of_parseRegion hr h
  have hlt := hlow.lt_stop
  rcases hmoved with ⟨rfl, hstop⟩ | ⟨hmoved, hstart⟩
  · omega
  · have hstart' := hmoved.start_eq
    rw [byteLength_append] at hstart
    omega

/-- The statements of the regions side by side: that of the resized region, and the others before
and behind it. -/
theorem exists_declared_of_resized (hrs : Resized a d d' c c' kind before after after' front back)
    (hc : cut (a ++ d ++ b) = .ok c) (hc' : cut (a ++ d' ++ b) = .ok c') {declared declared' : List Stmt}
    (h : c.regions.mapM (Source.mk filename (a ++ d ++ b)).parseRegion = .ok declared)
    (h' : c'.regions.mapM (Source.mk filename (a ++ d' ++ b)).parseRegion = .ok declared') :
    ∃ (x x' : Stmt) (firsts lasts : List (Stmt × Stmt)),
      declared = (firsts ++ (x, x') :: lasts).map Prod.fst ∧
      declared' = (firsts ++ (x, x') :: lasts).map Prod.snd ∧
      LoweredFrom ⟨filename, a ++ d ++ b⟩ ⟨kind, ServiceLang.byteLength a, ServiceLang.byteLength (a ++ d)⟩ x ∧
      LoweredFrom ⟨filename, a ++ d' ++ b⟩
        ⟨kind, ServiceLang.byteLength a, ServiceLang.byteLength (a ++ d')⟩ x' ∧
      ∀ z ∈ firsts ++ lasts, SameOutside (ServiceLang.byteLength a) (ServiceLang.byteLength d)
        (ServiceLang.byteLength d') z.1 z.2 := by
  obtain ⟨placed, ordered⟩ := placed_of_find (cut_eq_ok hc).1
  obtain ⟨placed', -⟩ := placed_of_find (cut_eq_ok hc').1
  have hlowered := (List.forall₂_and_left _ _).2 ⟨placed, forall₂_of_mapM h⟩
  have hlowered' := (List.forall₂_and_left _ _).2 ⟨placed', forall₂_of_mapM h'⟩
  rw [hrs.regions_eq] at hlowered ordered
  rw [hrs.regions_eq'] at hlowered'
  obtain ⟨xs, x, ys, rfl, hxs, ⟨hplaced, hx⟩, hys⟩ := forall₂_append_cons_left hlowered
  obtain ⟨xs', x', ys', rfl, hxs', ⟨hplaced', hx'⟩, hys'⟩ := forall₂_append_cons_left hlowered'
  obtain ⟨-, hafter, hbefore⟩ := List.pairwise_append.1 ordered
  obtain ⟨hafter, -⟩ := List.pairwise_cons.1 hafter
  -- the statements before and behind the region are paired off
  obtain ⟨firsts, rfl, rfl, hfirsts⟩ := exists_pairs (forall₂_of_both
    (M := fun r r' => r' = r ∧ r.stop ≤ ServiceLang.byteLength a)
    (List.forall₂_same.2 fun r hr => ⟨rfl, (hbefore r hr _ List.mem_cons_self).2⟩) hxs hxs')
  obtain ⟨lasts, rfl, rfl, hlasts⟩ := exists_pairs (forall₂_of_both
    ((List.forall₂_and_left _ _).2 ⟨fun r hr => (hafter r hr).2, hrs.moved⟩) hys hys')
  refine ⟨x, x', firsts, lasts, ?_, ?_, loweredFrom_of_parseRegion hplaced hx,
    loweredFrom_of_parseRegion hplaced' hx', fun z hz => ?_⟩
  · rw [List.map_append, List.map_cons]
  · rw [List.map_append, List.map_cons]
  rcases List.mem_append.1 hz with hz | hz
  · obtain ⟨r, r', hr, ⟨hp, hx⟩, hp', hx'⟩ := hfirsts z hz
    exact parseRegion_of_resized hp hp' (.inl hr) hx hx'
  · obtain ⟨r, r', ⟨hstart, hr⟩, ⟨hp, hx⟩, hp', hx'⟩ := hlasts z hz
    exact parseRegion_of_resized hp hp' (.inr ⟨hr, hstart⟩) hx hx'

/-- The statements of a program that has one of its regions resized, side by side with the
statements of the other program. -/
theorem exists_merged_of_resized (hrs : Resized a d d' c c' kind before after after' front back)
    (hc : cut (a ++ d ++ b) = .ok c) (hc' : cut (a ++ d' ++ b) = .ok c') (hd : d ≠ []) (hd' : d' ≠ [])
    (hlines : ('\n' ∈ d ↔ '\n' ∈ d') ∨ ¬OpensLineComment front)
    (havoid : ∀ trees, MainGrammar.grammar.parse .program c.main = .ok trees →
      MainGrammar.LiteralsAvoid (ServiceLang.byteLength a) trees)
    {p p' : Program} (h : (Source.mk filename (a ++ d ++ b)).parse = .ok p)
    (h' : (Source.mk filename (a ++ d' ++ b)).parse = .ok p') :
    ∃ (x x' : Stmt) (merged others : List (Stmt × Stmt)),
      (Source.mk filename (a ++ d ++ b)).parseRegion
        ⟨kind, ServiceLang.byteLength a, ServiceLang.byteLength (a ++ d)⟩ = .ok x ∧
      (Source.mk filename (a ++ d' ++ b)).parseRegion
        ⟨kind, ServiceLang.byteLength a, ServiceLang.byteLength (a ++ d')⟩ = .ok x' ∧
      p.statements = merged.map Prod.fst ∧ p'.statements = merged.map Prod.snd ∧
      merged.Perm ((x, x') :: others) ∧ ∀ z ∈ others, z.2.unplaced = z.1.unplaced := by
  obtain ⟨c₁, main, declared, hcut, hm, hdeclared, rfl⟩ := parse_eq_ok h
  obtain ⟨c₁', main', declared', hcut', hm', hdeclared', rfl⟩ := parse_eq_ok h'
  obtain rfl := Except.ok.inj (hc.symm.trans hcut)
  obtain rfl := Except.ok.inj (hc'.symm.trans hcut')
  obtain ⟨mains, rfl, rfl, hmains⟩ := exists_pairs
    (parseMain_of_resized hrs hc hd hd' hlines havoid hm hm')
  obtain ⟨x, x', firsts, lasts, rfl, rfl, hlow, hlow', hregions⟩ :=
    exists_declared_of_resized hrs hc hc' hdeclared hdeclared'
  have hothers : ∀ z ∈ mains ++ (firsts ++ lasts), SameOutside (ServiceLang.byteLength a)
      (ServiceLang.byteLength d) (ServiceLang.byteLength d') z.1 z.2 := fun z hz =>
    (List.mem_append.1 hz).elim (hmains z) (hregions z)
  have hall : ∀ z ∈ mains ++ (firsts ++ (x, x') :: lasts), z = (x, x') ∨
      SameOutside (ServiceLang.byteLength a) (ServiceLang.byteLength d) (ServiceLang.byteLength d')
        z.1 z.2 := by
    intro z hz
    by_cases heq : z = (x, x')
    · exact .inl heq
    · refine .inr (hothers z ?_)
      simpa [heq] using hz
  have hkind : ∀ z ∈ firsts ++ (x, x') :: lasts, isEndpoint z.2 = isEndpoint z.1 := by
    intro z hz
    rcases hall z (List.mem_append_right _ hz) with rfl | hz
    · rw [hlow.isEndpoint_eq, hlow'.isEndpoint_eq]
    · exact hz.isEndpoint_eq
  have inside : ServiceLang.byteLength a ≤ x.pos.offset ∧
      x.pos.offset < ServiceLang.byteLength a + ServiceLang.byteLength d :=
    ⟨hlow.start_le, byteLength_append a d ▸ hlow.lt_stop⟩
  have inside' : ServiceLang.byteLength a ≤ x'.pos.offset ∧
      x'.pos.offset < ServiceLang.byteLength a + ServiceLang.byteLength d' :=
    ⟨hlow'.start_le, byteLength_append a d' ▸ hlow'.lt_stop⟩
  have horder : ∀ z ∈ mains ++ (firsts ++ (x, x') :: lasts), ∀ w ∈ mains ++ (firsts ++ (x, x') :: lasts),
      (z.1.pos.offset ≤ w.1.pos.offset ↔ z.2.pos.offset ≤ w.2.pos.offset) := by
    intro z hz w hw
    rcases hall z hz with rfl | hz <;> rcases hall w hw with rfl | hw
    · exact iff_of_true (Nat.le_refl _) (Nat.le_refl _)
    · exact (hw.le_inside_iff inside inside').2
    · exact (hz.le_inside_iff inside inside').1
    · exact hz.le_iff hw
  obtain ⟨merged, hperm, hfst, hsnd⟩ :=
    mergeStatements_pairs mains (firsts ++ (x, x') :: lasts) hkind horder
  refine ⟨x, x', merged, mains ++ (firsts ++ lasts), hlow.parsed, hlow'.parsed, hfst, hsnd, ?_,
    fun z hz => (hothers z hz).unplaced_eq⟩
  refine hperm.trans ?_
  rw [← List.append_assoc, ← List.append_assoc]
  exact List.perm_middle

/-- The body of a region is isolated.  Whatever region with the same head takes its place, the
text is cut the same around it.  If no string literal, shell text or line comment of the main
text runs over the region, all other statements are the same up to positions, in the same
order. -/
theorem parse_of_body (filename : String) {a h b body body' : List Char} {c : Cut} {r : Region}
    (hh : IsHead a h) (hc : cut (a ++ braced h body ++ b) = .ok c) (hr : r ∈ c.regions)
    (hstart : r.start = ServiceLang.byteLength a)
    (hstop : r.stop = ServiceLang.byteLength (a ++ braced h body))
    (hbody : ∃ kind, find (braced h body') =
      .ok [⟨kind, 0, ServiceLang.byteLength (braced h body')⟩]) :
    ∃ c' before after after' front back, cut (a ++ braced h body' ++ b) = .ok c' ∧
      Resized a (braced h body) (braced h body') c c' r.kind before after after' front back ∧
      (('\n' ∈ braced h body ↔ '\n' ∈ braced h body') ∨ ¬OpensLineComment front →
        (∀ trees, MainGrammar.grammar.parse .program c.main = .ok trees →
          MainGrammar.LiteralsAvoid (ServiceLang.byteLength a) trees) →
        ∀ p p', (Source.mk filename (a ++ braced h body ++ b)).parse = .ok p →
          (Source.mk filename (a ++ braced h body' ++ b)).parse = .ok p' →
          ∃ x x' xs ys xs' ys', (Source.mk filename (a ++ braced h body ++ b)).parseRegion r = .ok x ∧
            (Source.mk filename (a ++ braced h body' ++ b)).parseRegion
              ⟨r.kind, r.start, ServiceLang.byteLength (a ++ braced h body')⟩ = .ok x' ∧
            p.statements = xs ++ x :: ys ∧ p'.statements = xs' ++ x' :: ys' ∧
            xs'.map Stmt.unplaced = xs.map Stmt.unplaced ∧
            ys'.map Stmt.unplaced = ys.map Stmt.unplaced) := by
  obtain ⟨c', hc', before, after, after', front, back, hrs⟩ :=
    resized_of_cut hh hc hr hstart hstop hbody
  refine ⟨c', before, after, after', front, back, hc', hrs, ?_⟩
  intro hlines havoid p p' hp hp'
  have ne_nil (x : List Char) : braced h x ≠ [] := by simp [braced]
  obtain ⟨x, x', merged, others, hx, hx', hm, hm', hperm, hothers⟩ :=
    exists_merged_of_resized hrs hc hc' (ne_nil _) (ne_nil _) hlines havoid hp hp'
  obtain ⟨zs, ws, rfl⟩ := List.append_of_mem (hperm.mem_iff.2 List.mem_cons_self)
  have hrest : ∀ z ∈ zs ++ ws, z.2.unplaced = z.1.unplaced := fun z hz =>
    hothers z ((List.perm_middle.symm.trans hperm).cons_inv.mem_iff.1 hz)
  refine ⟨x, x', zs.map Prod.fst, ws.map Prod.fst, zs.map Prod.snd, ws.map Prod.snd, ?_, ?_, ?_, ?_,
    ?_, ?_⟩
  · rw [← hx, ← hstart, ← hstop]
  · rw [← hx', ← hstart]
  · rw [hm, List.map_append, List.map_cons]
  · rw [hm', List.map_append, List.map_cons]
  · rw [List.map_map, List.map_map]
    exact List.map_congr_left fun z hz => hrest z (List.mem_append_left _ hz)
  · rw [List.map_map, List.map_map]
    exact List.map_congr_left fun z hz => hrest z (List.mem_append_right _ hz)

/-- A body with braces in a string and more lines, before a job and the rest of the main text. -/
theorem parse_of_body_longer :
    let a := "var u = 1\n".toList
    let h := "workflow w ".toList
    let body' := " step s \x7b input \x7b k: [\"\x7d\"] \x7d \x7d \n".toList
    let b := "\njob j \x7b \x7d\nu = u + 1".toList
    ∃ p p' x x' xs ys xs' ys', (Source.mk "" (a ++ braced h [] ++ b)).parse = .ok p ∧
      (Source.mk "" (a ++ braced h body' ++ b)).parse = .ok p' ∧
      p.statements = xs ++ x :: ys ∧ p'.statements = xs' ++ x' :: ys' ∧
      xs'.map Stmt.unplaced = xs.map Stmt.unplaced ∧
      ys'.map Stmt.unplaced = ys.map Stmt.unplaced := by
  intro a h body' b
  have hh : IsHead a h := isHead_of_behind? (by decide +kernel)
  have hbody : find (braced h body') = .ok [⟨.flow, 0, ServiceLang.byteLength (braced h body')⟩] := by
    decide +kernel
  obtain ⟨c, hc, hregion⟩ := exists_ok_of_any (x := cut (a ++ braced h [] ++ b))
    (f := fun c => ⟨.flow, 10, 23⟩ ∈ c.regions ∧ '/' ∉ c.main ∧
      (MainGrammar.grammar.parse .program c.main).toOption.all (MainGrammar.LiteralsAvoid 10 ·))
    (by decide +kernel)
  obtain ⟨hr, hslash, havoid⟩ := of_decide_eq_true hregion
  obtain ⟨c', before, after, after', front, back, -, hrs, hprograms⟩ :=
    parse_of_body "" hh hc hr rfl rfl ⟨.flow, hbody⟩
  have hlines : ¬OpensLineComment front := by
    rintro ⟨p, q, hfront, -⟩
    exact hslash (by rw [hrs.main_eq, hfront]; simp)
  have havoid (trees : List (ParseTree MainGrammar.Rule))
      (ht : MainGrammar.grammar.parse .program c.main = .ok trees) :
      MainGrammar.LiteralsAvoid (ServiceLang.byteLength a) trees := by
    rw [ht] at havoid
    exact of_decide_eq_true havoid
  obtain ⟨p, hp⟩ := exists_ok_of_isSome (x := (Source.mk "" (a ++ braced h [] ++ b)).parse)
    (by decide +kernel)
  obtain ⟨p', hp'⟩ := exists_ok_of_isSome (x := (Source.mk "" (a ++ braced h body' ++ b)).parse)
    (by decide +kernel)
  obtain ⟨x, x', xs, ys, xs', ys', -, -, hsame⟩ := hprograms (.inr hlines) havoid p p' hp hp'
  exact ⟨p, p', x, x', xs, ys, xs', ys', hp, hp', hsame⟩

/-- A database named after the word that opens a shell block: the scanner reads its body as
shell text, and cuts a region out of a string in it. -/
theorem parse_ne_of_body :
    let a := "database exec \x7b model M \"\x7d ".toList
    let h := "workflow w ".toList
    let b := " \" \x7b \x7d \x7d // \"".toList
    let s (body : List Char) : Source := ⟨"", a ++ braced h body ++ b⟩
    ∃ c p p' x, IsHead a h ∧ cut (s [' ']).text = .ok c ∧
      ⟨.flow, ServiceLang.byteLength a, ServiceLang.byteLength (a ++ braced h [' '])⟩ ∈ c.regions ∧
      find (braced h []) = .ok [⟨.flow, 0, ServiceLang.byteLength (braced h [])⟩] ∧
      (s [' ']).parse = .ok p ∧ (s []).parse = .ok p' ∧
      x ∈ p.statements ∧ x.kind = .databaseBlock ∧ ∀ x' ∈ p'.statements, x'.same x = false := by
  intro a h b s
  have hh : IsHead a h := isHead_of_behind? (by decide +kernel)
  have hbody : find (braced h []) = .ok [⟨.flow, 0, ServiceLang.byteLength (braced h [])⟩] := by
    decide +kernel
  have hregion : (cut (s [' ']).text).toOption.any fun c =>
      ⟨.flow, ServiceLang.byteLength a, ServiceLang.byteLength (a ++ braced h [' '])⟩ ∈ c.regions := by
    decide +kernel
  have hstatements : (cut (s [' ']).text).toOption.any fun c => (cut (s []).text).toOption.any fun c' =>
      ((s [' ']).parseMain c.main).toOption.any fun main =>
      ((s []).parseMain c'.main).toOption.any fun main' =>
      (c'.regions.mapM (s []).parseRegion).toOption.any fun declared' =>
      main.any fun x => x.kind = .databaseBlock ∧ ∀ x' ∈ main' ++ declared', x'.same x = false := by
    decide +kernel
  obtain ⟨p, hp⟩ := exists_ok_of_isSome (x := (s [' ']).parse) (by decide +kernel)
  obtain ⟨p', hp'⟩ := exists_ok_of_isSome (x := (s []).parse) (by decide +kernel)
  obtain ⟨c, main, declared, hcut, hmain, -, rfl⟩ := parse_eq_ok hp
  obtain ⟨c', main', declared', hcut', hmain', hdeclared', rfl⟩ := parse_eq_ok hp'
  rw [hcut] at hregion
  rw [hcut, hcut'] at hstatements
  dsimp only [Except.toOption, Option.any_some] at hstatements
  rw [hmain, hmain', hdeclared'] at hstatements
  obtain ⟨x, hx, hsame⟩ := List.any_eq_true.1 hstatements
  obtain ⟨hkind, hsame⟩ := of_decide_eq_true hsame
  refine ⟨c, _, _, x, hh, hcut, of_decide_eq_true hregion, hbody, hp, hp', ?_, hkind, ?_⟩
  · unfold mergeStatements
    simp [hx]
  · exact fun x' hx' => hsame x' (List.mem_append.2 (mem_mergeStatements hx'))

end Source

end ServiceLang
