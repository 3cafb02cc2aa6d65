import ServiceLang.Proofs.Grammar.Program
import ServiceLang.Proofs.Region.Cut

/-!
Merging main text and regions loses, duplicates and misorders nothing.

Statements of main text start at characters that are no blanks, so they stand
outside all regions; what is lowered from a region stands inside it.  Hence no two
statements stand at one offset, and sorting by offset puts them into one strict
order.  `IsMerge` says what a program is made of, and `parse_isMerge` that every
program that is parsed is made so.
-/

namespace ServiceLang.Source

open Region

/-! ## Lists side by side -/

/-- What holds between the items of one list holds between their partners. -/
theorem pairwise_of_forall₂ {α β : Type} {P : α → β → Prop} {Q : α → α → Prop} {S : β → β → Prop}
    {xs : List α} {ys : List β} (h : List.Forall₂ P xs ys) (hx : xs.Pairwise Q)
    (hs : ∀ a b x y, P a x → P b y → Q a b → S x y) : ys.Pairwise S := by
  induction h with
  | nil => exact .nil
  | @cons a x xs ys hax hrest ih =>
    obtain ⟨ha, hxs⟩ := List.pairwise_cons.1 hx
    refine List.pairwise_cons.2 ⟨?_, ih hxs⟩
    intro y hy
    obtain ⟨b, hb, hby⟩ := exists_partner hrest hy
    exact hs a b x y hax hby (ha b hb)

/-- A list without equal keys is strictly sorted by them. -/
theorem pairwise_lt_mergeSort {α : Type} (key : α → Nat) (xs : List α)
    (h : xs.Pairwise (fun a b => key a ≠ key b)) :
    (xs.mergeSort (fun a b => key a ≤ key b)).Pairwise (fun a b => key a < key b) := by
  have hle : (xs.mergeSort (fun a b => key a ≤ key b)).Pairwise
      (fun a b => decide (key a ≤ key b)) :=
    List.pairwise_mergeSort (by simp; omega) (by simp; omega) xs
  have hne : (xs.mergeSort (fun a b => key a ≤ key b)).Pairwise (fun a b => key a ≠ key b) :=
    ((List.mergeSort_perm xs _).pairwise_iff fun h => Ne.symm h).2 h
  refine (hle.and hne).imp ?_
  rintro a b ⟨h1, h2⟩
  have := of_decide_eq_true h1
  omega

/-! ## Parts of a source -/

theorem parsePart_eq_ok {R α : Type} [DecidableEq R] {s : Source} {g : Peg.Grammar R} {root : R}
    {lower : (Nat → Position) → List (Peg.ParseTree R) → Lowered α} {base : Nat} {text : List Char}
    {a : α} (h : s.parsePart g root lower base text = .ok a) :
    ∃ trees, g.parse root text = .ok trees ∧
      lower (fun offset => s.position (base + offset)) trees = .ok a := by
  unfold parsePart at h
  split at h
  · cases h
  next trees ht =>
  split at h
  · cases h
  next hl =>
  cases h
  exact ⟨trees, ht, hl⟩

theorem parse_eq_ok {s : Source} {p : Program} (h : s.parse = .ok p) :
    ∃ c main declared, Region.cut s.text = .ok c ∧ s.parseMain c.main = .ok main ∧
      c.regions.mapM s.parseRegion = .ok declared ∧
      p = ⟨s.position 0, mergeStatements main declared⟩ := by
  unfold parse at h
  split at h
  · cases h
  next mainText regions hcut =>
  split at h
  · cases h
  next main hmain =>
  split at h
  · cases h
  next declared hdeclared =>
  cases h
  exact ⟨_, main, declared, hcut, hmain, hdeclared, rfl⟩

/-- The statement is what regions of this kind declare. -/
def isOf : Kind → Stmt → Bool
  | .endpoint, .endpoint _ => true
  | .flow, .workflow _ => true
  | .flow, .job _ => true
  | _, _ => false

/-- The statement is what the region declares, and it stands inside the region. -/
structure LoweredFrom (s : Source) (r : Region) (x : Stmt) : Prop where
  parsed : s.parseRegion r = .ok x
  kind : isOf r.kind x
  start_le : r.start ≤ x.pos.offset
  lt_stop : x.pos.offset < r.stop

theorem LoweredFrom.isEndpoint_eq {s : Source} {r : Region} {x : Stmt} (h : LoweredFrom s r x) :
    isEndpoint x = decide (r.kind = .endpoint) := by
  have hk := h.kind
  unfold isOf at hk
  split at hk
  · next hr => rw [hr]; rfl
  · next hr => rw [hr]; rfl
  · next hr => rw [hr]; rfl
  · cases hk

theorem loweredFrom_of_parseRegion {s : Source} {r : Region} {x : Stmt} (hr : Region.Placed s.text r)
    (h : s.parseRegion r = .ok x) : LoweredFrom s r x := by
  have inside : ∀ offset, offset < ServiceLang.byteLength (r.text s.text) →
      r.start ≤ (s.position (r.start + offset)).offset ∧
        (s.position (r.start + offset)).offset < r.stop := by
    intro offset ho
    rw [hr.byteLength_text] at ho
    have hle := hr.stop_isBoundary.le
    rw [s.offset_position _ (by unfold Source.byteLength; omega)]
    omega
  have h2 := h
  unfold parseRegion at h2
  split at h2
  · next hk =>
    obtain ⟨e, he, rfl⟩ := map_eq_ok h2
    obtain ⟨trees, ht, hl⟩ := parsePart_eq_ok he
    obtain ⟨offset, ho, hpos⟩ := EndpointGrammar.lowerRegion_pos ht hl
    have hpos : (Stmt.endpoint e).pos = s.position (r.start + offset) := hpos
    obtain ⟨h3, h4⟩ := inside offset ho
    refine ⟨h, by rw [hk]; rfl, ?_, ?_⟩ <;> rw [hpos] <;> assumption
  · next hk =>
    obtain ⟨trees, ht, hl⟩ := parsePart_eq_ok h2
    obtain ⟨⟨offset, ho, hpos⟩, hkind⟩ := FlowGrammar.lowerRegion_pos ht hl
    obtain ⟨h3, h4⟩ := inside offset ho
    refine ⟨h, ?_, by rw [hpos]; exact h3, by rw [hpos]; exact h4⟩
    rw [hk]
    rcases hkind with ⟨f, rfl⟩ | ⟨j, rfl⟩ <;> rfl

/-- Statements of main text stand in order, none of them in a region, and none is an
endpoint. -/
theorem parseMain_sound {s : Source} {regions : List Region} {main : List Stmt}
    (h : s.parseMain (overwrite regions 0 s.text) = .ok main) :
    main.Pairwise (fun a b => a.pos.offset < b.pos.offset) ∧
      ∀ x ∈ main, isCovered regions x.pos.offset = false ∧ isEndpoint x = false := by
  obtain ⟨trees, ht, hl⟩ := parsePart_eq_ok h
  obtain ⟨hpair, hstart⟩ := MainGrammar.pairwise_statementNodes ht
  -- a statement keeps the offset of its node, and nothing covers that
  have stands : ∀ t x, MainGrammar.StartsAt (.start (overwrite regions 0 s.text)) t ∧
      MainGrammar.lowerStmt (fun offset => s.position (0 + offset)) t = .ok x →
      x.pos.offset = t.offset ∧ isCovered regions x.pos.offset = false ∧ isEndpoint x = false := by
    rintro t x ⟨⟨e, y, ys, hreach, ho, hrest, hblank⟩, hx⟩
    obtain ⟨hpos, he⟩ := MainGrammar.standsAt_of_lowerStmt hx
    obtain ⟨b, hb, hbo⟩ := hreach.exists_before
    rw [hrest] at hb
    have hle : 0 + t.offset ≤ s.byteLength := by
      have hlen := byteLength_overwrite regions 0 s.text
      rw [hb, byteLength_append] at hlen
      unfold Source.byteLength
      omega
    have hx : x.pos.offset = t.offset := by
      rw [hpos, s.offset_position _ hle, Nat.zero_add]
    refine ⟨hx, ?_, he⟩
    rw [hx, ← ho, hbo, ← Nat.zero_add (ServiceLang.byteLength b)]
    exact (exists_of_overwrite regions 0 s.text b y ys hb hblank).1
  have hlowered := forall₂_of_mapM (f := MainGrammar.lowerStmt _) hl
  have hall := (List.forall₂_and_left _ _).2 ⟨hstart, hlowered⟩
  constructor
  · refine pairwise_of_forall₂ hall hpair ?_
    intro t u x y htx huy hlt
    rw [(stands t x htx).1, (stands u y huy).1]
    exact hlt
  · intro x hx
    obtain ⟨t, -, htx⟩ := exists_partner hall hx
    exact (stands t x htx).2

/-! ## Merging -/

theorem mergeStatements_perm (main regions : List Stmt) :
    (mergeStatements main regions).Perm (main ++ regions) := by
  have hparts : (regions.filter (!isEndpoint ·) ++ regions.filter isEndpoint).Perm regions := by
    simpa using List.filter_append_perm (!isEndpoint ·) regions
  unfold mergeStatements
  calc (_ ++ regions.filter isEndpoint).Perm
        (main ++ regions.filter (!isEndpoint ·) ++ regions.filter isEndpoint) :=
        (List.mergeSort_perm _ _).append_right _
    _ = main ++ (regions.filter (!isEndpoint ·) ++ regions.filter isEndpoint) := List.append_assoc _ _ _
    List.Perm _ (main ++ regions) := hparts.append_left main

theorem mem_mergeStatements {main regions : List Stmt} {x : Stmt} (h : x ∈ mergeStatements main regions) :
    x ∈ main ∨ x ∈ regions :=
  List.mem_append.1 ((mergeStatements_perm main regions).mem_iff.1 h)

/-- How a program is put together: from the statements of the main text and those of
the regions, endpoints apart. -/
structure IsMerge (s : Source) (p : Program) (c : Cut) (main block flows endpoints : List Stmt) :
    Prop where
  cut_eq : Region.cut s.text = .ok c
  parseMain_eq : s.parseMain c.main = .ok main
  flows_lowered : List.Forall₂ (LoweredFrom s) (c.regions.filter (·.kind = .flow)) flows
  endpoints_lowered : List.Forall₂ (LoweredFrom s) (c.regions.filter (·.kind = .endpoint)) endpoints
  statements_eq : p.statements = block ++ endpoints
  perm : block.Perm (main ++ flows)
  block_apart : ∀ x ∈ block, isEndpoint x = false
  endpoints_apart : ∀ x ∈ endpoints, isEndpoint x = true
  block_ordered : block.Pairwise fun a b => a.pos.offset < b.pos.offset
  endpoints_ordered : endpoints.Pairwise fun a b => a.pos.offset < b.pos.offset

/-- What is lowered from regions stands in their order. -/
theorem pairwise_of_loweredFrom {s : Source} {regions : List Region} {xs : List Stmt}
    (h : List.Forall₂ (LoweredFrom s) regions xs)
    (hr : regions.Pairwise fun a b => a.start < b.start ∧ a.stop ≤ b.start) :
    xs.Pairwise fun a b => a.pos.offset < b.pos.offset := by
  refine pairwise_of_forall₂ h hr ?_
  rintro a b x y hx hy ⟨-, hab⟩
  have := hx.lt_stop
  have := hy.start_le
  omega

theorem isCovered_of_loweredFrom {s : Source} {regions : List Region} {r : Region} {x : Stmt}
    (hr : r ∈ regions) (h : LoweredFrom s r x) : isCovered regions x.pos.offset = true := by
  refine List.any_eq_true.2 ⟨r, hr, ?_⟩
  have h1 := h.start_le
  have h2 := h.lt_stop
  simp [covers, h1, h2]

/-- Every program that is parsed is a merge of its main text and its regions. -/
theorem parse_isMerge (s : Source) (p : Program) (h : s.parse = .ok p) :
    ∃ c main block flows endpoints, s.IsMerge p c main block flows endpoints := by
  obtain ⟨⟨mainText, regions⟩, main, declared, hcut, hmain, hdeclared, rfl⟩ := parse_eq_ok h
  obtain ⟨hfind, hover⟩ : find s.text = .ok regions ∧ mainText = overwrite regions 0 s.text :=
    cut_eq_ok hcut
  dsimp only at hmain hdeclared
  obtain ⟨placed, ordered⟩ := placed_of_find hfind
  have hall : List.Forall₂ (LoweredFrom s) regions declared :=
    ((List.forall₂_and_left _ _).2 ⟨placed, forall₂_of_mapM hdeclared⟩).imp
      fun r x hrx => loweredFrom_of_parseRegion hrx.1 hrx.2
  have hflows : List.Forall₂ (LoweredFrom s) (regions.filter (·.kind = .flow))
      (declared.filter (!isEndpoint ·)) := by
    refine List.rel_filter ?_ hall
    intro r x hrx
    have he := hrx.isEndpoint_eq
    cases hk : r.kind <;> simp [hk, he]
  have hendpoints : List.Forall₂ (LoweredFrom s) (regions.filter (·.kind = .endpoint))
      (declared.filter isEndpoint) := by
    refine List.rel_filter ?_ hall
    intro r x hrx
    have he := hrx.isEndpoint_eq
    simp [he]
  rw [hover] at hmain
  obtain ⟨hpair, hapart⟩ := parseMain_sound hmain
  have hne : (main ++ declared.filter (!isEndpoint ·)).Pairwise
      (fun a b => a.pos.offset ≠ b.pos.offset) := by
    refine List.pairwise_append.2 ⟨hpair.imp Nat.ne_of_lt, ?_, ?_⟩
    · exact (pairwise_of_loweredFrom hflows (ordered.filter _)).imp Nat.ne_of_lt
    · -- one of them stands in a region, the other does not
      intro a ha b hb hab
      obtain ⟨r, hr, hrb⟩ := exists_partner hflows hb
      have h1 := (hapart a ha).1
      rw [hab, isCovered_of_loweredFrom (List.mem_of_mem_filter hr) hrb] at h1
      cases h1
  refine ⟨_, main, _, _, _, hcut, by rw [hover]; exact hmain, hflows, hendpoints, rfl,
    List.mergeSort_perm _ _, ?_, ?_, ?_, ?_⟩
  · intro x hx
    rcases List.mem_append.1 (List.mem_mergeSort.1 hx) with hx | hx
    · exact (hapart x hx).2
    · simpa using (List.mem_filter.1 hx).2
  · intro x hx
    exact (List.mem_filter.1 hx).2
  · exact pairwise_lt_mergeSort (fun x : Stmt => x.pos.offset) _ hne
  · exact pairwise_of_loweredFrom hendpoints (ordered.filter _)

/-- A workflow and an endpoint between two statements of main text. -/
theorem parse_isMerge_interleaved :
    let s : Source := ⟨"", "a()\nendpoint GET \"/\" \x7b\x7d\nworkflow w \x7b\x7d\nreturn".toList⟩
    ∃ p, s.parse = .ok p ∧ ∃ c main block flows endpoints,
      s.IsMerge p c main block flows endpoints := by
  intro s
  obtain ⟨p, hp⟩ := exists_ok_of_isSome (x := s.parse) (by decide +kernel)
  exact ⟨p, hp, parse_isMerge s p hp⟩

end ServiceLang.Source
