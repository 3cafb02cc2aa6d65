import ServiceLang.Proofs.Lower.RelocatedRegion
import ServiceLang.Proofs.Parse.Merge

/-!
What a region declares elsewhere.

A region is parsed from its own text.  What it declares is the declaration of its kind and
text (`declared?`), placed in the source; so regions of two sources with the same kind and
text declare the same up to positions, at the same offset in the region
(`Source.parseRegion_elsewhere`).  Two programs are compared statement by statement, and
merging keeps pairs of statements together whose offsets stand in the same order
(`Source.mergeStatements_pairs`).
-/

namespace ServiceLang

open Peg Region

/-- The statement without its positions. -/
def Stmt.unplaced (x : Stmt) : Stmt := x.relocate fun _ => .unknown

theorem Stmt.unplaced_relocate (f : Position → Position) (x : Stmt) :
    (x.relocate f).unplaced = x.unplaced := by
  unfold Stmt.unplaced
  rw [Stmt.relocate_relocate]
  rfl

/-- The position that is nothing but an offset. -/
def Position.ofOffset (offset : Nat) : Position := ⟨"", 0, 0, offset⟩

/-- What a text declares that is a region of the kind, with offsets in the text for positions. -/
def declared? (kind : Region.Kind) (text : List Char) : Option Stmt :=
  match kind with
  | .endpoint =>
    (EndpointGrammar.grammar.parse .endpointFile text).toOption.bind fun trees =>
      (EndpointGrammar.lowerRegion .ofOffset trees).toOption.map .endpoint
  | .flow =>
    (FlowGrammar.grammar.parse .workflowFile text).toOption.bind fun trees =>
      (FlowGrammar.lowerRegion .ofOffset trees).toOption

namespace Source

variable {s s' : Source} {r r' : Region} {x x' : Stmt}

theorem isEndpoint_relocate (f : Position → Position) (x : Stmt) :
    isEndpoint (x.relocate f) = isEndpoint x := by
  cases x with
  | ifStmt _ _ _ other => cases other <;> rfl
  | _ => rfl

/-- A region declares what its text declares, placed in the source. -/
theorem eq_relocate_of_parseRegion (h : s.parseRegion r = .ok x) :
    ∃ y, declared? r.kind (r.text s.text) = some y ∧
      x = y.relocate fun p => s.position (r.start + p.offset) := by
  unfold parseRegion at h
  unfold declared?
  cases hk : r.kind <;> rw [hk] at h <;> dsimp only at h ⊢
  case endpoint =>
    obtain ⟨e, he, rfl⟩ := map_eq_ok h
    obtain ⟨trees, ht, hl⟩ := parsePart_eq_ok he
    have hc : Carries (Endpoint.relocate fun p => s.position (r.start + p.offset)) (fun _ => True)
        (EndpointGrammar.lowerRegion Position.ofOffset trees)
        (EndpointGrammar.lowerRegion (fun offset => s.position (r.start + offset)) trees) :=
      EndpointGrammar.lowerRegion_carries fun _ _ _ _ _ _ _ => rfl
    rw [hl] at hc
    rw [ht]
    dsimp only [Except.toOption, Option.bind_some]
    generalize EndpointGrammar.lowerRegion Position.ofOffset trees = o at hc
    cases hc with
    | ok => exact ⟨_, rfl, rfl⟩
  case flow =>
    obtain ⟨trees, ht, hl⟩ := parsePart_eq_ok h
    have hc : Carries (Stmt.relocate fun p => s.position (r.start + p.offset))
        (fun x => x.same x = true) (FlowGrammar.lowerRegion Position.ofOffset trees)
        (FlowGrammar.lowerRegion (fun offset => s.position (r.start + offset)) trees) :=
      FlowGrammar.lowerRegion_carries fun _ _ _ _ _ _ _ => rfl
    rw [hl] at hc
    rw [ht]
    dsimp only [Except.toOption, Option.bind_some]
    generalize FlowGrammar.lowerRegion Position.ofOffset trees = o at hc
    cases hc with
    | ok => exact ⟨_, rfl, rfl⟩

/-- The statement stands in its region where its declaration stands in the text. -/
theorem offset_of_relocate (hr : Region.Placed s.text r) {y : Stmt} (h : s.parseRegion r = .ok x)
    (hx : x = y.relocate fun p => s.position (r.start + p.offset)) :
    x.pos.offset = r.start + y.pos.offset := by
  have hlow := loweredFrom_of_parseRegion hr h
  have hlt := hlow.lt_stop
  have hle := hr.stop_isBoundary.le
  have hpos : x.pos.offset = min (r.start + y.pos.offset) s.byteLength := by
    rw [hx, Stmt.pos_relocate, s.offset_position_eq_min]
  unfold byteLength at hpos
  omega

/-- Regions with the same kind and text declare the same, at the same offset in them. -/
theorem parseRegion_elsewhere (hr : Region.Placed s.text r) (hr' : Region.Placed s'.text r')
    (hkind : r'.kind = r.kind) (htext : r'.text s'.text = r.text s.text)
    (h : s.parseRegion r = .ok x) (h' : s'.parseRegion r' = .ok x') :
    x'.unplaced = x.unplaced ∧ isEndpoint x' = isEndpoint x ∧
      ∃ k, x.pos.offset = r.start + k ∧ x'.pos.offset = r'.start + k := by
  obtain ⟨y, hy, hx⟩ := eq_relocate_of_parseRegion h
  obtain ⟨y', hy', hx'⟩ := eq_relocate_of_parseRegion h'
  rw [hkind, htext, hy] at hy'
  obtain rfl := Option.some.inj hy'
  have hendpoint := (loweredFrom_of_parseRegion hr h).isEndpoint_eq
  have hendpoint' := (loweredFrom_of_parseRegion hr' h').isEndpoint_eq
  refine ⟨?_, by rw [hendpoint, hendpoint', hkind], y.pos.offset, offset_of_relocate hr h hx,
    offset_of_relocate hr' h' hx'⟩
  rw [hx, hx', Stmt.unplaced_relocate, Stmt.unplaced_relocate]

/-! ## Two programs side by side -/

/-- Merging pairs whose offsets stand in the same order. -/
theorem mergeStatements_pairs (main regions : List (Stmt × Stmt))
    (hkind : ∀ z ∈ regions, isEndpoint z.2 = isEndpoint z.1)
    (horder : ∀ z ∈ main ++ regions, ∀ w ∈ main ++ regions,
      (z.1.pos.offset ≤ w.1.pos.offset ↔ z.2.pos.offset ≤ w.2.pos.offset)) :
    ∃ merged : List (Stmt × Stmt), merged.Perm (main ++ regions) ∧
      mergeStatements (main.map Prod.fst) (regions.map Prod.fst) = merged.map Prod.fst ∧
      mergeStatements (main.map Prod.snd) (regions.map Prod.snd) = merged.map Prod.snd := by
  let flows := regions.filter fun z => !isEndpoint z.1
  let endpoints := regions.filter fun z => isEndpoint z.1
  let le (z w : Stmt × Stmt) : Bool := z.1.pos.offset ≤ w.1.pos.offset
  have hflows : (regions.map Prod.snd).filter (!isEndpoint ·) = flows.map Prod.snd := by
    rw [List.filter_map]
    exact congrArg _ (List.filter_congr fun z hz => by rw [← hkind z hz]; rfl)
  have hendpoints : (regions.map Prod.snd).filter isEndpoint = endpoints.map Prod.snd := by
    rw [List.filter_map]
    exact congrArg _ (List.filter_congr fun z hz => by rw [← hkind z hz]; rfl)
  have hmem {z : Stmt × Stmt} (hz : z ∈ main ++ flows) : z ∈ main ++ regions :=
    List.mem_append.2 ((List.mem_append.1 hz).imp_right fun h => (List.mem_filter.1 h).1)
  refine ⟨(main ++ flows).mergeSort le ++ endpoints, ?_, ?_, ?_⟩
  · -- sorting and taking the endpoints apart only permute
    have hparts : (flows ++ endpoints).Perm regions := by
      have := List.filter_append_perm (fun z : Stmt × Stmt => !isEndpoint z.1) regions
      simpa [flows, endpoints] using this
    calc ((main ++ flows).mergeSort le ++ endpoints).Perm ((main ++ flows) ++ endpoints) :=
          (List.mergeSort_perm _ _).append_right _
      _ = main ++ (flows ++ endpoints) := List.append_assoc _ _ _
      List.Perm _ (main ++ regions) := hparts.append_left _
  · unfold mergeStatements
    rw [List.filter_map, List.filter_map, ← List.map_append]
    refine (congrArg₂ (· ++ ·) ?_ rfl).trans List.map_append.symm
    refine (List.map_mergeSort fun z _ w _ => ?_).symm
    rfl
  · unfold mergeStatements
    rw [hflows, hendpoints, ← List.map_append]
    refine (congrArg₂ (· ++ ·) ?_ rfl).trans List.map_append.symm
    refine (List.map_mergeSort fun z hz w hw => ?_).symm
    exact decide_eq_decide.2 (horder z (hmem hz) w (hmem hw))

end Source

end ServiceLang
