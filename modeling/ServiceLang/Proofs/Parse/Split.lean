import ServiceLang.Proofs.Parse.Merge

/-!
Merging splits at a statement.

No two statements of a source stand at one offset (`pairwise_ne_of_parsed`).  So if some
stand in front of a statement and the others behind it, both parts are merged on their own, and
then the endpoints go behind all others (`mergeStatements_append`).
-/

namespace ServiceLang.Source

open Region

variable {s : Source} {c : Cut} {main main' declared declared' : List Stmt}

/-! ## Offsets of statements -/

/-- Main statements stand outside the regions, and what the regions declare stands inside. -/
theorem isCovered_of_parsed (hc : cut s.text = .ok c) (hm : s.parseMain c.main = .ok main)
    (hdeclared : c.regions.mapM s.parseRegion = .ok declared) :
    (∀ x ∈ main, isCovered c.regions x.pos.offset = false) ∧
      ∀ x ∈ declared, isCovered c.regions x.pos.offset = true := by
  obtain ⟨hfind, hover⟩ := cut_eq_ok hc
  constructor
  · exact fun x hx => ((parseMain_sound (hover ▸ hm)).2 x hx).1
  · intro x hx
    obtain ⟨r, hr, hx⟩ := exists_partner (forall₂_of_mapM hdeclared) hx
    exact isCovered_of_loweredFrom hr (loweredFrom_of_parseRegion ((placed_of_find hfind).1 r hr) hx)

theorem pairwise_ne_of_parsed (hc : cut s.text = .ok c) (hm : s.parseMain c.main = .ok main)
    (hdeclared : c.regions.mapM s.parseRegion = .ok declared) :
    (main ++ declared).Pairwise fun a b => a.pos.offset ≠ b.pos.offset := by
  obtain ⟨hfind, hover⟩ := cut_eq_ok hc
  obtain ⟨placed, ordered⟩ := placed_of_find hfind
  obtain ⟨houtside, hinside⟩ := isCovered_of_parsed hc hm hdeclared
  have hlowered : List.Forall₂ (LoweredFrom s) c.regions declared :=
    ((List.forall₂_and_left _ _).2 ⟨placed, forall₂_of_mapM hdeclared⟩).imp
      fun r x hrx => loweredFrom_of_parseRegion hrx.1 hrx.2
  refine List.pairwise_append.2 ⟨(parseMain_sound (hover ▸ hm)).1.imp Nat.ne_of_lt,
    (pairwise_of_loweredFrom hlowered ordered).imp Nat.ne_of_lt, fun a ha b hb hab => ?_⟩
  have hcovered := houtside a ha
  rw [hab, hinside b hb] at hcovered
  cases hcovered

/-! ## Merging -/

/-- The statements, with the endpoints behind all others. -/
def endpointsLast (xs : List Stmt) : List Stmt := xs.filter (!isEndpoint ·) ++ xs.filter isEndpoint

theorem mem_endpointsLast {xs : List Stmt} {y : Stmt} : y ∈ endpointsLast xs ↔ y ∈ xs := by
  unfold endpointsLast
  rw [List.mem_append, List.mem_filter, List.mem_filter]
  cases isEndpoint y <;> simp

/-- What is merged are the statements that stand there, up to the order. -/
theorem mem_append_iff {xs : List Stmt} (h : mergeStatements main declared = endpointsLast xs) (y : Stmt) :
    y ∈ main ++ declared ↔ y ∈ xs :=
  (mergeStatements_perm main declared).mem_iff.symm.trans (by rw [h, mem_endpointsLast])

/-- What is merged, apart from the endpoints, and the endpoints. -/
theorem filter_mergeStatements (hmain : ∀ y ∈ main, isEndpoint y = false) (declared : List Stmt) :
    (mergeStatements main declared).filter (!isEndpoint ·) =
        (main ++ declared.filter (!isEndpoint ·)).mergeSort (fun a b => a.pos.offset ≤ b.pos.offset) ∧
      (mergeStatements main declared).filter isEndpoint = declared.filter isEndpoint := by
  let sorted := (main ++ declared.filter (!isEndpoint ·)).mergeSort
    (fun a b => a.pos.offset ≤ b.pos.offset)
  have hothers : ∀ y ∈ sorted, isEndpoint y = false := by
    intro y hy
    rcases List.mem_append.1 (List.mem_mergeSort.1 hy) with hy | hy
    · exact hmain y hy
    · simpa using (List.mem_filter.1 hy).2
  have hself : sorted.filter (!isEndpoint ·) = sorted :=
    List.filter_eq_self.2 fun y hy => by rw [hothers y hy]; rfl
  have hnone : sorted.filter isEndpoint = [] :=
    List.filter_eq_nil_iff.2 fun y hy => by simp [hothers y hy]
  have heq : mergeStatements main declared = sorted ++ declared.filter isEndpoint := rfl
  constructor
  · rw [heq, List.filter_append, hself, List.filter_filter]
    simp [sorted]
  · rw [heq, List.filter_append, hnone, List.filter_filter]
    simp

/-- What is merged from statements at different offsets stands in order, endpoints apart. -/
theorem pairwise_filter_mergeStatements (hmain : ∀ y ∈ main, isEndpoint y = false)
    (hne : (main ++ declared).Pairwise fun a b => a.pos.offset ≠ b.pos.offset) :
    ((mergeStatements main declared).filter (!isEndpoint ·)).Pairwise
      fun a b => a.pos.offset < b.pos.offset := by
  rw [(filter_mergeStatements hmain declared).1]
  refine pairwise_lt_mergeSort (fun x : Stmt => x.pos.offset) _ (hne.sublist ?_)
  exact (List.Sublist.refl main).append List.filter_sublist

/-- Statements that stand in front of one and behind it are merged apart. -/
theorem mergeStatements_append {x : Stmt} (hmain : ∀ y ∈ main ++ main', isEndpoint y = false)
    (hne : (main ++ main' ++ (declared ++ x :: declared')).Pairwise
      fun a b => a.pos.offset ≠ b.pos.offset)
    (hfront : ∀ y ∈ main ++ declared, y.pos.offset < x.pos.offset)
    (hbehind : ∀ y ∈ main' ++ declared', x.pos.offset < y.pos.offset) :
    mergeStatements (main ++ main') (declared ++ x :: declared') =
      endpointsLast (mergeStatements main declared ++ x :: mergeStatements main' declared') := by
  have hmain₁ : ∀ y ∈ main, isEndpoint y = false := fun y hy => hmain y (List.mem_append_left _ hy)
  have hmain₂ : ∀ y ∈ main', isEndpoint y = false := fun y hy => hmain y (List.mem_append_right _ hy)
  obtain ⟨hothers, hendpoints⟩ := filter_mergeStatements hmain (declared ++ x :: declared')
  have hsplit : mergeStatements (main ++ main') (declared ++ x :: declared') =
      (mergeStatements (main ++ main') (declared ++ x :: declared')).filter (!isEndpoint ·) ++
        (mergeStatements (main ++ main') (declared ++ x :: declared')).filter isEndpoint := by
    rw [hothers, hendpoints]
    rfl
  rw [hsplit]
  unfold endpointsLast
  congr 1
  · -- both sides are in order, and they hold the same statements
    refine List.Perm.eq_of_pairwise (fun a b _ _ hab hba => absurd hab (Nat.lt_asymm hba))
      (pairwise_filter_mergeStatements hmain hne) ?_ (List.Perm.filter _ ?_)
    · have hpair₁ := pairwise_filter_mergeStatements hmain₁ (hne.sublist
        ((List.sublist_append_left main main').append (List.sublist_append_left declared _)))
      have hpair₂ := pairwise_filter_mergeStatements hmain₂ (hne.sublist
        ((List.sublist_append_right main main').append
          ((List.sublist_cons_self x declared').trans (List.sublist_append_right declared _))))
      have hfront : ∀ y ∈ mergeStatements main declared, y.pos.offset < x.pos.offset := fun y hy =>
        hfront y ((mergeStatements_perm _ _).mem_iff.1 hy)
      have hbehind : ∀ y ∈ mergeStatements main' declared', x.pos.offset < y.pos.offset := fun y hy =>
        hbehind y ((mergeStatements_perm _ _).mem_iff.1 hy)
      have hlast : ((x :: mergeStatements main' declared').filter (!isEndpoint ·)).Pairwise
          fun a b => a.pos.offset < b.pos.offset := by
        rw [List.filter_cons]
        split
        · exact List.pairwise_cons.2 ⟨fun y hy => hbehind y (List.mem_filter.1 hy).1, hpair₂⟩
        · exact hpair₂
      rw [List.filter_append]
      refine List.pairwise_append.2 ⟨hpair₁, hlast, fun y hy z hz => ?_⟩
      have hy := hfront y (List.mem_filter.1 hy).1
      rcases List.mem_cons.1 (List.mem_filter.1 hz).1 with rfl | hz
      · exact hy
      · exact hy.trans (hbehind z hz)
    · calc (mergeStatements (main ++ main') (declared ++ x :: declared')).Perm
            (main ++ main' ++ (declared ++ x :: declared')) := mergeStatements_perm _ _
        List.Perm _ (main ++ declared ++ x :: (main' ++ declared')) := by
            rw [List.append_assoc, List.append_assoc]
            refine List.Perm.append_left main ((List.perm_append_comm_assoc _ _ _).trans ?_)
            exact List.Perm.append_left declared List.perm_middle
        List.Perm _ (mergeStatements main declared ++ x :: mergeStatements main' declared') :=
            (mergeStatements_perm main declared).symm.append
              (((mergeStatements_perm main' declared').symm).cons x)
  · rw [hendpoints, List.filter_append, List.filter_append, List.filter_cons, List.filter_cons,
      (filter_mergeStatements hmain₁ declared).2, (filter_mergeStatements hmain₂ declared').2]

end ServiceLang.Source
