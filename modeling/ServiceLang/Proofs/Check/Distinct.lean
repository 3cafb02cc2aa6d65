import Mathlib.Data.List.Nodup
import ServiceLang.Check.Finding

/-!
Checks that look back for a repeated name.

A check in view of the earlier items (`eachAfter`) that refuses a taken name, whatever it
says of the item itself, finds nothing exactly if the names are distinct and each item
passes on its own.  A check may skip the rest of its work on a repeated name: that hides no
error, as the repetition is one.

In a table whose keys are distinct it does not matter that a look-up takes the first entry.
-/

namespace ServiceLang

variable {α β κ : Type}

theorem eachAfter_eq_nil_iff_nodup_from (key : α → Option κ) (P : α → Prop)
    {check : List α → α → List β}
    (h : ∀ earlier a,
      check earlier a = [] ↔ (∀ k ∈ key a, k ∉ earlier.filterMap key) ∧ P a)
    (earlier as : List α) :
    eachAfter check earlier as = [] ↔
      ((as.filterMap key).Nodup ∧ (earlier.filterMap key).Disjoint (as.filterMap key)) ∧
        ∀ a ∈ as, P a := by
  induction as generalizing earlier with
  | nil => simp [eachAfter]
  | cons a as ih =>
    rw [eachAfter, List.append_eq_nil_iff, h, ih, List.filterMap_append, List.forall_mem_cons]
    cases hk : key a with
    | none => simp [List.filterMap_cons_none hk, and_left_comm, and_assoc]
    | some k =>
      simp only [List.filterMap_cons_some hk, List.filterMap_nil, List.nodup_cons,
        List.disjoint_append_left, List.disjoint_cons_right, List.singleton_disjoint,
        Option.mem_def, Option.some.injEq, forall_eq']
      tauto

/-- Nothing is found exactly if the names, as far as items have them, are distinct and every
item passes on its own. -/
theorem eachAfter_eq_nil_iff_nodup_filterMap (key : α → Option κ) (P : α → Prop)
    {check : List α → α → List β}
    (h : ∀ earlier a,
      check earlier a = [] ↔ (∀ k ∈ key a, k ∉ earlier.filterMap key) ∧ P a)
    (as : List α) :
    eachAfter check [] as = [] ↔ (as.filterMap key).Nodup ∧ ∀ a ∈ as, P a := by
  rw [eachAfter_eq_nil_iff_nodup_from key P h]
  simp

/-- Nothing is found exactly if the names are distinct and every item passes on its own. -/
theorem eachAfter_eq_nil_iff_nodup (key : α → κ) (P : α → Prop) {check : List α → α → List β}
    (h : ∀ earlier a, check earlier a = [] ↔ key a ∉ earlier.map key ∧ P a) (as : List α) :
    eachAfter check [] as = [] ↔ (as.map key).Nodup ∧ ∀ a ∈ as, P a := by
  rw [eachAfter_eq_nil_iff_nodup_filterMap (some ∘ key) P]
  · rw [List.filterMap_eq_map]
  · intro earlier a
    simp [h]

/-- A check that looks at the name only. -/
theorem eachAfter_eq_nil_iff_nodup_map (key : α → κ) {check : List α → α → List β}
    (h : ∀ earlier a, check earlier a = [] ↔ key a ∉ earlier.map key) (as : List α) :
    eachAfter check [] as = [] ↔ (as.map key).Nodup := by
  rw [eachAfter_eq_nil_iff_nodup key (fun _ => True)]
  · exact and_iff_left fun _ _ => trivial
  · intro earlier a
    rw [h, and_true]

/-- In a table with distinct keys a key has the value that stands with it. -/
theorem mem_iff_lookup_eq_some [BEq α] [LawfulBEq α] {a : α} {b : β}
    {table : List (α × β)} (distinct : (table.map Prod.fst).Nodup) :
    (a, b) ∈ table ↔ table.lookup a = some b := by
  induction table with
  | nil => simp
  | cons entry table ih =>
    obtain ⟨k, v⟩ := entry
    obtain ⟨hk, hrest⟩ := List.nodup_cons.mp distinct
    by_cases h : a = k
    · subst h
      have hnone : (a, b) ∉ table := fun hmem => hk (List.mem_map.mpr ⟨_, hmem, rfl⟩)
      simp [hnone, eq_comm]
    · rw [List.lookup_cons, beq_false_of_ne h, ← ih hrest]
      simp [h]

end ServiceLang
