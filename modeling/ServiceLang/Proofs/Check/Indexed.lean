import Mathlib.Data.List.Forall2
import Mathlib.Data.List.Induction
import Mathlib.Data.List.Nodup
import ServiceLang.Check.Program
import ServiceLang.Proofs.Check.WellFormedEndpoint

/-!
The index of declared names, and the reports of repetitions.

The index is built and the repetitions are reported in one go over the statements.  What
the index holds when a statement is reached is the index of the statements before it
(`Program.before`), and a name leads to the first of these that declares it
(`Program.find?_declarations_iff`).  So a statement is reported just if it repeats a name,
and the report cites the first declaration (`Program.reportAt?_eq_some_iff`).  Entries and
reports of one kind are those of the program in which no other kind is declared
(`Program.declarations_only`, `Program.duplicateNames_only`).
-/

namespace ServiceLang

/-! ## Checks that look back -/

section

variable {α β γ : Type}

/-- The checks are made at one place after the other, each in view of what stands before it. -/
theorem eachAfter_filterMap_eq_flatMap (f : α → Option γ) (check : List γ → γ → List β) (as : List α) :
    eachAfter check [] (as.filterMap f) =
      (List.range as.length).flatMap fun i =>
        (as[i]?.bind f).elim [] (check ((as.take i).filterMap f)) := by
  induction as using List.reverseRecOn with
  | nil => rfl
  | append_singleton as a ih =>
    have hlast : eachAfter check (as.filterMap f) ([a].filterMap f) =
        (f a).elim [] (check (as.filterMap f)) := by
      cases h : f a <;> simp [h, eachAfter]
    rw [List.filterMap_append, eachAfter_append, List.nil_append, ih, hlast, List.length_append,
      List.length_singleton, List.range_succ, List.flatMap_append, List.flatMap_singleton,
      List.getElem?_concat_length, List.take_left]
    congr 1
    refine List.flatMap_congr fun i hi => ?_
    have hi := List.mem_range.1 hi
    rw [List.getElem?_append_left hi, List.take_append_of_le_length (Nat.le_of_lt hi)]

/-- Checks of the items of one class, in view of the items of this class. -/
theorem eachAfter_filter (check : List α → α → List β) (r : α → Bool) (q : β → Bool)
    (h : ∀ earlier a, (check earlier a).filter q = if r a then check (earlier.filter r) a else [])
    (earlier as : List α) :
    (eachAfter check earlier as).filter q = eachAfter check (earlier.filter r) (as.filter r) := by
  induction as generalizing earlier with
  | nil => rfl
  | cons a as ih =>
    rw [eachAfter, List.filter_append, h, ih, List.filter_append]
    cases hr : r a with
    | true => simp [hr, eachAfter]
    | false => simp [hr]

/-- The items that have a value, in step with their values. -/
theorem forall₂_filter_filterMap (f : α → Option β) (as : List α) :
    List.Forall₂ (fun a b => f a = some b) (as.filter fun a => (f a).isSome) (as.filterMap f) := by
  induction as with
  | nil => exact .nil
  | cons a as ih =>
    cases h : f a with
    | none => simpa [h] using ih
    | some b => simpa [h] using ih

end

/-! ## Entries -/

/-- The kind and the name of a declaration, by which others refer to it. -/
def Declared.key (d : Declared) : DeclaredKind × String := (d.kind, d.name)

namespace Declarations

def ofKind (ds : Declarations) (kind : DeclaredKind) : Declarations :=
  ⟨ds.entries.filter (·.kind == kind)⟩

/-- One more declaration is found if none of its name was there. -/
theorem find?_add (ds : Declarations) (d : Declared) (kind : DeclaredKind) (name : String) :
    (ds.add d).find? kind name =
      (ds.find? kind name).or ((Declarations.mk [d]).find? kind name) := by
  unfold add
  split
  · next h =>
    cases hfind : (Declarations.mk [d]).find? kind name with
    | none => rw [Option.or_none]
    | some e =>
      obtain ⟨rfl, rfl⟩ : d.kind = kind ∧ d.name = name := by
        simpa [find?] using congrArg Option.isSome hfind
      obtain ⟨first, hfirst⟩ := Option.isSome_iff_exists.1 h
      rw [hfirst, Option.some_or]
  · exact List.find?_append

/-- The index finds the first of the declarations that went into it. -/
theorem find?_foldl_add (declared : List Declared) (ds : Declarations) (kind : DeclaredKind)
    (name : String) :
    (declared.foldl add ds).find? kind name =
      (ds.find? kind name).or ((Declarations.mk declared).find? kind name) := by
  induction declared generalizing ds with
  | nil => exact (Option.or_none).symm
  | cons d declared ih =>
    have hsplit : (Declarations.mk ([d] ++ declared)).find? kind name =
        ((Declarations.mk [d]).find? kind name).or ((Declarations.mk declared).find? kind name) :=
      List.find?_append
    rw [List.singleton_append] at hsplit
    rw [List.foldl_cons, ih, find?_add, hsplit, Option.or_assoc]

theorem nodup_add {ds : Declarations} (h : (ds.entries.map Declared.key).Nodup) (d : Declared) :
    ((ds.add d).entries.map Declared.key).Nodup := by
  unfold add
  split
  · exact h
  · next hfree =>
    rw [has_iff] at hfree
    rw [List.map_append, List.map_singleton, ← List.concat_eq_append]
    refine h.concat fun hmem => hfree ?_
    obtain ⟨e, he, hkey⟩ := List.mem_map.1 hmem
    exact ⟨e, he, Prod.mk.inj hkey⟩

theorem nodup_foldl_add (declared : List Declared) {ds : Declarations}
    (h : (ds.entries.map Declared.key).Nodup) :
    ((declared.foldl add ds).entries.map Declared.key).Nodup := by
  induction declared generalizing ds with
  | nil => exact h
  | cons d declared ih => exact ih (nodup_add h d)

/-- Entries of other kinds have no part in a search. -/
theorem find?_ofKind (ds : Declarations) (kind : DeclaredKind) (name : String) :
    (ds.ofKind kind).find? kind name = ds.find? kind name := by
  unfold find? ofKind
  rw [List.find?_filter]
  congr 1
  funext d
  rw [Bool.eq_iff_iff]
  simp

theorem ofKind_add (ds : Declarations) (d : Declared) (kind : DeclaredKind) :
    (ds.add d).ofKind kind = if d.kind == kind then (ds.ofKind kind).add d else ds.ofKind kind := by
  split
  · next hkind =>
    obtain rfl := eq_of_beq hkind
    unfold add has
    rw [find?_ofKind]
    split
    · rfl
    · simp [ofKind]
  · next hkind =>
    unfold add
    split
    · rfl
    · simp [ofKind, hkind]

theorem ofKind_foldl_add (declared : List Declared) (ds : Declarations) (kind : DeclaredKind) :
    (declared.foldl add ds).ofKind kind =
      (declared.filter (·.kind == kind)).foldl add (ds.ofKind kind) := by
  induction declared generalizing ds with
  | nil => rfl
  | cons d declared ih =>
    rw [List.foldl_cons, ih, ofKind_add, List.filter_cons]
    split <;> rfl

end Declarations

namespace Program

variable (p : Program)

/-! ## Declarations at their places -/

/-- The statement at this place declares a name. -/
def DeclaresAt (i : Nat) (d : Declared) : Prop :=
  ∃ s, p.statements[i]? = some s ∧ s.declared? = some d

/-- The declaration at this place is the first of its kind and name. -/
structure FirstAt (i : Nat) (d : Declared) : Prop where
  declares : p.DeclaresAt i d
  first : ∀ j e, j < i → p.DeclaresAt j e → e.key ≠ d.key

/-- The kind and name that are declared at this place were declared before. -/
def RepeatsAt (i : Nat) : Prop :=
  ∃ later j earlier, p.DeclaresAt i later ∧ j < i ∧ p.DeclaresAt j earlier ∧ earlier.key = later.key

/-- The diagnostic reports the declaration at this place as a repetition of the first one. -/
def Reports (i : Nat) (x : Diagnostic) : Prop :=
  ∃ later j first, p.DeclaresAt i later ∧ j < i ∧ p.FirstAt j first ∧ first.key = later.key ∧
    x = ⟨later.pos, .semantic, "duplicate " ++ later.kind.text ++ " " ++ cite later.name ++
      " (first declared at " ++ first.pos.display ++ ")"⟩

/-- The program as far as this place. -/
def before (i : Nat) : Program := { p with statements := p.statements.take i }

/-- The program with its declarations of one kind only. -/
def only (kind : DeclaredKind) : Program :=
  { p with statements := p.statements.filter fun s => s.declared?.any (·.kind == kind) }

variable {p}

theorem declaresAt_before_iff {i j : Nat} {d : Declared} :
    (p.before i).DeclaresAt j d ↔ j < i ∧ p.DeclaresAt j d := by
  unfold DeclaresAt before
  rw [List.getElem?_take]
  split <;> simp [*]

theorem firstAt_before_iff {i j : Nat} {d : Declared} :
    (p.before i).FirstAt j d ↔ j < i ∧ p.FirstAt j d := by
  constructor
  · intro h
    obtain ⟨hj, hd⟩ := declaresAt_before_iff.1 h.declares
    exact ⟨hj, hd, fun k e hk he => h.first k e hk (declaresAt_before_iff.2 ⟨by omega, he⟩)⟩
  · rintro ⟨hj, h⟩
    exact ⟨declaresAt_before_iff.2 ⟨hj, h.declares⟩,
      fun k e hk he => h.first k e hk (declaresAt_before_iff.1 he).2⟩

/-- The index leads to the first of all declarations. -/
theorem find?_declarations (p : Program) (kind : DeclaredKind) (name : String) :
    p.declarations.find? kind name = (Declarations.mk p.declared).find? kind name :=
  Declarations.find?_foldl_add p.declared .empty kind name

/-- A search passes over the statements up to the first that declares the name. -/
theorem find?_declarations_iff (kind : DeclaredKind) (name : String) (d : Declared) :
    p.declarations.find? kind name = some d ↔ d.key = (kind, name) ∧ ∃ i, p.FirstAt i d := by
  have hkey (e : Declared) : (e.kind == kind && e.name == name) = true ↔ e.key = (kind, name) := by
    simp [Declared.key]
  rw [find?_declarations]
  unfold Declarations.find? declared
  rw [List.find?_filterMap, Option.bind_eq_some_iff]
  simp only [List.find?_eq_some_iff_getElem, Bool.not_eq_true', ← Bool.not_eq_true, Option.any_eq_true, hkey]
  constructor
  · rintro ⟨s, ⟨⟨d', hd', hkey'⟩, i, hi, hs, hbefore⟩, hd⟩
    obtain rfl := Option.some.inj (hd'.symm.trans hd)
    refine ⟨hkey', i, ⟨s, hs ▸ List.getElem?_eq_getElem hi, hd⟩, ?_⟩
    rintro j e hj ⟨t, ht, he⟩ hsame
    obtain ⟨_, rfl⟩ := List.getElem?_eq_some_iff.1 ht
    exact hbefore j hj ⟨e, he, hsame.trans hkey'⟩
  · rintro ⟨hd, i, ⟨s, hs, hdeclared⟩, hfirst⟩
    obtain ⟨hi, hs⟩ := List.getElem?_eq_some_iff.1 hs
    refine ⟨s, ⟨⟨d, hdeclared, hd⟩, i, hi, hs, ?_⟩, hdeclared⟩
    rintro j hj ⟨e, he, hsame⟩
    exact hfirst j e hj ⟨_, List.getElem?_eq_getElem _, he⟩ (hsame.trans hd.symm)

/-- The first declaration of a name has no other before it. -/
theorem DeclaresAt.exists_firstAt {i : Nat} {d : Declared} (h : p.DeclaresAt i d) :
    ∃ j first, j ≤ i ∧ p.FirstAt j first ∧ first.key = d.key := by
  induction i using Nat.strongRecOn generalizing d with
  | ind i ih =>
    by_cases hrepeats : ∃ j e, j < i ∧ p.DeclaresAt j e ∧ e.key = d.key
    · obtain ⟨j, e, hj, he, hkey⟩ := hrepeats
      obtain ⟨k, first, hk, hfirst, hsame⟩ := ih j hj he
      exact ⟨k, first, by omega, hfirst, hsame.trans hkey⟩
    · refine ⟨i, d, Nat.le_refl i, ⟨h, fun j e hj he hkey => ?_⟩, rfl⟩
      exact hrepeats ⟨j, e, hj, he, hkey⟩

variable (p) in
/-- What the index up to this place leads the check of a statement to report. -/
def reportAt? (i : Nat) : Option (Finding DuplicateName) :=
  (p.statements[i]?.bind Stmt.declared?).bind fun d =>
    ((p.before i).declarations.find? d.kind d.name).map fun first => ⟨d.pos, d.kind, d.name, first.pos⟩

theorem reportAt?_eq_some_iff {i : Nat} {x : Finding DuplicateName} :
    p.reportAt? i = some x ↔
      ∃ later j first, p.DeclaresAt i later ∧ j < i ∧ p.FirstAt j first ∧ first.key = later.key ∧
        x = ⟨later.pos, later.kind, later.name, first.pos⟩ := by
  unfold reportAt?
  simp only [Option.bind_eq_some_iff, Option.map_eq_some_iff, find?_declarations_iff, firstAt_before_iff]
  constructor
  · rintro ⟨later, ⟨s, hs, hlater⟩, first, ⟨hkey, j, hj, hfirst⟩, rfl⟩
    exact ⟨later, j, first, ⟨s, hs, hlater⟩, hj, hfirst, hkey, rfl⟩
  · rintro ⟨later, j, first, hlater, hj, hfirst, hkey, rfl⟩
    exact ⟨later, hlater, first, ⟨hkey, j, hj, hfirst⟩, rfl⟩

theorem isSome_reportAt?_iff {i : Nat} : (p.reportAt? i).isSome ↔ p.RepeatsAt i := by
  simp only [Option.isSome_iff_exists, reportAt?_eq_some_iff]
  constructor
  · rintro ⟨_, later, j, first, hlater, hj, hfirst, hkey, -⟩
    exact ⟨later, j, first, hlater, hj, hfirst.declares, hkey⟩
  · rintro ⟨later, j, earlier, hlater, hj, hearlier, hkey⟩
    obtain ⟨k, first, hk, hfirst, hsame⟩ := hearlier.exists_firstAt
    exact ⟨_, later, k, first, hlater, by omega, hfirst, hsame.trans hkey, rfl⟩

/-- One report at most is made at each place. -/
theorem duplicateNames_eq_filterMap (p : Program) :
    p.duplicateNames = (List.range p.statements.length).filterMap p.reportAt? := by
  unfold duplicateNames declared
  rw [eachAfter_filterMap_eq_flatMap, List.filterMap_eq_flatMap_toList]
  refine List.flatMap_congr fun i _ => ?_
  unfold reportAt?
  cases p.statements[i]?.bind Stmt.declared? with
  | none => rfl
  | some d =>
    rw [Option.elim_some, Option.bind_some, find?_declarations]
    unfold declared before
    cases (Declarations.mk _).find? d.kind d.name <;> rfl

/-! ## One kind alone -/

theorem declared_only (p : Program) (kind : DeclaredKind) :
    (p.only kind).declared = p.declared.filter (·.kind == kind) := by
  unfold declared only
  rw [List.filterMap_filter, List.filter_filterMap]
  congr 1
  funext s
  cases s.declared? with
  | none => rfl
  | some d => cases h : d.kind == kind <;> simp [h, Option.filter]

/-- The entries of a kind do not depend on declarations of other kinds. -/
theorem declarations_only (p : Program) (kind : DeclaredKind) :
    p.declarations.ofKind kind = (p.only kind).declarations := by
  unfold declarations
  rw [Declarations.ofKind_foldl_add, declared_only]
  rfl

/-- The reports on a kind do not depend on declarations of other kinds. -/
theorem duplicateNames_only (p : Program) (kind : DeclaredKind) :
    p.duplicateNames.filter (·.problem.kind == kind) = (p.only kind).duplicateNames := by
  unfold duplicateNames
  rw [declared_only]
  refine eachAfter_filter _ (·.kind == kind) _ (fun earlier d => ?_) [] p.declared
  by_cases hkind : d.kind = kind
  · subst hkind
    rw [if_pos (beq_self_eq_true _), ← Declarations.find?_ofKind]
    unfold Declarations.ofKind
    cases (Declarations.mk _).find? d.kind d.name <;> simp
  · rw [if_neg (by simpa using hkind)]
    cases (Declarations.mk earlier).find? d.kind d.name <;> simp [hkind]

/-! ## The index and the reports together -/

/-- The reports on repeated names. -/
def duplicateDiagnostics (p : Program) : List Diagnostic :=
  p.duplicateNames.map fun x => (x.map Problem.duplicateName).diagnostic

/-- Each repetition is reported once, in the order of the statements. -/
def ReportsEach (p : Program) (reports : List Diagnostic) : Prop :=
  ∃ places : List Nat, places.Pairwise (· < ·) ∧ (∀ i, i ∈ places ↔ p.RepeatsAt i) ∧
    List.Forall₂ p.Reports places reports

/-- What there is to find in an index of the program, and what is reported on the way. -/
structure Indexes (p : Program) (ds : Declarations) (reports : List Diagnostic) : Prop where
  has_iff : ∀ kind name, ds.has kind name = true ↔ p.Declares kind name
  find?_iff : ∀ kind name d, ds.find? kind name = some d ↔ d.key = (kind, name) ∧ ∃ i, p.FirstAt i d
  /-- A name has one entry. -/
  nodup : (ds.entries.map Declared.key).Nodup
  reported : p.ReportsEach reports

theorem reportsEach_duplicateDiagnostics (p : Program) : p.ReportsEach p.duplicateDiagnostics := by
  refine ⟨(List.range p.statements.length).filter fun i => (p.reportAt? i).isSome,
    List.pairwise_lt_range.filter _, fun i => ?_, ?_⟩
  · rw [List.mem_filter, isSome_reportAt?_iff, List.mem_range, and_iff_right_iff_imp]
    rintro ⟨later, -, -, ⟨s, hs, -⟩, -⟩
    exact (List.getElem?_eq_some_iff.1 hs).1
  · unfold duplicateDiagnostics
    rw [duplicateNames_eq_filterMap, List.forall₂_map_right_iff]
    refine (forall₂_filter_filterMap p.reportAt? _).imp fun i x hx => ?_
    obtain ⟨later, j, first, hlater, hj, hfirst, hkey, rfl⟩ := reportAt?_eq_some_iff.1 hx
    exact ⟨later, j, first, hlater, hj, hfirst, hkey, rfl⟩

theorem duplicateDiagnostics_isPrefix (p : Program) (registry : Registry) :
    p.duplicateDiagnostics <+: p.diagnostics registry := by
  have hfirst : p.duplicateNames.map (·.map .duplicateName) <+: p.findings registry := by
    unfold findings
    simp only [List.append_assoc]
    exact List.prefix_append _ _
  have h := hfirst.map Finding.diagnostic
  rwa [List.map_map] at h

/-- Every name is indexed under its first declaration, and every later one of the same kind is
reported once, before anything else is.  Declarations of other kinds do not matter. -/
theorem indexes_declarations (p : Program) (registry : Registry) :
    p.Indexes p.declarations p.duplicateDiagnostics ∧
      p.duplicateDiagnostics <+: p.diagnostics registry ∧
      ∀ kind, p.declarations.ofKind kind = (p.only kind).declarations ∧
        p.duplicateNames.filter (·.problem.kind == kind) = (p.only kind).duplicateNames := by
  refine ⟨?_, p.duplicateDiagnostics_isPrefix registry, fun kind => ?_⟩
  · refine ⟨fun kind name => ?_, fun kind name d => find?_declarations_iff kind name d, ?_,
      p.reportsEach_duplicateDiagnostics⟩
    · rw [Declarations.has_iff, has_declarations_iff]
    · exact Declarations.nodup_foldl_add p.declared .nil
  · exact ⟨p.declarations_only kind, p.duplicateNames_only kind⟩

example :
    let line (n : Nat) : Position := ⟨"", n, 1, 0⟩
    let p : Program := ⟨line 1, [.role ⟨line 1, "ops", []⟩, .middleware ⟨line 2, "ops", []⟩,
      .role ⟨line 3, "ops", []⟩, .role ⟨line 4, "ops", []⟩]⟩
    p.duplicateNames = [⟨line 3, .role, "ops", line 1⟩, ⟨line 4, .role, "ops", line 1⟩] := by
  decide

end Program

end ServiceLang
