import Mathlib.Data.List.Forall2
import Mathlib.Data.List.Nodup
import ServiceLang.Format.Cron
import ServiceLang.Proofs.Decimal.Layout
import ServiceLang.Proofs.Format.Name
import ServiceLang.Proofs.Source.Chars
import ServiceLang.Proofs.Text.Runs

/-!
The language of schedules.

The check cuts a text at white space, commas, slashes and dashes, and reads what is left as
numbers and names.  Here the language is put together from its pieces instead: numerals
(`Plain`) and names give values, values give ranges, and so on up to `Schedule`.

The check takes every text of this language, and some more: it lets a plus sign stand in
front of a number (`Signed`).  It accepts exactly the schedules with such numbers, and among
the texts without a plus sign exactly those that the language has (`check_eq_ok_iff`).
-/

namespace ServiceLang

namespace Text.Joined

variable {sep : Char} {Part Other : List Char → Prop}

theorem imp {cs : List Char} (h : Joined sep Part cs)
    (himp : ∀ part, part ⊆ cs → Part part → Other part) : Joined sep Other cs := by
  induction h with
  | last h => exact .last (himp _ (List.Subset.refl _) h)
  | @cons part rest h _ ih =>
    have hrest : rest ⊆ part ++ sep :: rest := fun c hc => by simp [hc]
    exact .cons (himp part (List.subset_append_left part _) h)
      (ih fun p hp => himp p (List.Subset.trans hp hrest))

theorem not_mem {cs : List Char} (h : Joined sep Part cs) {c : Char}
    (hpart : ∀ part, Part part → c ∉ part) (hsep : c ≠ sep) : c ∉ cs := by
  induction h with
  | last h => exact hpart _ h
  | cons h _ ih => simp [hpart _ h, hsep, ih]

end Text.Joined

theorem Text.Spaced.mem {words : List (List Char)} {cs : List Char} (h : Spaced words cs) {c : Char}
    (hc : c ∈ cs) : isWhiteSpace c = true ∨ ∃ word ∈ words, c ∈ word := by
  induction h with
  | blank h => exact .inl (h c hc)
  | word hgap _ _ _ _ ih =>
    rcases List.mem_append.mp hc with hc | hc
    · exact .inl (hgap c hc)
    rcases List.mem_append.mp hc with hc | hc
    · exact .inr ⟨_, List.mem_cons_self, hc⟩
    · exact (ih hc).imp_right fun ⟨w, hw, hc⟩ => ⟨w, List.mem_cons_of_mem _ hw, hc⟩

theorem Text.Spaced.subset {words : List (List Char)} {cs : List Char} (h : Spaced words cs)
    {word : List Char} (hword : word ∈ words) : word ⊆ cs := by
  induction h with
  | blank => cases hword
  | word _ _ _ _ _ ih =>
    rcases List.mem_cons.mp hword with rfl | hword
    · exact fun c hc => by simp [hc]
    · exact fun c hc => by simp [ih hword hc]

namespace Cron

/-! ## The language -/

/-- Digits, and the number that they write. -/
def Plain (cs : List Char) (n : Nat) : Prop := Decimal.IsDigits cs ∧ Decimal.natOfDigits cs = n

/-- Digits, perhaps behind a plus sign, and the number that they write. -/
inductive Signed : List Char → Nat → Prop where
  | plain {cs : List Char} {n : Nat} (h : Plain cs n) : Signed cs n
  | plus {cs : List Char} {n : Nat} (h : Plain cs n) : Signed ('+' :: cs) n

section Language

variable (Numeral : List Char → Nat → Prop) (field : CronField)

/-- A numeral in the range of the field, or the name of one of its values in any case. -/
inductive Value : List Char → Nat → Prop where
  | number {cs : List Char} {n : Nat} (h : Numeral cs n) (hleast : field.least ≤ n)
      (hgreatest : n ≤ field.greatest) : Value cs n
  | name {cs : List Char} {i : Nat} {name : String} (h : field.names[i]? = some name)
      (hcs : cs.map Char.toUpper = name.toList) : Value cs (field.least + i)

/-- All values, one of them, or a range. -/
inductive Base : List Char → Prop where
  | any : Base ['*']
  | value {cs : List Char} {n : Nat} (h : Value Numeral field cs n) : Base cs
  | range {first last : List Char} {lo hi : Nat} (hfirst : Value Numeral field first lo)
      (hlast : Value Numeral field last hi) (h : lo ≤ hi) : Base (first ++ '-' :: last)

/-- A base, perhaps with a step, which is a positive number of 32 bits. -/
inductive Item : List Char → Prop where
  | base {cs : List Char} (h : Base Numeral field cs) : Item cs
  | step {base step : List Char} {n : Nat} (h : Base Numeral field base) (hstep : Numeral step n)
      (hpositive : 0 < n) (hfits : n < UInt32.size) : Item (base ++ '/' :: step)

/-- Items with commas between them. -/
def Items (cs : List Char) : Prop := Text.Joined ',' (Item Numeral field) cs

end Language

/-- A descriptor, or the five fields in their order, with white space between them. -/
inductive Schedule (Numeral : List Char → Nat → Prop) (cs : List Char) : Prop where
  | descriptor {name : String} (h : name ∈ descriptors) (hcs : Text.Spaced [name.toList] cs)
  | fields {fields : List (List Char)} (hcs : Text.Spaced fields cs)
      (h : List.Forall₂ (Items Numeral) CronField.all fields)

/-! ## Other numerals -/

section Imp

variable {Numeral Other : List Char → Nat → Prop} {field : CronField} {cs : List Char}

theorem Value.imp {n : Nat} (h : Value Numeral field cs n)
    (himp : ∀ ds n, ds ⊆ cs → Numeral ds n → Other ds n) : Value Other field cs n := by
  cases h with
  | number h hleast hgreatest => exact .number (himp _ _ (List.Subset.refl _) h) hleast hgreatest
  | name h hcs => exact .name h hcs

theorem Base.imp (h : Base Numeral field cs)
    (himp : ∀ ds n, ds ⊆ cs → Numeral ds n → Other ds n) : Base Other field cs := by
  cases h with
  | any => exact .any
  | value h => exact .value (h.imp himp)
  | range hfirst hlast hle =>
    refine .range (hfirst.imp fun ds n hds => himp ds n ?_) (hlast.imp fun ds n hds => himp ds n ?_) hle
    · exact fun c hc => by simp [hds hc]
    · exact fun c hc => by simp [hds hc]

theorem Item.imp (h : Item Numeral field cs)
    (himp : ∀ ds n, ds ⊆ cs → Numeral ds n → Other ds n) : Item Other field cs := by
  cases h with
  | base h => exact .base (h.imp himp)
  | step h hstep hpositive hfits =>
    refine .step (h.imp fun ds n hds => himp ds n ?_) (himp _ _ ?_ hstep) hpositive hfits
    · exact fun c hc => by simp [hds hc]
    · exact fun c hc => by simp [hc]

theorem Schedule.imp (h : Schedule Numeral cs)
    (himp : ∀ ds n, ds ⊆ cs → Numeral ds n → Other ds n) : Schedule Other cs := by
  cases h with
  | descriptor h hcs => exact .descriptor h hcs
  | fields hcs h =>
    obtain ⟨hlength, hitems⟩ := List.forall₂_iff_zip.mp h
    refine .fields hcs (List.forall₂_iff_zip.mpr ⟨hlength, fun {field text} hmem => ?_⟩)
    have htext := hcs.subset (List.of_mem_zip hmem).2
    exact (hitems hmem).imp fun part hpart hitem => hitem.imp fun ds n hds =>
      himp ds n (List.Subset.trans hds (List.Subset.trans hpart htext))

end Imp

/-! ## Characters -/

/-- The character is in no numeral and in no name. -/
structure Avoids (Numeral : List Char → Nat → Prop) (c : Char) : Prop where
  numerals : ∀ cs n, Numeral cs n → c ∉ cs
  names : c.toUpper.isUpper = false

theorem isUpper_of_mem_names {field : CronField} {name : String} (h : name ∈ field.names) :
    ∀ c ∈ name.toList, c.isUpper = true := by
  cases field with
  | minute | hour | dayOfMonth => cases h
  | month | dayOfWeek => revert name; decide

theorem isUpper_toUpper_of_isDigit {c : Char} (h : c.isDigit = true) : c.toUpper.isUpper = false := by
  have hdigit := (isDigit_iff c).mp h
  have hsame : c.toUpper = c := by
    refine dif_neg fun hlower => ?_
    have hle : 97 ≤ c.toNat := hlower.1
    omega
  rw [hsame, ← Bool.not_eq_true]
  intro hupper
  have hle : 65 ≤ c.toNat := (of_decide_eq_true hupper).1
  omega

section Avoids

variable {Numeral : List Char → Nat → Prop} {field : CronField} {c : Char}
  (havoids : Avoids Numeral c) {cs : List Char}
include havoids

theorem Value.not_mem {n : Nat} (h : Value Numeral field cs n) : c ∉ cs := by
  cases h with
  | number h => exact havoids.numerals _ _ h
  | name h hcs =>
    intro hc
    have hupper := isUpper_of_mem_names (List.mem_of_getElem? h) c.toUpper
      (hcs ▸ List.mem_map_of_mem hc)
    rw [havoids.names] at hupper
    exact Bool.noConfusion hupper

theorem Base.not_mem (h : Base Numeral field cs) (hmarks : c ∉ ['*', '-']) : c ∉ cs := by
  cases h with
  | any => simp_all
  | value h => exact h.not_mem havoids
  | range hfirst hlast => simp_all [hfirst.not_mem havoids, hlast.not_mem havoids]

theorem Item.not_mem (h : Item Numeral field cs) (hmarks : c ∉ ['*', '-', '/']) : c ∉ cs := by
  have hbase : c ∉ ['*', '-'] := fun hc => hmarks (List.mem_append_left ['/'] hc)
  cases h with
  | base h => exact h.not_mem havoids hbase
  | step h hstep => simp_all [h.not_mem havoids hbase, havoids.numerals _ _ hstep]

theorem Items.not_mem (h : Items Numeral field cs) (hmarks : c ∉ ['*', '-', '/', ',']) : c ∉ cs :=
  Text.Joined.not_mem h
    (fun _ hitem => hitem.not_mem havoids fun hc => hmarks (List.mem_append_left [','] hc))
    fun hc => hmarks (by simp [hc])

end Avoids

theorem Plain.avoids {c : Char} (hdigit : c.isDigit = false) (hname : c.toUpper.isUpper = false) :
    Avoids Plain c where
  numerals cs _ h hc := by
    rw [h.1.2 c hc] at hdigit
    exact Bool.noConfusion hdigit
  names := hname

theorem Signed.avoids {c : Char} (hdigit : c.isDigit = false) (hplus : c ≠ '+')
    (hname : c.toUpper.isUpper = false) : Avoids Signed c where
  numerals cs n h := by
    have hplain := (Plain.avoids hdigit hname).numerals
    cases h with
    | plain h => exact hplain cs n h
    | plus h => simp [hplus, hplain _ n h]
  names := hname

/-- Five fields have a character in white space and marks only, if it is in no numeral and in
no name. -/
theorem not_mem_of_fields {Numeral : List Char → Nat → Prop} {c : Char} (havoids : Avoids Numeral c)
    (hmarks : c ∉ ['*', '-', '/', ',']) (hsolid : Text.isWhiteSpace c = false) {cs : List Char}
    {fields : List (List Char)} (hcs : Text.Spaced fields cs)
    (h : List.Forall₂ (Items Numeral) CronField.all fields) : c ∉ cs := by
  intro hc
  obtain ⟨hlength, hitems⟩ := List.forall₂_iff_zip.mp h
  rcases hcs.mem hc with hwhite | ⟨word, hword, hmem⟩
  · rw [hsolid] at hwhite
    exact Bool.noConfusion hwhite
  · rw [← List.map_snd_zip (Nat.le_of_eq hlength.symm)] at hword
    obtain ⟨⟨field, _⟩, hpair, rfl⟩ := List.mem_map.mp hword
    exact (hitems hpair).not_mem havoids hmarks hmem

/-- A schedule with plain numerals has no plus sign. -/
theorem Schedule.not_mem_plus {cs : List Char} (h : Schedule Plain cs) : '+' ∉ cs := by
  cases h with
  | @descriptor name h hcs =>
    have hnames : ∀ name ∈ descriptors, '+' ∉ name.toList := by decide
    intro hc
    rcases hcs.mem hc with hwhite | ⟨word, hword, hmem⟩
    · exact absurd hwhite (by decide)
    · rw [List.mem_singleton.mp hword] at hmem
      exact hnames name h hmem
  | fields hcs h =>
    exact not_mem_of_fields (Plain.avoids (by decide) (by decide)) (by decide) (by decide) hcs h

/-- The plain schedules are the signed ones without a plus sign. -/
theorem schedule_plain_iff (cs : List Char) :
    Schedule Plain cs ↔ Schedule Signed cs ∧ '+' ∉ cs := by
  constructor
  · intro h
    exact ⟨h.imp fun _ _ _ => .plain, h.not_mem_plus⟩
  · rintro ⟨h, hplus⟩
    refine h.imp fun ds n hds hnumeral => ?_
    cases hnumeral with
    | plain h => exact h
    | plus => exact absurd (hds List.mem_cons_self) hplus

/-! ## Numbers and values -/

theorem number?_eq_some_iff (cs : List Char) (n : Nat) :
    number? cs = some n ↔ Signed cs n ∧ n < UInt32.size := by
  have hdigits (ds : List Char) : (if ds.isEmpty || !ds.all Char.isDigit then none
      else if Decimal.natOfDigits ds < UInt32.size then some (Decimal.natOfDigits ds) else none) =
        some n ↔ Plain ds n ∧ n < UInt32.size := by
    have hall : (ds.isEmpty || !ds.all Char.isDigit) = true ↔ ¬Decimal.IsDigits ds := by
      simp [Decimal.IsDigits, imp_iff_not_or]
    split
    · next h => simp [Plain, hall.mp h]
    · next h =>
      have hds : Decimal.IsDigits ds := not_not.mp (mt hall.mpr h)
      simp only [Plain, hds, true_and, Option.ite_none_right_eq_some, Option.some.injEq]
      exact ⟨fun ⟨hlt, heq⟩ => ⟨heq, heq ▸ hlt⟩, fun ⟨heq, hlt⟩ => ⟨heq ▸ hlt, heq⟩⟩
  unfold number?
  split
  · next ds =>
    have hsigned : Signed ('+' :: ds) n ↔ Plain ds n := by
      refine ⟨fun h => ?_, .plus⟩
      cases h with
      | plain h => exact absurd (h.1.2 '+' List.mem_cons_self) (by decide)
      | plus h => exact h
    rw [hsigned]
    exact hdigits ds
  · next hplain =>
    have hsigned : Signed cs n ↔ Plain cs n := by
      refine ⟨fun h => ?_, .plain⟩
      cases h with
      | plain h => exact h
      | plus => exact absurd rfl (hplain _)
    rw [hsigned]
    exact hdigits cs

theorem isStep_iff (cs : List Char) :
    isStep cs = true ↔ ∃ n, Signed cs n ∧ 0 < n ∧ n < UInt32.size := by
  simp only [isStep, Option.any_eq_true, decide_eq_true_eq, number?_eq_some_iff]
  exact exists_congr fun n => by tauto

theorem checkRange_eq_ok_iff (field : CronField) (n : Nat) :
    checkRange field n = .ok () ↔ field.least ≤ n ∧ n ≤ field.greatest := by
  unfold checkRange
  simp only [Bool.or_eq_true, decide_eq_true_eq]
  split
  · next h => exact ⟨nofun, fun ⟨hleast, hgreatest⟩ => by omega⟩
  · next h => exact ⟨fun _ => by omega, fun _ => rfl⟩

/-- A field has room for all of its names. -/
theorem least_add_le_greatest {field : CronField} {i : Nat} (h : i < field.names.length) :
    field.least + i ≤ field.greatest := by
  cases field <;> simp [CronField.names, CronField.least, CronField.greatest] at h ⊢ <;> omega

theorem nodup_names (field : CronField) : field.names.Nodup := by
  cases field <;> decide

/-- The place of a name among the names of its field. -/
theorem findIdx?_names_eq_some_iff (field : CronField) (name : String) (i : Nat) :
    field.names.findIdx? (· = name) = some i ↔ field.names[i]? = some name := by
  rw [List.findIdx?_eq_some_iff_getElem, List.getElem?_eq_some_iff]
  refine exists_congr fun hi => ?_
  simp only [decide_eq_true_eq]
  refine and_iff_left_of_imp fun hname j hji hj => ?_
  have hsame : j = i := List.Nodup.getElem_inj_iff (nodup_names field) |>.mp (hj.trans hname.symm)
  omega

/-- A number is no name. -/
theorem Signed.map_toUpper_ne {cs : List Char} {n : Nat} (h : Signed cs n) {field : CronField}
    {name : String} (hname : name ∈ field.names) : cs.map Char.toUpper ≠ name.toList := by
  intro heq
  obtain ⟨c, hc, hupper⟩ : ∃ c ∈ cs, c.toUpper.isUpper = false := by
    cases h with
    | plain h =>
      obtain ⟨c, rest, rfl⟩ := List.exists_cons_of_ne_nil h.1.1
      exact ⟨c, List.mem_cons_self, isUpper_toUpper_of_isDigit (h.1.2 c List.mem_cons_self)⟩
    | plus => exact ⟨'+', List.mem_cons_self, by decide⟩
  have hmem := isUpper_of_mem_names hname c.toUpper (heq ▸ List.mem_map_of_mem hc)
  rw [hupper] at hmem
  exact Bool.noConfusion hmem

/-- The values of a field are what the check reads and takes for being in its range. -/
theorem value_iff (field : CronField) (cs : List Char) (n : Nat) :
    Value Signed field cs n ↔
      value? field cs = some n ∧ field.least ≤ n ∧ n ≤ field.greatest := by
  have hsize : field.greatest < UInt32.size := by cases field <;> decide
  unfold value?
  constructor
  · intro h
    cases h with
    | number h hleast hgreatest =>
      have hnumber : number? cs = some n := (number?_eq_some_iff cs n).mpr ⟨h, by omega⟩
      exact ⟨by rw [hnumber], hleast, hgreatest⟩
    | @name i name h hcs =>
      have hname := List.mem_of_getElem? h
      have hnumber : number? cs = none := by
        refine Option.eq_none_iff_forall_ne_some.mpr fun m hm => ?_
        exact ((number?_eq_some_iff cs m).mp hm).1.map_toUpper_ne hname hcs
      have hplace := (findIdx?_names_eq_some_iff field name i).mpr h
      rw [hnumber, hcs, String.ofList_toList]
      simp only [hplace, Option.map_some, true_and]
      exact ⟨Nat.le_add_right _ _, least_add_le_greatest (List.getElem?_eq_some_iff.mp h).1⟩
  · rintro ⟨hvalue, hleast, hgreatest⟩
    cases hnumber : number? cs with
    | some m =>
      rw [hnumber] at hvalue
      obtain rfl := Option.some.inj hvalue
      exact .number ((number?_eq_some_iff cs m).mp hnumber).1 hleast hgreatest
    | none =>
      rw [hnumber] at hvalue
      obtain ⟨i, hplace, rfl⟩ := Option.map_eq_some_iff.mp hvalue
      refine .name ((findIdx?_names_eq_some_iff field _ i).mp hplace) ?_
      rw [String.toList_ofList]

/-! ## Items -/

/-- The bounds of a range are checked one after the other, and then their order. -/
theorem checkBounds_eq_ok_iff (field : CronField) (invalid : CronFault) (lo hi : Nat) :
    (do checkRange field lo; checkRange field hi; if hi < lo then .error invalid else .ok ()) =
        Except.ok () ↔
      (field.least ≤ lo ∧ lo ≤ field.greatest) ∧ (field.least ≤ hi ∧ hi ≤ field.greatest) ∧ lo ≤ hi := by
  rw [← checkRange_eq_ok_iff, ← checkRange_eq_ok_iff]
  cases checkRange field lo <;> cases checkRange field hi <;> simp [bind, Except.bind]

/-- A base is accepted if it is well formed. -/
theorem checkBase_eq_ok_iff (field : CronField) (invalid : CronFault) (base : List Char) :
    checkBase field invalid base = .ok () ↔ Base Signed field base := by
  have hdash : Avoids Signed '-' := Signed.avoids (by decide) (by decide) (by decide)
  have hstar : Avoids Signed '*' := Signed.avoids (by decide) (by decide) (by decide)
  unfold checkBase
  constructor
  · intro h
    split at h
    · next hany => exact hany ▸ .any
    · split at h
      · split at h
        · cases h
        · next n hn => exact .value ((value_iff _ _ _).mpr ⟨hn, (checkRange_eq_ok_iff _ _).mp h⟩)
      · next first last hcut =>
        rw [(Text.splitFirst?_eq_some hcut).1]
        split at h
        · next lo hi hlo hhi =>
          obtain ⟨hrangelo, hrangehi, hle⟩ := (checkBounds_eq_ok_iff _ _ _ _).mp h
          exact .range ((value_iff _ _ _).mpr ⟨hlo, hrangelo⟩) ((value_iff _ _ _).mpr ⟨hhi, hrangehi⟩) hle
        · cases h
  · intro h
    cases h with
    | any => rfl
    | @value _ n h =>
      have hne : base ≠ ['*'] := by
        rintro rfl
        exact h.not_mem hstar List.mem_cons_self
      obtain ⟨hn, hrange⟩ := (value_iff _ _ _).mp h
      rw [if_neg hne, Text.splitFirst?_of_not_mem (h.not_mem hdash)]
      simp only [hn]
      exact (checkRange_eq_ok_iff _ _).mpr hrange
    | @range first last lo hi hfirst hlast hle =>
      have hne : first ++ '-' :: last ≠ ['*'] := by
        intro heq
        have hmem : '-' ∈ first ++ '-' :: last := by simp
        rw [heq] at hmem
        exact absurd hmem (by decide)
      obtain ⟨hlo, hrangelo⟩ := (value_iff _ _ _).mp hfirst
      obtain ⟨hhi, hrangehi⟩ := (value_iff _ _ _).mp hlast
      rw [if_neg hne, Text.splitFirst?_append (hfirst.not_mem hdash)]
      simp only [hlo, hhi]
      exact (checkBounds_eq_ok_iff _ _ _ _).mpr ⟨hrangelo, hrangehi, hle⟩

theorem checkItem_eq_ok_iff (field : CronField) (item : List Char) :
    checkItem field item = .ok () ↔ Item Signed field item := by
  have hslash : Avoids Signed '/' := Signed.avoids (by decide) (by decide) (by decide)
  unfold checkItem
  constructor
  · intro h
    split at h
    · exact .base ((checkBase_eq_ok_iff _ _ _).mp h)
    · next base step hcut =>
      split at h
      · next hstep =>
        obtain ⟨n, hnumeral, hpositive, hfits⟩ := (isStep_iff step).mp hstep
        rw [(Text.splitFirst?_eq_some hcut).1]
        exact .step ((checkBase_eq_ok_iff _ _ _).mp h) hnumeral hpositive hfits
      · cases h
  · intro h
    cases h with
    | base h =>
      rw [Text.splitFirst?_of_not_mem (h.not_mem hslash (by decide))]
      exact (checkBase_eq_ok_iff _ _ _).mpr h
    | @step base step n h hnumeral hpositive hfits =>
      have hstep := (isStep_iff step).mpr ⟨n, hnumeral, hpositive, hfits⟩
      rw [Text.splitFirst?_append (h.not_mem hslash (by decide))]
      simp only [hstep, if_true]
      exact (checkBase_eq_ok_iff _ _ _).mpr h

/-! ## Fields and schedules -/

theorem forM_eq_ok_iff {α ε : Type} (f : α → Except ε Unit) (as : List α) :
    as.forM f = .ok () ↔ ∀ a ∈ as, f a = .ok () := by
  induction as with
  | nil => simp [pure, Except.pure]
  | cons a as ih =>
    change (do f a; as.forM f) = .ok () ↔ _
    rw [List.forall_mem_cons, ← ih]
    cases f a <;> simp [bind, Except.bind]

theorem checkField_eq_ok_iff (field : CronField) (text : List Char) :
    checkField field text = .ok () ↔ Items Signed field text := by
  have hcomma : Avoids Signed ',' := Signed.avoids (by decide) (by decide) (by decide)
  unfold checkField
  rw [forM_eq_ok_iff]
  simp only [checkItem_eq_ok_iff]
  exact Text.forall_mem_splitOn_iff (fun _ h => h.not_mem hcomma (by decide)) text

theorem checkFields_eq_ok_iff (fields : List (List Char)) :
    (fields.length = CronField.all.length ∧
      ((CronField.all.zip fields).forM fun (field, text) => checkField field text) = .ok ()) ↔
      List.Forall₂ (Items Signed) CronField.all fields := by
  rw [List.forall₂_iff_zip, forM_eq_ok_iff, eq_comm, Prod.forall]
  simp only [checkField_eq_ok_iff]

/-- A schedule by what the check looks at: the trimmed text, and its words. -/
theorem schedule_iff (Numeral : List Char → Nat → Prop) (cs : List Char) :
    Schedule Numeral cs ↔ String.ofList (Text.trim cs) ∈ descriptors ∨
      List.Forall₂ (Items Numeral) CronField.all (Text.words cs) := by
  have hsolid : ∀ name ∈ descriptors,
      name.toList ≠ [] ∧ ∀ c ∈ name.toList, Text.isWhiteSpace c = false := by decide
  constructor
  · intro h
    cases h with
    | @descriptor name h hcs =>
      rw [← Text.trim_eq_iff (hsolid name h).1 (hsolid name h).2] at hcs
      rw [hcs, String.ofList_toList]
      exact .inl h
    | fields hcs h => exact .inr (hcs.words_eq ▸ h)
  · rintro (h | h)
    · obtain ⟨hne, hword⟩ := hsolid _ h
      exact .descriptor h ((Text.trim_eq_iff hne hword cs).mp String.toList_ofList.symm)
    · exact .fields (Text.spaced_words cs) h

theorem check_iff_signed (text : String) :
    check text = .ok () ↔ Schedule Signed text.toList := by
  unfold check
  rw [schedule_iff]
  simp only [Text.words_trim]
  by_cases hat : (Text.trim text.toList).head? = some '@'
  · have hfields : ¬List.Forall₂ (Items Signed) CronField.all (Text.words text.toList) := by
      rw [← Text.words_trim]
      intro h
      exact not_mem_of_fields (Signed.avoids (by decide) (by decide) (by decide)) (by decide) (by decide)
        (Text.spaced_words _) h (List.mem_of_mem_head? hat)
    rw [if_pos hat, or_iff_left hfields]
    split <;> simp_all
  · have hname : String.ofList (Text.trim text.toList) ∉ descriptors := by
      have hnames : ∀ name ∈ descriptors, name.toList.head? = some '@' := by decide
      intro h
      have hhead := hnames _ h
      rw [String.toList_ofList] at hhead
      exact hat hhead
    rw [if_neg hat, or_iff_right hname, ← checkFields_eq_ok_iff]
    split <;> simp_all

/-- The check accepts the schedules whose numbers may have a plus sign; so the schedules with
plain numbers are just the accepted texts without such a sign. -/
theorem check_eq_ok_iff (text : String) :
    (check text = .ok () ↔ Schedule Signed text.toList) ∧
      (Schedule Plain text.toList ↔ check text = .ok () ∧ '+' ∉ text.toList) := by
  refine ⟨check_iff_signed text, ?_⟩
  rw [check_iff_signed, schedule_plain_iff]

example : check "0 3 1-15 JAN-MAR mon" = .ok () := by decide

/-- A minute with a plus sign is accepted, though it is none of the language. -/
theorem check_accepts_plus :
    check "+5 * * * *" = .ok () ∧ ¬Schedule Plain "+5 * * * *".toList :=
  ⟨by decide, fun h => h.not_mem_plus (by decide)⟩

end Cron

end ServiceLang
