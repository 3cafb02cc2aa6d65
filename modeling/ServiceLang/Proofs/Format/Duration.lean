import Mathlib.Data.List.TakeWhile
import ServiceLang.Format.Duration
import ServiceLang.Proofs.Decimal.Layout
import ServiceLang.Proofs.Source.Chars
import ServiceLang.Proofs.Text.Runs

/-!
The language of durations.

A duration is a lone `0`, or components one behind another (`Components`), each a number and
a unit.  No unit has a digit or a point in it, so a text falls into components in one way at
most, and the runs of number characters and of others are their numbers and units.

Adding up runs is a loop that reads one component from the front of the text, as long as
there is text (`addComponents_runs`).  Each round makes the text shorter, and what it takes
for a number always has a value (`read?_eq_numberValue`).  So only texts of other forms fail,
apart from the durations that are too long (`parse_recognizes`).
-/

namespace ServiceLang.Duration

/-! ## The language -/

/-- Digits with at most one point among them, and not a point alone. -/
inductive Number : List Char → Prop where
  | whole {digits : List Char} (h : Decimal.IsDigits digits) : Number digits
  | point {whole fraction : List Char} (hwhole : ∀ c ∈ whole, c.isDigit = true)
      (hfraction : ∀ c ∈ fraction, c.isDigit = true) (hne : whole ≠ [] ∨ fraction ≠ []) :
      Number (whole ++ '.' :: fraction)

/-- How units are written.  Microseconds are written in three ways. -/
def unitTexts : List String := ["ns", "us", "\u00b5s", "\u03bcs", "ms", "s", "m", "h"]

/-- Numbers with units, one or more of them. -/
inductive Components : List Char → Prop where
  | last {number : List Char} {unit : String} (hnumber : Number number) (hunit : unit ∈ unitTexts) :
      Components (number ++ unit.toList)
  | cons {number rest : List Char} {unit : String} (hnumber : Number number)
      (hunit : unit ∈ unitTexts) (more : Components rest) :
      Components (number ++ (unit.toList ++ rest))

/-- A zero, or components. -/
def Written (cs : List Char) : Prop := cs = ['0'] ∨ Components cs

/-- The text is a duration that is not too long. -/
def Reads (text : String) : Prop := ∃ d, parse text = .ok d

/-! ## Numbers -/

theorem point_not_mem {digits : List Char} (h : ∀ c ∈ digits, c.isDigit = true) : '.' ∉ digits :=
  fun hmem => absurd (h '.' hmem) (by decide)

theorem isNumber_iff (cs : List Char) : isNumber cs = true ↔ Number cs := by
  simp only [isNumber, isNumberChar, Bool.and_eq_true, List.all_eq_true, List.any_eq_true,
    Bool.or_eq_true, decide_eq_true_eq]
  constructor
  · rintro ⟨⟨hall, d, hd, hdigit⟩, hpoints⟩
    have hdigits {ds : List Char} (hsub : ds ⊆ cs) (hpoint : '.' ∉ ds) : ∀ c ∈ ds, c.isDigit = true :=
      fun c hc => (hall c (hsub hc)).resolve_right fun heq => hpoint (heq ▸ hc)
    by_cases hpoint : '.' ∈ cs
    · obtain ⟨whole, fraction, rfl, hwhole⟩ := List.eq_append_cons_of_mem hpoint
      have hfraction : '.' ∉ fraction := by
        rw [List.count_append, List.count_cons_self, List.count_eq_zero.mpr hwhole] at hpoints
        exact List.count_eq_zero.mp (by omega)
      refine .point (hdigits (by simp) hwhole) (hdigits (fun c hc => by simp [hc]) hfraction) ?_
      by_contra hempty
      obtain ⟨rfl, rfl⟩ : whole = [] ∧ fraction = [] := by simpa using hempty
      obtain rfl : d = '.' := by simpa using hd
      exact absurd hdigit (by decide)
    · exact .whole ⟨List.ne_nil_of_mem hd, hdigits (List.Subset.refl _) hpoint⟩
  · intro h
    cases h with
    | whole h =>
      obtain ⟨c, rest, rfl⟩ := List.exists_cons_of_ne_nil h.1
      exact ⟨⟨fun x hx => .inl (h.2 x hx), c, List.mem_cons_self, h.2 c List.mem_cons_self⟩,
        (List.count_eq_zero.mpr (point_not_mem h.2)).trans_le (Nat.zero_le 1)⟩
    | @point whole fraction hwhole hfraction hne =>
      refine ⟨⟨?_, ?_⟩, ?_⟩
      · intro c hc
        rcases List.mem_append.mp hc with hc | hc
        · exact .inl (hwhole c hc)
        · exact (List.mem_cons.mp hc).elim .inr fun hc => .inl (hfraction c hc)
      · rcases hne with hne | hne
        · obtain ⟨c, rest, rfl⟩ := List.exists_cons_of_ne_nil hne
          exact ⟨c, by simp, hwhole c List.mem_cons_self⟩
        · obtain ⟨c, rest, rfl⟩ := List.exists_cons_of_ne_nil hne
          exact ⟨c, by simp, hfraction c List.mem_cons_self⟩
      · rw [List.count_append, List.count_cons_self, List.count_eq_zero.mpr (point_not_mem hwhole),
          List.count_eq_zero.mpr (point_not_mem hfraction)]

theorem isNumberChar_of_number {cs : List Char} (h : Number cs) : ∀ c ∈ cs, isNumberChar c = true := by
  have hnumber := (isNumber_iff cs).mpr h
  simp only [isNumber, Bool.and_eq_true, List.all_eq_true] at hnumber
  exact hnumber.1.1

theorem Number.ne_nil {cs : List Char} (h : Number cs) : cs ≠ [] := by
  cases h with
  | whole h => exact h.1
  | point => simp

theorem Number.isDigits_splitPoint {cs : List Char} (h : Number cs) :
    Decimal.IsDigits ((Decimal.splitPoint cs).1 ++ (Decimal.splitPoint cs).2) := by
  have hpoint {ds : List Char} (hds : ∀ c ∈ ds, c.isDigit = true) :
      ∀ c ∈ ds, (c ≠ '.' : Bool) = true := by
    intro c hc
    exact decide_eq_true fun heq => point_not_mem hds (heq ▸ hc)
  unfold Decimal.splitPoint
  cases h with
  | whole h =>
    rw [List.takeWhile_eq_self_iff.mpr (hpoint h.2), List.dropWhile_eq_nil_iff.mpr (hpoint h.2)]
    simpa using h
  | @point whole fraction hwhole hfraction hne =>
    rw [List.takeWhile_append_of_pos (hpoint hwhole), List.dropWhile_append_of_pos (hpoint hwhole),
      List.takeWhile_cons_of_neg (by simp), List.dropWhile_cons_of_neg (by simp), List.append_nil,
      List.drop_one, List.tail_cons]
    exact ⟨by simpa [imp_iff_not_or] using hne,
      fun c hc => (List.mem_append.mp hc).elim (hwhole c) (hfraction c)⟩

/-- Number characters stand before the letters. -/
theorem toNat_lt_of_isNumberChar {c : Char} (h : isNumberChar c = true) : c.toNat < 65 := by
  simp only [isNumberChar, Bool.or_eq_true, decide_eq_true_eq] at h
  rcases h with h | rfl
  · have hdigit := (isDigit_iff c).mp h
    omega
  · decide

theorem toLower_of_isNumberChar {c : Char} (h : isNumberChar c = true) : c.toLower = c := by
  have hlt := toNat_lt_of_isNumberChar h
  refine dif_neg fun hupper => ?_
  have hle : 65 ≤ c.toNat := hupper.1
  omega

/-- A number without sign and exponent is read as the value the sum goes on with. -/
theorem unsigned?_eq_numberValue {cs : List Char} (h : Number cs) :
    Decimal.unsigned? cs = some (numberValue cs) := by
  have hchars := isNumberChar_of_number h
  have hmark : ∀ c ∈ cs, (!(decide (c = 'e') || decide (c = 'E'))) = true := by
    intro c hc
    have hlt := toNat_lt_of_isNumberChar (hchars c hc)
    have hsmall : c ≠ 'e' := fun heq => by simp [heq] at hlt
    have hlarge : c ≠ 'E' := fun heq => by simp [heq] at hlt
    simp [hsmall, hlarge]
  have hread {ds : List Char} (hds : Decimal.IsDigits ds) :
      (ds.isEmpty || !ds.all Char.isDigit) = false := by
    rw [List.isEmpty_eq_false_iff.mpr hds.1, List.all_eq_true.mpr hds.2]
    rfl
  unfold Decimal.unsigned?
  dsimp only
  rw [List.takeWhile_eq_self_iff.mpr hmark, List.dropWhile_eq_nil_iff.mpr hmark,
    hread h.isDigits_splitPoint]
  simp [numberValue, Decimal.ofDigits]

/-- A number has a value for the reader of decimals, with which the sum goes on. -/
theorem read?_eq_numberValue {cs : List Char} (h : Number cs) :
    Decimal.read? (String.ofList cs) = some (numberValue cs) := by
  have hchars := isNumberChar_of_number h
  have hlower : cs.map Char.toLower = cs :=
    (List.map_congr_left fun c hc => toLower_of_isNumberChar (hchars c hc)).trans (List.map_id' cs)
  -- A sign or a letter in front would be read in another way.
  have hother {text : String} {c : Char} (hc : isNumberChar c = false) (hmem : c ∈ text.toList) :
      String.ofList cs ≠ text := by
    rintro rfl
    rw [String.toList_ofList] at hmem
    exact absurd (hchars c hmem) (by simp [hc])
  unfold Decimal.read?
  rw [String.toList_ofList]
  dsimp only
  split
  · exact absurd (hchars '-' List.mem_cons_self) (by decide)
  · exact absurd (hchars '+' List.mem_cons_self) (by decide)
  · simp only [hlower, Bool.false_eq_true, if_false]
    split
    next heq => exact absurd heq (hother (c := 'i') (by decide) (by decide))
    next heq => exact absurd heq (hother (c := 'i') (by decide) (by decide))
    next heq => exact absurd heq (hother (c := 'n') (by decide) (by decide))
    next => simp [unsigned?_eq_numberValue h]

/-! ## Units -/

theorem ofText?_isSome_iff (text : String) : (TimeUnit.ofText? text).isSome ↔ text ∈ unitTexts := by
  unfold TimeUnit.ofText? unitTexts
  split <;> simp_all

/-- No unit is empty, and none has a number character in it. -/
theorem unit_toList {unit : String} (h : unit ∈ unitTexts) :
    unit.toList ≠ [] ∧ ∀ c ∈ unit.toList, isNumberChar c = false := by
  have hall : ∀ unit ∈ unitTexts, unit.toList ≠ [] ∧ ∀ c ∈ unit.toList, isNumberChar c = false := by
    decide
  exact hall unit h

/-! ## The loop -/

/-- One component from the front of the text: what it adds to the sum, and the text behind it. -/
def readComponent (cs : List Char) : Except DurationFault (Float × List Char) :=
  let number := cs.takeWhile isNumberChar
  let behind := cs.dropWhile isNumberChar
  let unit := behind.takeWhile (!isNumberChar ·)
  if isNumber number then
    match Decimal.read? (String.ofList number) with
    | none => .error (.missingNumber (String.ofList cs))
    | some value =>
      if unit = [] then .error (.missingUnit (String.ofList number))
      else
        match TimeUnit.ofText? (String.ofList unit) with
        | none => .error (.unknownUnit (String.ofList unit))
        | some u => .ok (value * u.seconds, behind.dropWhile (!isNumberChar ·))
  else .error (.missingNumber (String.ofList cs))

/-- The first run of a text, and the runs behind it. -/
theorem runs_eq_cons (p : Char → Bool) {cs : List Char} (hne : cs.takeWhile p ≠ [])
    (hp : ∀ a b, (isNumberChar a == isNumberChar b) = (p a == p b)) :
    runs cs = cs.takeWhile p :: runs (cs.dropWhile p) := by
  have halike : (fun a b => isNumberChar a == isNumberChar b) = fun a b => p a == p b :=
    funext fun a => funext fun b => hp a b
  unfold runs
  rw [halike, ← Text.splitBy_append_run p hne (fun c hc => List.mem_takeWhile_imp hc) fun c hc => by
    simp [Text.head?_dropWhile_eq_false p cs c hc], List.takeWhile_append_dropWhile]

theorem runs_eq_cons_number {cs : List Char} (hne : cs.takeWhile isNumberChar ≠ []) :
    runs cs = cs.takeWhile isNumberChar :: runs (cs.dropWhile isNumberChar) :=
  runs_eq_cons isNumberChar hne fun _ _ => rfl

theorem runs_eq_cons_unit {cs : List Char} (hne : cs.takeWhile (!isNumberChar ·) ≠ []) :
    runs cs = cs.takeWhile (!isNumberChar ·) :: runs (cs.dropWhile (!isNumberChar ·)) :=
  runs_eq_cons (!isNumberChar ·) hne fun _ _ => by simp

/-- What is no number is reported with all that follows it. -/
theorem addComponents_of_not_isNumber (total : Float) {run : List Char} (h : isNumber run = false)
    (rest : List Char) :
    addComponents total (run :: runs rest) = .error (.missingNumber (String.ofList (run ++ rest))) := by
  have hflatten : (runs rest).flatten = rest := List.flatten_splitBy ..
  match hruns : runs rest with
  | [] =>
    rw [hruns, List.flatten_nil] at hflatten
    simp [addComponents, h, ← hflatten]
  | unit :: more =>
    rw [hruns] at hflatten
    simp [addComponents, h, ← hflatten]

theorem readComponent_of_not_isNumber {cs : List Char}
    (h : isNumber (cs.takeWhile isNumberChar) = false) :
    readComponent cs = .error (.missingNumber (String.ofList cs)) := by
  simp [readComponent, h]

/-- Behind a number it is for the unit to decide. -/
theorem readComponent_of_isNumber {cs : List Char}
    (h : isNumber (cs.takeWhile isNumberChar) = true) :
    readComponent cs =
      let unit := (cs.dropWhile isNumberChar).takeWhile (!isNumberChar ·)
      if unit = [] then .error (.missingUnit (String.ofList (cs.takeWhile isNumberChar)))
      else
        match TimeUnit.ofText? (String.ofList unit) with
        | none => .error (.unknownUnit (String.ofList unit))
        | some u => .ok (numberValue (cs.takeWhile isNumberChar) * u.seconds,
            (cs.dropWhile isNumberChar).dropWhile (!isNumberChar ·)) := by
  simp [readComponent, h, read?_eq_numberValue ((isNumber_iff _).mp h)]

/-- A component that is read is a number and a unit, which goes as far as the next number. -/
theorem readComponent_eq_ok_iff {cs rest : List Char} {x : Float} :
    readComponent cs = .ok (x, rest) ↔
      ∃ number unit u, Number number ∧ TimeUnit.ofText? unit = some u ∧
        cs = number ++ (unit.toList ++ rest) ∧ (∀ c ∈ rest.head?, isNumberChar c = true) ∧
        x = numberValue number * u.seconds := by
  constructor
  · intro h
    cases hnumber : isNumber (cs.takeWhile isNumberChar) with
    | false => simp [readComponent_of_not_isNumber hnumber] at h
    | true =>
      simp only [readComponent_of_isNumber hnumber] at h
      split at h
      · cases h
      split at h
      · cases h
      next u hunit =>
        cases h
        refine ⟨_, _, u, (isNumber_iff _).mp hnumber, hunit, ?_, ?_, rfl⟩
        · simp
        · simpa using Text.head?_dropWhile_eq_false (!isNumberChar ·) (cs.dropWhile isNumberChar)
  · rintro ⟨number, unit, u, hnumber, hunit, rfl, hrest, rfl⟩
    obtain ⟨hne, hchars⟩ := unit_toList ((ofText?_isSome_iff unit).mp (by simp [hunit]))
    have hbehind : ∀ c ∈ (unit.toList ++ rest).head?, isNumberChar c = false := by
      intro c hc
      rw [List.head?_append_of_ne_nil _ hne] at hc
      exact hchars c (List.mem_of_mem_head? hc)
    have htake := Text.takeWhile_run (isNumberChar_of_number hnumber) hbehind
    have hdrop := Text.dropWhile_run (isNumberChar_of_number hnumber) hbehind
    rw [readComponent_of_isNumber (by rw [htake]; exact (isNumber_iff _).mpr hnumber), htake, hdrop,
      Text.takeWhile_run (p := (!isNumberChar ·)) (by simpa using hchars) (by simpa using hrest),
      Text.dropWhile_run (p := (!isNumberChar ·)) (by simpa using hchars) (by simpa using hrest)]
    simp [hne, hunit]

/-- Each round takes text away. -/
theorem length_lt_of_readComponent {cs rest : List Char} {x : Float}
    (h : readComponent cs = .ok (x, rest)) : rest.length < cs.length := by
  obtain ⟨number, unit, u, hnumber, -, rfl, -, -⟩ := readComponent_eq_ok_iff.mp h
  have hpos := List.length_pos_of_ne_nil hnumber.ne_nil
  rw [List.length_append, List.length_append]
  omega

/-- Behind the number characters stands a character of another kind, or nothing. -/
theorem dropWhile_eq_nil_of_no_unit {cs : List Char}
    (h : (cs.dropWhile isNumberChar).takeWhile (!isNumberChar ·) = []) :
    cs.dropWhile isNumberChar = [] := by
  have hhead := Text.head?_dropWhile_eq_false isNumberChar cs
  match hbehind : cs.dropWhile isNumberChar with
  | [] => rfl
  | c :: _ =>
    have hc : isNumberChar c = false := hhead c (by simp [hbehind])
    simp [hbehind, hc] at h

/-- As long as there is text, a component is read from its front, and the loop goes on behind. -/
theorem addComponents_runs (total : Float) {cs : List Char} (hne : cs ≠ []) :
    addComponents total (runs cs) =
      readComponent cs >>= fun (x, rest) => addComponents (total + x) (runs rest) := by
  cases hnumber : isNumber (cs.takeWhile isNumberChar) with
  | true =>
    rw [runs_eq_cons_number ((isNumber_iff _).mp hnumber).ne_nil, readComponent_of_isNumber hnumber]
    by_cases hend : (cs.dropWhile isNumberChar).takeWhile (!isNumberChar ·) = []
    · rw [dropWhile_eq_nil_of_no_unit hend]
      simp only [runs, List.splitBy, addComponents, hnumber, List.takeWhile_nil, if_true]
      rfl
    · rw [runs_eq_cons_unit hend]
      simp only [addComponents, hnumber, hend, if_true, if_false]
      cases TimeUnit.ofText? (String.ofList ((cs.dropWhile isNumberChar).takeWhile (!isNumberChar ·))) with
      | none => rfl
      | some u => rfl
  | false =>
    rw [readComponent_of_not_isNumber hnumber]
    by_cases hempty : cs.takeWhile isNumberChar = []
    · -- The first run is no number, as it does not begin like one.
      have hunit : cs.takeWhile (!isNumberChar ·) ≠ [] := by
        cases cs with
        | nil => exact absurd rfl hne
        | cons c rest =>
          have hc : isNumberChar c = false := by simpa [List.takeWhile_cons] using hempty
          simp [hc]
      have hrun : isNumber (cs.takeWhile (!isNumberChar ·)) = false := by
        refine Bool.eq_false_iff.mpr fun h => ?_
        obtain ⟨c, hc⟩ := List.exists_mem_of_ne_nil _ hunit
        have hother := List.mem_takeWhile_imp (p := (!isNumberChar ·)) hc
        simp [isNumberChar_of_number ((isNumber_iff _).mp h) c hc] at hother
      rw [runs_eq_cons_unit hunit, addComponents_of_not_isNumber total hrun,
        List.takeWhile_append_dropWhile]
      rfl
    · rw [runs_eq_cons_number hempty, addComponents_of_not_isNumber total hnumber,
        List.takeWhile_append_dropWhile]
      rfl

/-- The loop never runs into the bounds of durations, they are met at its end. -/
theorem addComponents_ne_outOfRange (total : Float) (rs : List (List Char)) :
    addComponents total rs ≠ .error .outOfRange := by
  fun_induction addComponents total rs <;> simp_all

theorem Components.isNumberChar_head {cs : List Char} (h : Components cs) :
    ∀ c ∈ cs.head?, isNumberChar c = true := by
  have hnumber {number behind : List Char} (h : Number number) :
      ∀ c ∈ (number ++ behind).head?, isNumberChar c = true := by
    intro c hc
    rw [List.head?_append_of_ne_nil _ h.ne_nil] at hc
    exact isNumberChar_of_number h c (List.mem_of_mem_head? hc)
  cases h with
  | last h => exact hnumber h
  | cons h => exact hnumber h

/-- What is written as components the loop adds up. -/
theorem Components.addComponents_eq_ok {cs : List Char} (h : Components cs) (total : Float) :
    ∃ sum, addComponents total (runs cs) = .ok sum := by
  have hround {number rest : List Char} {unit : String} (total : Float) (hnumber : Number number)
      (hunit : unit ∈ unitTexts) (hrest : ∀ c ∈ rest.head?, isNumberChar c = true) :
      ∃ next, addComponents total (runs (number ++ (unit.toList ++ rest))) =
        addComponents next (runs rest) := by
    obtain ⟨u, hu⟩ := Option.isSome_iff_exists.mp ((ofText?_isSome_iff unit).mpr hunit)
    have hread := readComponent_eq_ok_iff.mpr ⟨number, unit, u, hnumber, hu, rfl, hrest, rfl⟩
    rw [addComponents_runs total (by simp [hnumber.ne_nil]), hread]
    exact ⟨_, rfl⟩
  induction h generalizing total with
  | @last number unit hnumber hunit =>
    obtain ⟨next, hnext⟩ := @hround number [] unit total hnumber hunit nofun
    rw [List.append_nil] at hnext
    exact ⟨next, hnext⟩
  | cons hnumber hunit more ih =>
    obtain ⟨next, hnext⟩ := hround total hnumber hunit more.isNumberChar_head
    rw [hnext]
    exact ih next

/-- What the loop adds up is written as components. -/
theorem components_of_addComponents {cs : List Char} {total sum : Float}
    (h : addComponents total (runs cs) = .ok sum) : cs = [] ∨ Components cs := by
  by_cases hne : cs = []
  · exact .inl hne
  right
  rw [addComponents_runs total hne] at h
  match hread : readComponent cs with
  | .error fault =>
    rw [hread] at h
    cases h
  | .ok (x, rest) =>
    rw [hread] at h
    have hshorter := length_lt_of_readComponent hread
    obtain ⟨number, unit, u, hnumber, hu, rfl, -, -⟩ := readComponent_eq_ok_iff.mp hread
    have hunit : unit ∈ unitTexts := (ofText?_isSome_iff unit).mp (by simp [hu])
    rcases components_of_addComponents h with rfl | more
    · rw [List.append_nil]
      exact .last hnumber hunit
    · exact .cons hnumber hunit more
termination_by cs.length

/-! ## Durations -/

theorem Components.ne_nil {cs : List Char} (h : Components cs) : cs ≠ [] := by
  cases h with
  | last hnumber => simp [hnumber.ne_nil]
  | cons hnumber => simp [hnumber.ne_nil]

/-- A text of the language is a duration, or it writes one that is too long. -/
theorem written_iff (text : String) :
    Written text.toList ↔ (∃ d, parse text = .ok d) ∨ parse text = .error .outOfRange := by
  unfold parse
  split_ifs with hempty hzero
  · subst hempty
    refine iff_of_false ?_ (by simp)
    rintro (h | h)
    · exact absurd h (by decide)
    · exact h.ne_nil rfl
  · subst hzero
    exact iff_of_true (.inl rfl) (.inl ⟨_, rfl⟩)
  have hlist : text.toList ≠ [] ∧ text.toList ≠ ['0'] :=
    ⟨fun h => hempty (String.toList_injective h), fun h => hzero (String.toList_injective h)⟩
  cases hsum : addComponents 0.0 (runs text.toList) with
  | error fault =>
    refine iff_of_false ?_ ?_
    · rintro (h | h)
      · exact hlist.2 h
      · obtain ⟨sum, h⟩ := h.addComponents_eq_ok 0.0
        rw [hsum] at h
        cases h
    · rintro (⟨d, h⟩ | h)
      · cases h
      · cases h
        exact addComponents_ne_outOfRange _ _ hsum
  | ok sum =>
    refine iff_of_true (.inr ((components_of_addComponents hsum).resolve_left hlist.1)) ?_
    cases hd : ofSeconds? sum with
    | none => exact .inr (by simp [hd])
    | some d => exact .inl ⟨d, by simp [hd]⟩

/-- The texts that are refused for their form are those outside of the language.  The loop
comes to an end on all of them, since each round takes text away, and none of its rounds fails
at the value of a number. -/
theorem parse_recognizes (text : String) :
    ((∃ fault, fault ≠ .outOfRange ∧ parse text = .error fault) ↔ ¬Written text.toList) ∧
    (Written text.toList ↔ (∃ d, parse text = .ok d) ∨ parse text = .error .outOfRange) ∧
    (∀ total cs, cs ≠ [] → addComponents total (runs cs) =
      readComponent cs >>= fun (x, rest) => addComponents (total + x) (runs rest)) ∧
    (∀ cs x rest, readComponent cs = .ok (x, rest) → rest.length < cs.length) ∧
    ∀ number, isNumber number = true →
      Decimal.read? (String.ofList number) = some (numberValue number) := by
  refine ⟨?_, written_iff text, fun total cs => addComponents_runs total,
    fun cs x rest => length_lt_of_readComponent,
    fun number h => read?_eq_numberValue ((isNumber_iff number).mp h)⟩
  rw [written_iff]
  cases parse text with
  | ok d => simp
  | error fault => simp

/-- Hours and minutes are read in two rounds. -/
theorem parse_recognizes_hours_minutes :
    Written "1h30m".toList ∧
    ((∃ d, parse "1h30m" = .ok d) ∨ parse "1h30m" = .error .outOfRange) ∧
    (∃ x, readComponent "1h30m".toList = .ok (x, "30m".toList)) ∧
    "30m".toList.length < "1h30m".toList.length ∧ isNumber ['3', '0'] = true ∧
    Decimal.read? (String.ofList ['3', '0']) = some (numberValue ['3', '0']) := by
  obtain ⟨-, hwritten, -, hshorter, hvalue⟩ := parse_recognizes "1h30m"
  have one : isNumber ['1'] = true := by decide
  have thirty : isNumber ['3', '0'] = true := by decide
  have minutes : Components "30m".toList :=
    @Components.last _ "m" ((isNumber_iff _).mp thirty) (by decide)
  have whole : Written "1h30m".toList :=
    .inr (@Components.cons _ _ "h" ((isNumber_iff _).mp one) (by decide) minutes)
  have hread : readComponent "1h30m".toList =
      .ok (numberValue ['1'] * TimeUnit.hour.seconds, "30m".toList) :=
    readComponent_eq_ok_iff.mpr
      ⟨['1'], "h", .hour, (isNumber_iff _).mp one, rfl, by decide, minutes.isNumberChar_head, rfl⟩
  exact ⟨whole, hwritten.mp whole, ⟨_, hread⟩, hshorter _ _ _ hread, thirty, hvalue _ thirty⟩

end ServiceLang.Duration
