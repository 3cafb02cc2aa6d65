import ServiceLang.Proofs.Check.WellFormedEndpoint
import ServiceLang.Proofs.Grammar.Numeral
import ServiceLang.Proofs.Parse.Written

/-!
The digits of rate limits and versions.

The grammars read numbers in ASCII digits, but the checks of `@rate_limit` and `@version`
take decimal digits of all scripts, and a quoted value may hold any of them.  A checked value
is written as the grammars write numbers exactly if all its digits are native
(`Program.annotation_numerals`).
-/

namespace ServiceLang

/-! ## Native digits -/

/-- No character is a decimal digit of another script than ASCII's. -/
def Text.Native (cs : List Char) : Prop := ∀ c ∈ cs, isDecimalDigit c = true → c.isDigit = true

/-- Groups of ASCII digits with points between them, perhaps behind a `v`. -/
def NativeVersion (cs : List Char) : Prop :=
  Text.Joined '.' Decimal.IsDigits cs ∨
    ∃ numbers, cs = 'v' :: numbers ∧ Text.Joined '.' Decimal.IsDigits numbers

namespace Text

theorem native_cons_of_not_digit {c : Char} (hc : isDecimalDigit c = false) (cs : List Char) :
    Native (c :: cs) ↔ Native cs := by
  simp [Native, hc]

theorem native_append (cs ds : List Char) : Native (cs ++ ds) ↔ Native cs ∧ Native ds := by
  simp only [Native, List.mem_append, or_imp, forall_and]

end Text

open Text

theorem Decimal.IsDigits.native {cs : List Char} (h : Decimal.IsDigits cs) : Native cs :=
  fun c hc _ => h.2 c hc

theorem DecimalDigits.native_iff {cs : List Char} (h : DecimalDigits cs) :
    Decimal.IsDigits cs ↔ Native cs :=
  ⟨fun hcs => hcs.native, fun hcs => ⟨h.1, fun c hc => hcs c hc (h.2 c hc)⟩⟩

theorem Decimal.Numeral.native {cs : List Char} (h : Decimal.Numeral cs) : Native cs := by
  cases h with
  | whole h => exact h.native
  | fraction h hmore =>
    rw [native_append, native_cons_of_not_digit (by decide)]
    exact ⟨h.native, hmore.native⟩

theorem UnsignedNumeric.native_iff {cs : List Char} (h : UnsignedNumeric cs) :
    Decimal.Numeral cs ↔ Native cs := by
  refine ⟨fun hcs => hcs.native, fun hcs => ?_⟩
  cases h with
  | whole h => exact .whole (h.native_iff.2 hcs)
  | fraction h hmore =>
    rw [native_append, native_cons_of_not_digit (by decide)] at hcs
    exact .fraction (h.native_iff.2 hcs.1) (hmore.native_iff.2 hcs.2)

theorem Text.Joined.native {cs : List Char} (h : Joined '.' Decimal.IsDigits cs) : Native cs := by
  induction h with
  | last h => exact h.native
  | cons h _ ih =>
    rw [native_append, native_cons_of_not_digit (by decide)]
    exact ⟨h.native, ih⟩

theorem Text.Joined.native_iff {cs : List Char} (h : Joined '.' DecimalDigits cs) :
    Joined '.' Decimal.IsDigits cs ↔ Native cs := by
  refine ⟨fun hcs => hcs.native, fun hcs => ?_⟩
  induction h with
  | last h => exact .last (h.native_iff.2 hcs)
  | cons h _ ih =>
    rw [native_append, native_cons_of_not_digit (by decide)] at hcs
    exact .cons (h.native_iff.2 hcs.1) (ih hcs.2)

/-- With a mark in front or without, the texts of a language are those of the one in ASCII
digits if their digits are native. -/
theorem Text.native_iff_of_marked {mark : Char} (hmark : isDecimalDigit mark = false)
    {P Q : List Char → Prop} (hnative : ∀ {ds}, Q ds → Native ds)
    (hiff : ∀ {ds}, P ds → (Q ds ↔ Native ds)) {cs : List Char}
    (h : P cs ∨ ∃ ds, cs = mark :: ds ∧ P ds) :
    (Q cs ∨ ∃ ds, cs = mark :: ds ∧ Q ds) ↔ Native cs := by
  constructor
  · rintro (hcs | ⟨ds, rfl, hds⟩)
    · exact hnative hcs
    · exact (native_cons_of_not_digit hmark ds).2 (hnative hds)
  · intro hcs
    obtain h | ⟨ds, rfl, h⟩ := h
    · exact .inl ((hiff h).2 hcs)
    · exact .inr ⟨ds, rfl, (hiff h).2 ((native_cons_of_not_digit hmark ds).1 hcs)⟩

theorem Numeric.native_iff {cs : List Char} (h : Numeric cs) :
    Decimal.SignedNumeral cs ↔ Native cs :=
  native_iff_of_marked (by decide) Decimal.Numeral.native UnsignedNumeric.native_iff h

theorem Version.native_iff {cs : List Char} (h : Version cs) : NativeVersion cs ↔ Native cs :=
  native_iff_of_marked (by decide) Joined.native Joined.native_iff h

/-! ## Checked programs -/

/-- In a program without diagnostics every endpoint is well formed. -/
theorem Program.endpointFits_of_valid {p : Program} {registry : Registry}
    (hvalid : p.diagnostics registry = []) {e : Endpoint} (he : e ∈ p.endpoints) :
    e.Fits p registry := by
  have hfound := (List.append_eq_nil_iff.1 (List.append_eq_nil_iff.1
    (List.append_eq_nil_iff.1 (List.map_eq_nil_iff.1 hvalid)).1).1).2
  exact ((eachAfter_eq_nil_iff_nodup (fun e => (e.method, e.path)) _ (fun earlier e =>
    e.findings_eq_nil_iff p registry earlier) p.endpoints).1 (List.map_eq_nil_iff.1 hfound)).2 e he

/-- In a program without diagnostics, under any registry, every rate limit is a numeral and
every version is numbers with points between them, in the decimal digits of any scripts.  The
rate limit is a number of the language, and the version one in ASCII digits, exactly if it has
no digit of another script. -/
theorem Program.annotation_numerals {p : Program} {registry : Registry}
    (hvalid : p.diagnostics registry = []) {e : Endpoint} (he : e ∈ p.endpoints)
    {a : AnnotationSpec} (ha : a ∈ e.annotations) :
    (a.name = "rate_limit" → ∃ value ∈ a.value, Numeric value.toList ∧
      (Decimal.SignedNumeral value.toList ↔ Native value.toList)) ∧
    (a.name = "version" → ∃ value ∈ a.value, Version value.toList ∧
      (NativeVersion value.toList ↔ Native value.toList)) := by
  have hfits := (p.endpointFits_of_valid hvalid he).annotations a ha
  constructor
  · intro hname
    obtain ⟨value, hvalue, h⟩ := hfits.rateLimit hname
    exact ⟨value, hvalue, h, h.native_iff⟩
  · intro hname
    obtain ⟨value, hvalue, h⟩ := hfits.version hname
    exact ⟨value, hvalue, h, h.native_iff⟩

/-- The program has no diagnostics under the registry, and an endpoint with the annotation. -/
structure Program.Allows (p : Program) (registry : Registry) (name value : String) : Prop where
  valid : p.diagnostics registry = []
  annotated : ∃ e ∈ p.endpoints, ∃ a ∈ e.annotations, a.name = name ∧ a.value = some value

namespace Source

/-- A source that is found to be accepted with the annotation is parsed to a program that allows
it. -/
theorem exists_allows (s : Source) (registry : Registry) (name value : String)
    (h : s.parse.toOption.any fun p => (p.diagnostics registry).isEmpty &&
      p.endpoints.any fun e => e.annotations.any fun a => a.name = name && a.value = some value) :
    ∃ p, s.parse = .ok p ∧ p.Allows registry name value := by
  obtain ⟨p, hp, h⟩ := exists_ok_of_any h
  obtain ⟨hvalid, h⟩ := Bool.and_eq_true_iff.1 h
  refine ⟨p, hp, List.isEmpty_iff.1 hvalid, ?_⟩
  simpa using h

end Source

theorem Program.annotation_numerals_signed :
    let s : Source := ⟨"", "@rate_limit(\"-1.5\") @version(\"v1.2\") endpoint GET \"/\" \x7b\x7d".toList⟩
    ∃ p, s.parse = .ok p ∧ p.diagnostics .unrestricted = [] ∧
      ∃ e ∈ p.endpoints, ∃ a ∈ e.annotations, a.name = "rate_limit" ∧
        ∃ value ∈ a.value, Decimal.SignedNumeral value.toList := by
  intro s
  obtain ⟨p, hp, hvalid, e, he, a, ha, hname, hvalue⟩ :=
    s.exists_allows .unrestricted "rate_limit" "-1.5" (by decide +kernel)
  obtain ⟨value, hmem, -, hiff⟩ := (annotation_numerals hvalid he ha).1 hname
  obtain rfl : "-1.5" = value := Option.some.inj (hvalue.symm.trans hmem)
  exact ⟨p, hp, hvalid, e, he, a, ha, hname, _, hvalue, hiff.2 (by unfold Native; decide)⟩

/-- A rate limit in Arabic digits is found nothing wrong with, though no number of the language
is written so. -/
theorem Program.rate_limit_in_foreign_digits :
    let s : Source := ⟨"", "@rate_limit(\"٣\") endpoint GET \"/\" \x7b\x7d".toList⟩
    ∃ p, s.parse = .ok p ∧ p.diagnostics .unrestricted = [] ∧
      ∃ e ∈ p.endpoints, ∃ a ∈ e.annotations, a.name = "rate_limit" ∧ a.value = some "٣" ∧
        ¬Decimal.SignedNumeral "٣".toList := by
  intro s
  obtain ⟨p, hp, hvalid, e, he, a, ha, hname, hvalue⟩ :=
    s.exists_allows .unrestricted "rate_limit" "٣" (by decide +kernel)
  refine ⟨p, hp, hvalid, e, he, a, ha, hname, hvalue, fun h => ?_⟩
  have hnumeric : Numeric "٣".toList := (isNumeric_iff _).1 (by decide)
  exact absurd (hnumeric.native_iff.1 h) (by unfold Native; decide)

end ServiceLang
