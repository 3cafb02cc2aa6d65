import ServiceLang.Grammar.Endpoint
import ServiceLang.Grammar.Flow
import ServiceLang.Grammar.Main
import ServiceLang.Proofs.Grammar.Lexeme
import ServiceLang.Proofs.Peg.Depth

/-!
Numbers of parse trees are numerals.

At all depths of a tree the text of a number is digits and perhaps a fraction, in flows
behind a minus sign or without one (`numeral_of_parse`).  So reading it never fails.
-/

namespace ServiceLang

open Peg

variable {R : Type} {g : Grammar R}

/-! ## Numerals -/

/-- A numeral, or one behind a minus sign. -/
def Decimal.SignedNumeral (cs : List Char) : Prop := Numeral cs ∨ ∃ ds, cs = '-' :: ds ∧ Numeral ds

theorem Peg.Derives.isDigits {sep : Bool} {mode : Mode} {c d : Cursor} {nodes : List (ParseTree R)}
    (h : Derives g sep (.some (.oneOf .digit)) mode c nodes d) (hm : mode.spacing ≠ .free) :
    ∃ k, c.Passes k d ∧ Decimal.IsDigits k := by
  have hdigits : ∀ cls x, decide (cls = CharClass.digit) → cls.contains x → x.isDigit := by
    intro cls x hcls hx
    rw [of_decide_eq_true hcls] at hx
    exact hx
  obtain ⟨-, k, hpass, hall⟩ := h.reads (decide <| · = .digit) Char.isDigit hdigits hm 0 rfl
  refine ⟨k, hpass, ?_, hall⟩
  rintro rfl
  obtain ⟨-, -, -, -, hlt⟩ := h.exists_first [] 0 rfl
  rw [hpass.eq_of_nil] at hlt
  exact Nat.lt_irrefl _ hlt

theorem Peg.Derives.numeral {sep : Bool} {mode : Mode} {c d : Cursor} {nodes : List (ParseTree R)}
    (h : Derives g sep Lexeme.unsignedNumber mode c nodes d) (hm : mode.spacing ≠ .free) :
    ∃ k, c.Passes k d ∧ Decimal.Numeral k := by
  obtain ⟨_, e, _, -, hwhole, hfraction⟩ := h.of_tight hm
  obtain ⟨ds, hds, hdigits⟩ := hwhole.isDigits hm
  cases hfraction with
  | without => exact ⟨ds, hds, .whole hdigits⟩
  | «with» hfraction =>
    obtain ⟨_, f, _, -, hpoint, hfraction⟩ := hfraction.of_tight hm
    obtain ⟨fs, hfs, hmore⟩ := hfraction.isDigits hm
    cases hpoint with
    | literal hpoint => exact ⟨ds ++ ('.' :: fs), hds.append ((Cursor.passes_of_strip? hpoint).append hfs),
        .fraction hdigits hmore⟩

/-- A number without a sign is a numeral. -/
theorem Peg.IsDerived.numeral {t : ParseTree R} (h : IsDerived g t)
    (hr : g.definition t.rule = ⟨.token, Lexeme.unsignedNumber⟩) : Decimal.Numeral t.text := by
  obtain ⟨mode, e, f, heq, hderives⟩ := h
  rw [hr] at hderives
  obtain ⟨k, hpass, hnumeral⟩ := hderives.numeral (show Spacing.sealed ≠ .free by decide)
  rw [heq, ParseTree.text_of_passes hpass]
  exact hnumeral

/-- A number with or without a sign is a numeral, perhaps behind a minus sign. -/
theorem Peg.IsDerived.signedNumeral {t : ParseTree R} (h : IsDerived g t)
    (hr : g.definition t.rule =
      ⟨.token, .andThen (.optional (.literal "-")) Lexeme.unsignedNumber⟩) :
    Decimal.SignedNumeral t.text := by
  have sealed : Spacing.sealed ≠ .free := by decide
  obtain ⟨mode, e, f, heq, hderives⟩ := h
  rw [hr] at hderives
  obtain ⟨_, i, _, -, hsign, hnumber⟩ := hderives.of_tight sealed
  obtain ⟨k, hpass, hnumeral⟩ := hnumber.numeral sealed
  cases hsign with
  | without =>
    rw [heq, ParseTree.text_of_passes hpass]
    exact .inl hnumeral
  | «with» hsign =>
    cases hsign with
    | literal hsign =>
      rw [heq, ParseTree.text_of_passes ((Cursor.passes_of_strip? hsign).append hpass)]
      exact .inr ⟨k, rfl, hnumeral⟩

/-! ## Parsed texts -/

section

variable {text : List Char}

theorem MainGrammar.numeral_of_parse {r : Rule} {trees : List (ParseTree Rule)}
    (h : grammar.parse r text = .ok trees) : ∀ u ∈ ParseTree.nodesAll trees,
      u.rule = .lexeme .number → Decimal.Numeral u.text :=
  fun u hu hr => (isDerived_of_parse h u hu).numeral (by rw [hr]; rfl)

theorem EndpointGrammar.numeral_of_parse {r : Rule} {trees : List (ParseTree Rule)}
    (h : grammar.parse r text = .ok trees) : ∀ u ∈ ParseTree.nodesAll trees,
      u.rule = .lexeme .number → Decimal.Numeral u.text :=
  fun u hu hr => (isDerived_of_parse h u hu).numeral (by rw [hr]; rfl)

theorem FlowGrammar.signedNumeral_of_parse {r : Rule} {trees : List (ParseTree Rule)}
    (h : grammar.parse r text = .ok trees) : ∀ u ∈ ParseTree.nodesAll trees,
      u.rule = .signedNumber → Decimal.SignedNumeral u.text :=
  fun u hu hr => (isDerived_of_parse h u hu).signedNumeral (by rw [hr]; rfl)

end

end ServiceLang
