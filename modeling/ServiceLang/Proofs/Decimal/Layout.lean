import ServiceLang.Decimal.Layout

/-!
The texts of numbers are numerals.

A finite number without a sign is printed as digits, and a fraction if it is not
whole (`exists_numeral_of_plain`): just what the language takes for a number.
-/

namespace ServiceLang.Decimal

/-- The value is finite and its sign bit is clear. -/
def isUnsigned (x : Float) : Bool :=
  match Binary.ofFloat? x with
  | some b => !b.negative
  | none => false

def IsDigits (cs : List Char) : Prop := cs ≠ [] ∧ ∀ c ∈ cs, c.isDigit

/-- Digits, and a fraction after a point or none. -/
inductive Numeral : List Char → Prop
  | whole {ds : List Char} : IsDigits ds → Numeral ds
  | fraction {ds fs : List Char} : IsDigits ds → IsDigits fs → Numeral (ds ++ '.' :: fs)

theorem IsDigits.append {ds es : List Char} (h : IsDigits ds) (h2 : ∀ c ∈ es, c.isDigit) :
    IsDigits (ds ++ es) := by
  refine ⟨by simp [h.1], fun c hc => ?_⟩
  rcases List.mem_append.1 hc with hc | hc
  · exact h.2 c hc
  · exact h2 c hc

theorem isDigit_of_mem_zeros {n : Nat} {c : Char} (h : c ∈ (zeros n).toList) : c.isDigit := by
  rw [zeros, String.toList_ofList] at h
  rw [List.eq_of_mem_replicate h]
  rfl

theorem isDigits_toString (n : Nat) : IsDigits (toString n).toList := by
  rw [Nat.toString_eq_repr, Nat.toList_repr]
  exact ⟨Nat.toDigits_ne_nil, fun c hc => Nat.isDigit_of_mem_toDigits (by decide) (by decide) hc⟩

/-- Digits with a point somewhere are a numeral. -/
theorem numeral_positional {digits : String} (h : IsDigits digits.toList) (point : Int) :
    Numeral (positional digits point).toList := by
  have zero : IsDigits ['0'] := ⟨by simp, by simp⟩
  unfold positional
  split
  · next p =>
    split
    · simpa using Numeral.fraction zero h
    split
    · rw [String.toList_append]
      exact .whole (h.append fun c hc => isDigit_of_mem_zeros hc)
    · next hp hlt =>
      have hlen : p < digits.toList.length := by
        rw [String.length_toList]
        exact Nat.lt_of_not_le hlt
      have before : IsDigits (digits.toList.take p) :=
        ⟨by simp [hp, h.1], fun c hc => h.2 c (List.mem_of_mem_take hc)⟩
      have behind : IsDigits (digits.toList.drop p) :=
        ⟨by simpa using hlen, fun c hc => h.2 c (List.mem_of_mem_drop hc)⟩
      simpa using Numeral.fraction before behind
  · next p =>
    have behind : IsDigits ((zeros (p + 1)).toList ++ digits.toList) := by
      refine ⟨by simp [h.1], fun c hc => ?_⟩
      rcases List.mem_append.1 hc with hc | hc
      · exact isDigit_of_mem_zeros hc
      · exact h.2 c hc
    simpa using Numeral.fraction zero behind

/-- An unsigned number is printed as a numeral. -/
theorem numeral_plain {x : Float} (h : isUnsigned x) : Numeral (plain x).toList := by
  unfold isUnsigned at h
  unfold plain
  cases hb : Binary.ofFloat? x with
  | none => rw [hb] at h; cases h
  | some b =>
    rw [hb] at h
    have hsign : signText b.negative = "" := by simpa [signText] using h
    dsimp only
    rw [hsign]
    split
    · simpa using Numeral.whole ⟨by simp, by simp⟩
    · simpa using numeral_positional (isDigits_toString _) _

end ServiceLang.Decimal
