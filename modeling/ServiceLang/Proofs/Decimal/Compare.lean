import Mathlib
import ServiceLang.Proofs.Decimal.Literal

/-!
Equal numbers.

Numbers are compared by what their bits stand for, not by the bits.  Only two things can then be
equal without being the same, or the same without being equal: there are two zeros, and
not-a-number is not even equal to itself.  Apart from these, equal numbers are the same
(`IsOrdinary.beq_iff`), since the parts of the bits can be read off what they stand for
(`partsOf_unpack`).
-/

namespace ServiceLang.Decimal

open Float.Model UnpackedFloat

/-! ## Bits -/

section

variable {b c : BitVec Format.binary64.numBits}

/-- Sign, exponent and mantissa make up a value. -/
theorem eq_of_parts_eq (hsign : Sign.ofBitVec (unpackSign b) = Sign.ofBitVec (unpackSign c))
    (hexponent : (unpackExponent b).toNat = (unpackExponent c).toNat)
    (hmantissa : (unpackMantissa b).toNat = (unpackMantissa c).toNat) : b = c := by
  have hsign : (unpackSign b).toNat = (unpackSign c).toNat := by
    rcases BitVec.eq_zero_or_eq_one (unpackSign b) with hb | hb <;>
      rcases BitVec.eq_zero_or_eq_one (unpackSign c) with hc | hc <;>
      simp_all [Sign.ofBitVec]
  simp only [unpackSign, unpackExponent, unpackMantissa, BitVec.toNat_cast, BitVec.extractLsb_toNat,
    Nat.shiftRight_eq_div_pow, Nat.reduceAdd, Nat.reduceSub, Nat.reducePow] at hsign hexponent hmantissa
  have hb : b.toNat < 2 ^ 64 := b.isLt
  have hc : c.toNat < 2 ^ 64 := c.isLt
  refine BitVec.eq_of_toNat_eq ?_
  omega

/-- The sign, the exponent field and the mantissa field of what stands for a value.  Mantissas
with a leading bit above the field are those of normal values. -/
def partsOf : UnpackedFloat → Sign × Nat × Nat
  | .notANumber => (.positive, 2047, 1)
  | .infinity s => (s, 2047, 0)
  | .zero s => (s, 0, 0)
  | .finite s m e _ => if m < 2 ^ 52 then (s, 0, m) else (s, (e + 1075).toNat, m - 2 ^ 52)

theorem toNat_leadingBit_append (m : BitVec 52) : (1#1 ++ m).toNat = 2 ^ 52 + m.toNat := by
  rw [BitVec.toNat_append, Nat.shiftLeft_eq]
  exact (Nat.two_pow_add_eq_or_of_lt m.isLt 1).symm

theorem partsOf_unpack (h : UnpackedFloat.unpack Format.binary64 b ≠ .notANumber) :
    partsOf (UnpackedFloat.unpack Format.binary64 b) =
      (Sign.ofBitVec (unpackSign b), (unpackExponent b).toNat, (unpackMantissa b).toNat) := by
  have hmantissa : (unpackMantissa b).toNat < 2 ^ 52 := (unpackMantissa b).isLt
  unfold UnpackedFloat.unpack at h ⊢
  dsimp only at h ⊢
  split
  · next he =>
    rw [if_pos he] at h
    split
    · next hm => rw [he, hm]; rfl
    · next hm => exact absurd (if_neg hm) h
  split
  · next he =>
    split
    · next hm => rw [he, hm]; rfl
    · rw [partsOf, if_pos hmantissa, he]; rfl
  · have hexponent : (((unpackExponent b).toNat : Int) - 1075 + 1075).toNat = (unpackExponent b).toNat := by
      omega
    have hbias : ((Format.binary64.exponentBias : Int) + (Format.binary64.mantissaBitsWithoutImplicit : Int)) =
        1075 := rfl
    rw [partsOf, toNat_leadingBit_append, if_neg (by omega), hbias, hexponent, Nat.add_sub_cancel_left]

/-- What bits stand for determines them, unless they stand for nothing. -/
theorem eq_of_unpack_eq (h : UnpackedFloat.unpack Format.binary64 b = UnpackedFloat.unpack Format.binary64 c)
    (hb : UnpackedFloat.unpack Format.binary64 b ≠ .notANumber) : b = c := by
  have hparts := congrArg partsOf h
  rw [partsOf_unpack hb, partsOf_unpack (h ▸ hb)] at hparts
  obtain ⟨hsign, hexponent, hmantissa⟩ : _ ∧ _ ∧ _ := by simpa using hparts
  exact eq_of_parts_eq hsign hexponent hmantissa

end

/-! ## Numbers -/

/-- A number that is equal to nothing but itself: neither not-a-number nor the negative zero. -/
structure IsOrdinary (x : Float) : Prop where
  isNumber : x.isNaN = false
  ne_negativeZero : x ≠ -0.0

instance (x : Float) : Decidable (IsOrdinary x) :=
  decidable_of_iff (x.isNaN = false ∧ x ≠ -0.0) ⟨fun h => ⟨h.1, h.2⟩, fun h => ⟨h.1, h.2⟩⟩

theorem eq_of_toModel_unpack_eq {x y : Float} (hx : ¬IsNothing x)
    (h : x.toModel.unpack = y.toModel.unpack) : x = y := by
  obtain ⟨⟨⟨b⟩, _⟩⟩ := x
  obtain ⟨⟨⟨c⟩, _⟩⟩ := y
  obtain rfl : b = c := eq_of_unpack_eq h hx
  rfl

/-- Values that compare as equal are the same, unless they are zeros. -/
theorem eq_of_compare_eq {u v : UnpackedFloat} (h : u.compare v = some .eq)
    (hzero : ∀ s t, u = .zero s → v = .zero t → s = t) : u = v := by
  have sign {s t : Sign} (h : compare s t = .eq) : s = t := by
    cases s <;> cases t <;> first | rfl | cases h
  have finite {e e' : Int} {m m' : Nat} (h : (compare e e').then (compare m m') = .eq) : e = e' ∧ m = m' := by
    simpa [Ordering.then_eq_eq] using h
  cases u with
  | notANumber => cases h
  | infinity s =>
    cases v with
    | infinity t => rw [sign (Option.some.inj h)]
    | _ => cases s <;> cases h
  | zero s =>
    cases v with
    | zero t => rw [hzero s t rfl rfl]
    | infinity t => cases t <;> cases h
    | finite t => cases t <;> cases h
    | notANumber => cases h
  | finite s m e hm =>
    cases v with
    | finite t m' e' hm' =>
      cases s with
      | positive =>
        cases t with
        | positive =>
          obtain ⟨rfl, rfl⟩ := finite (Option.some.inj h)
          rfl
        | negative => cases h
      | negative =>
        cases t with
        | positive => cases h
        | negative =>
          obtain ⟨rfl, rfl⟩ := finite (Ordering.swap_eq_eq.1 (Option.some.inj h))
          rfl
    | infinity t => cases s <;> cases t <;> cases h
    | zero t => cases s <;> cases h
    | notANumber => cases s <;> cases h

namespace IsOrdinary

variable {x y : Float}

theorem not_isNothing (h : IsOrdinary x) : ¬IsNothing x := by
  intro hx
  have hnan : x.isNaN = x.toModel.unpack.isNaN := rfl
  have := h.isNumber
  rw [hnan, hx] at this
  cases this

theorem unpack_ne_negativeZero (h : IsOrdinary x) : x.toModel.unpack ≠ .zero .negative := by
  intro hx
  have hzero : (-0.0 : Float).toModel.unpack = .zero .negative := by rfl
  exact h.ne_negativeZero (eq_of_toModel_unpack_eq h.not_isNothing (hx.trans hzero.symm))

/-- Ordinary numbers are equal just if they are the same. -/
theorem beq_iff (hx : IsOrdinary x) (hy : IsOrdinary y) : (x == y) = true ↔ x = y := by
  constructor
  · intro h
    have h : (x.toModel.unpack.compare y.toModel.unpack == some .eq) = true := h
    refine eq_of_toModel_unpack_eq hx.not_isNothing (eq_of_compare_eq (beq_iff_eq.1 h) fun s t hs ht => ?_)
    cases s with
    | negative => exact absurd hs hx.unpack_ne_negativeZero
    | positive =>
      cases t with
      | negative => exact absurd ht hy.unpack_ne_negativeZero
      | positive => rfl
  · rintro rfl
    exact (beq_self_iff x).2 hx.not_isNothing

end IsOrdinary

end ServiceLang.Decimal
