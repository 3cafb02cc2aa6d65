/-!
Binary64 values taken apart.

A finite value is a sign, a whole number and a power of two.  The neighbours of a
value are what its shortest decimal depends on: below a power of two the distance
to the next smaller value is half of that to the next larger one.
-/

namespace ServiceLang.Decimal

/-- A finite binary64 value: `significand * 2 ^ exponent`, negated or not. -/
structure Binary where
  negative : Bool
  significand : Nat
  exponent : Int
  /-- The next smaller magnitude is only half as far away as the next larger one. -/
  lopsided : Bool
deriving DecidableEq, Repr

/-- The weight of the bit that normal values leave unwritten, above the 52 bits of the
fraction field. -/
def leadingBit : Nat := Nat.pow 2 52

/-- The number of different exponent fields. -/
def exponentFields : Nat := Nat.pow 2 11

/-- The sign bit, the exponent field and the fraction field of a value. -/
def fieldsOf (x : Float) : Bool × Nat × Nat :=
  let bits := x.toBits.toNat
  (bits / leadingBit / exponentFields = 1, bits / leadingBit % exponentFields, bits % leadingBit)

/-- The parts of a finite value; infinities and not-a-number have none. -/
def Binary.ofFloat? (x : Float) : Option Binary :=
  match fieldsOf x with
  | (_, 2047, _) => none
  | (negative, 0, fraction) => some ⟨negative, fraction, -1074, false⟩
  | (negative, field, fraction) =>
    some ⟨negative, leadingBit + fraction, (field : Int) - 1075, fraction = 0 && field ≠ 1⟩

/-- A fraction of natural numbers. -/
structure Ratio where
  num : Nat
  den : Nat

/-- A quarter of the unit in which the significand counts.  The value and the points half
way to its neighbours are whole multiples of it. -/
def Binary.quarterUnit (b : Binary) : Ratio :=
  match b.exponent - 2 with
  | .ofNat e => ⟨Nat.pow 2 e, 1⟩
  | .negSucc e => ⟨1, Nat.pow 2 (e + 1)⟩

end ServiceLang.Decimal
