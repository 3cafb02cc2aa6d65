import ServiceLang.Decimal.Binary

/-!
The shortest decimal that reads back.

The reals that round to a binary64 value form an interval, with its ends if the
significand is even.  For one digit, two digits and so on, the two neighbours of
the value on the grid of decimals with that many digits are tried; the first grid
with a neighbour in the interval wins, and of two neighbours the nearer.  How an
exact tie goes is left to the format.
-/

namespace ServiceLang.Decimal

/-- Which of two equally near decimals is taken. -/
inductive Tie where
  | up
  | toEven
deriving DecidableEq, Repr

/-- A decimal `digits * 10 ^ exponent`. -/
structure Scaled where
  digits : Nat
  exponent : Int
deriving DecidableEq, Repr

/-- The number of decimal digits; zero has none. -/
def digitCount (n : Nat) : Nat := if n = 0 then 0 else (Nat.toDigits 10 n).length

/-- The exponent of the leading decimal digit of a positive ratio. -/
def leadingExponent (r : Ratio) : Int :=
  if r.den ≤ r.num then (digitCount (r.num / r.den) : Int) - 1
  else -(digitCount ((r.den + r.num - 1) / r.num - 1) : Int)

/-- The ratio in units of `10 ^ k`. -/
def Ratio.inUnits (r : Ratio) (k : Int) : Ratio :=
  match k with
  | .ofNat k => ⟨r.num, r.den * Nat.pow 10 k⟩
  | .negSucc k => ⟨r.num * Nat.pow 10 (k + 1), r.den⟩

/-- Tries the grid of multiples of `10 ^ k`. -/
def tryGrid (tie : Tie) (b : Binary) (k : Int) : Option Scaled :=
  let unit := b.quarterUnit.inUnits k
  let value := 4 * b.significand * unit.num
  let lower := (4 * b.significand - if b.lopsided then 1 else 2) * unit.num
  let upper := (4 * b.significand + 2) * unit.num
  let inside (d : Nat) : Bool :=
    let x := d * unit.den
    if b.significand % 2 = 0 then lower ≤ x && x ≤ upper else lower < x && x < upper
  let below := value / unit.den
  let above := below + 1
  match inside below, inside above with
  | false, false => none
  | true, false => some ⟨below, k⟩
  | false, true => some ⟨above, k⟩
  | true, true =>
    let toBelow := 2 * value
    let middle := (below + above) * unit.den
    if toBelow < middle then some ⟨below, k⟩
    else if middle < toBelow then some ⟨above, k⟩
    else match tie with
      | .up => some ⟨above, k⟩
      | .toEven => some ⟨if below % 2 = 0 then below else above, k⟩

/-- Tries grids with more and more digits, from the leading digit on. -/
def search (tie : Tie) (b : Binary) : Nat → Int → Scaled
  | 0, k => ⟨0, k⟩
  | n + 1, k =>
    match tryGrid tie b k with
    | some d => d
    | none => search tie b n (k - 1)

/-- The same decimal without zeros at its end; at most so many are dropped. -/
def dropZeros : Nat → Scaled → Scaled
  | 0, d => d
  | n + 1, d =>
    if d.digits ≠ 0 && d.digits % 10 = 0 then dropZeros n ⟨d.digits / 10, d.exponent + 1⟩ else d

/-- The shortest decimal that reads back to the magnitude of a value other than
zero.  Seventeen digits always do. -/
def shortest (tie : Tie) (b : Binary) : Scaled :=
  let unit := b.quarterUnit
  let lead := leadingExponent ⟨4 * b.significand * unit.num, unit.den⟩
  dropZeros 17 (search tie b 17 lead)

end ServiceLang.Decimal
