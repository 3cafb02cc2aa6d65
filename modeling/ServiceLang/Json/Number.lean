import ServiceLang.Decimal.Read
import ServiceLang.Json.Value

/-!
Numbers in JSON texts.

Digits are taken up as long as they fit into 64 bits, and the digits behind only
count as places.  A number without point and exponent whose digits all fit is an
integer.  Any other is a binary64 value: the digits taken up, multiplied or divided
by powers of ten, so it is rounded more than once and can miss the nearest value.
Numbers that are too large are none.
-/

namespace ServiceLang.JsonNumber

/-- Takes up digits as long as the number fits into 64 bits; the digits that are left
over follow. -/
def takeDigits (significand : Nat) : List Char → Nat × List Char
  | [] => (significand, [])
  | c :: cs =>
    let next := 10 * significand + (c.toNat - '0'.toNat)
    if next < UInt64.size then takeDigits next cs else (significand, c :: cs)

/-- A power of ten with an exponent up to 308. -/
def powerOfTen (exponent : Nat) : Float := Float.ofScientific 1 false exponent

/-- The value scaled by a power of ten; none if it is too large.  Small values are zero
after so many steps. -/
def scale : Nat → Float → Int → Option Float
  | 0, x, _ => some x
  | steps + 1, x, exponent =>
    if exponent.natAbs ≤ 308 then
      if 0 ≤ exponent then
        let y := x * powerOfTen exponent.natAbs
        if y.isInf then none else some y
      else some (x / powerOfTen exponent.natAbs)
    else if x == 0.0 then some x
    else if 0 ≤ exponent then none
    else scale steps (x / 1e308) (exponent + 308)

/-- The value of a significand and an exponent, with its sign. -/
def ofParts (negative : Bool) (significand : Nat) (exponent : Int) : Option JsonNumber :=
  (scale 4 (Float.ofNat significand) exponent).map fun x => .float (if negative then -x else x)

/-- An integer that fits into 64 bits; any other is a binary64 value, and so is the
negative of zero. -/
def ofWhole (negative : Bool) (n : Nat) : JsonNumber :=
  if !negative then .integer n
  else if n = 0 ∨ UInt64.size < 2 * n then .float (-Float.ofNat n)
  else .integer (-n)

/-- The digits at the start of a text, and the text after them. -/
def spanDigits (cs : List Char) : List Char × List Char := cs.span Char.isDigit

/-- A point and at least one digit, if there is a point: the digits, and the text after
them. -/
def fraction? : List Char → Option (Option (List Char) × List Char)
  | '.' :: cs =>
    match spanDigits cs with
    | ([], _) => none
    | (digits, rest) => some (some digits, rest)
  | cs => some (none, cs)

/-- The exponent, if there is one, and the text after it. -/
def exponent? : List Char → Option (Option Int × List Char)
  | [] => some (none, [])
  | c :: cs =>
    if c = 'e' || c = 'E' then
      let (negative, cs) :=
        match cs with
        | '-' :: ds => (true, ds)
        | '+' :: ds => (false, ds)
        | ds => (false, ds)
      match spanDigits cs with
      | ([], _) => none
      | (digits, rest) =>
        let n : Int := Decimal.natOfDigits digits
        some (some (if negative then -n else n), rest)
    else some (none, c :: cs)

/-- The value of the digits in front of the point, those behind it, and the exponent. -/
def value? (negative : Bool) (whole : List Char) (fraction : Option (List Char))
    (exponent : Option Int) : Option JsonNumber :=
  let (significand, left) := takeDigits 0 whole
  match fraction, exponent, left with
  | none, none, [] => some (ofWhole negative significand)
  | _, _, _ =>
    let digits := fraction.getD []
    let (significand, dropped) := takeDigits significand digits
    let places : Int := (left.length : Int) - (digits.length - dropped.length : Nat)
    ofParts negative significand (places + exponent.getD 0)

/-- The number after its sign, and the text after it. -/
def readUnsigned (negative : Bool) (cs : List Char) : Option (JsonNumber × List Char) := do
  let (whole, rest) := spanDigits cs
  if whole.isEmpty || (whole.head? = some '0' && 1 < whole.length) then none
  let (fraction, rest) ← fraction? rest
  let (exponent, rest) ← exponent? rest
  let value ← value? negative whole fraction exponent
  some (value, rest)

/-- The number at the start of a text, and the text after it. -/
def read : List Char → Option (JsonNumber × List Char)
  | '-' :: cs => readUnsigned true cs
  | cs => readUnsigned false cs

end ServiceLang.JsonNumber
