/-!
Reading numbers.

A decimal is read exactly and rounded once, to the nearest binary64 value.
Converting to a 64-bit integer clamps: what is too large becomes the largest.
-/

namespace ServiceLang.Decimal

/-- The number that the digits write. -/
def natOfDigits (digits : List Char) : Nat :=
  digits.foldl (fun n c => 10 * n + (c.toNat - '0'.toNat)) 0

/-- The value of `mantissa * 10 ^ exponent`.  Exponents far outside the range of
binary64 are decided without writing them out. -/
def scaled (mantissa : Nat) (digits : Nat) (exponent : Int) : Float :=
  if mantissa = 0 then 0.0
  else if exponent + digits < -400 then 0.0
  else if 400 < exponent then 1.0 / 0.0
  else
    match exponent with
    | .ofNat e => Float.ofScientific mantissa false e
    | .negSucc e => Float.ofScientific mantissa true (e + 1)

/-- The value of digits with a fraction, either of them perhaps empty. -/
def ofDigits (whole fraction : List Char) : Float :=
  scaled (natOfDigits (whole ++ fraction)) (whole.length + fraction.length) (-fraction.length)

/-- Splits a text at its first point. -/
def splitPoint (cs : List Char) : List Char × List Char :=
  (cs.takeWhile (· ≠ '.'), (cs.dropWhile (· ≠ '.')).drop 1)

/-- The value of a number as the language writes it: a sign, digits, and a fraction
after a point. -/
def ofLiteral (cs : List Char) : Float :=
  match cs with
  | '-' :: cs => -(let (whole, fraction) := splitPoint cs; ofDigits whole fraction)
  | cs => let (whole, fraction) := splitPoint cs; ofDigits whole fraction

/-- The exponent after its mark, with a sign or without. -/
def exponent? (cs : List Char) : Option Int :=
  let (negative, digits) :=
    match cs with
    | '-' :: ds => (true, ds)
    | '+' :: ds => (false, ds)
    | ds => (false, ds)
  if digits.isEmpty || !digits.all Char.isDigit then none
  else some (if negative then -(natOfDigits digits : Int) else natOfDigits digits)

/-- The value of an unsigned number: digits with or without a point, of which there
has to be at least one, and perhaps an exponent. -/
def unsigned? (cs : List Char) : Option Float :=
  let isMark := fun c => c = 'e' || c = 'E'
  let body := cs.takeWhile (!isMark ·)
  let tail := cs.dropWhile (!isMark ·)
  let (whole, fraction) := splitPoint body
  if (whole ++ fraction).isEmpty || !(whole ++ fraction).all Char.isDigit then none
  else
    let exponent := match tail with
      | [] => some 0
      | _ :: ds => exponent? ds
    exponent.map fun e => scaled (natOfDigits (whole ++ fraction))
      (whole.length + fraction.length) (e - fraction.length)

/-- The value that a text writes: a number, an infinity or not-a-number, with a sign
or without. -/
def read? (text : String) : Option Float :=
  let (negative, cs) :=
    match text.toList with
    | '-' :: cs => (true, cs)
    | '+' :: cs => (false, cs)
    | cs => (false, cs)
  let value :=
    match String.ofList (cs.map Char.toLower) with
    | "inf" | "infinity" => some (1.0 / 0.0)
    | "nan" => some (0.0 / 0.0)
    | _ => unsigned? cs
  value.map fun x => if negative then -x else x

/-- The value has no fraction and is finite. -/
def isInteger (x : Float) : Bool := x.isFinite && x.floor == x

/-- The 64-bit integer nearest to a whole value. -/
def toInteger (x : Float) : Int := x.toInt64.toInt

end ServiceLang.Decimal
