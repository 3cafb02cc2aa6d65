import ServiceLang.Decimal.Shortest

/-!
The two texts of numbers.

Messages, dumps and printed expressions write the digits positionally, however
many zeros that takes, and no point where no fraction is.  Documents write at least
one digit after the point, and a power of ten where the number is very large or
very small.
-/

namespace ServiceLang.Decimal

def zeros (n : Nat) : String := String.ofList (List.replicate n '0')

/-- Digits with the point after so many of them; zeros fill the gaps. -/
def positional (digits : String) (point : Int) : String :=
  match point with
  | .ofNat p =>
    if p = 0 then "0." ++ digits
    else if digits.length ≤ p then digits ++ zeros (p - digits.length)
    else
      String.ofList (digits.toList.take p) ++ "." ++ String.ofList (digits.toList.drop p)
  | .negSucc p => "0." ++ zeros (p + 1) ++ digits

/-- One digit, the others after a point, and the power of ten with its sign. -/
def scientific (digits : String) (exponent : Int) : String :=
  let lead := String.ofList (digits.toList.take 1)
  let tail := String.ofList (digits.toList.drop 1)
  let mantissa := if tail.isEmpty then lead else lead ++ "." ++ tail
  let sign := if exponent < 0 then "-" else "+"
  mantissa ++ "e" ++ sign ++ toString exponent.natAbs

/-- The sign of a negative number, zero included. -/
def signText (negative : Bool) : String := if negative then "-" else ""

/-- The text of a number in messages, dumps and printed expressions. -/
def plain (x : Float) : String :=
  match Binary.ofFloat? x with
  | none => if x.isNaN then "NaN" else if x < 0 then "-inf" else "inf"
  | some b =>
    if b.significand = 0 then signText b.negative ++ "0"
    else
      let d := shortest .up b
      let digits := toString d.digits
      signText b.negative ++ positional digits (digits.length + d.exponent)

/-- The text of a finite number in documents. -/
def document (x : Float) : Option String :=
  match Binary.ofFloat? x with
  | none => none
  | some b =>
    if b.significand = 0 then some (signText b.negative ++ "0.0")
    else
      let d := shortest .toEven b
      let digits := toString d.digits
      let point : Int := digits.length + d.exponent
      let exponent := point - 1
      let text :=
        if -5 ≤ exponent && exponent < 16 then
          let text := positional digits point
          if (digits.length : Int) ≤ point then text ++ ".0" else text
        else scientific digits exponent
      some (signText b.negative ++ text)

end ServiceLang.Decimal
