import ServiceLang.Decimal.Binary
import ServiceLang.Decimal.Read

/-!
Durations in string-valued settings: `30m`, `1h30m`, `1.5s`.

A duration is one component or several, each a number and a unit.  The components
are added up in seconds as binary64 values, and the sum is rounded once, to the
nearest nanosecond.  A bare `0` needs no unit.
-/

namespace ServiceLang

/-- A span of time in whole nanoseconds. -/
structure Duration where
  nanos : Nat
deriving DecidableEq, Repr

/-- Why a text is not a duration. -/
inductive DurationFault where
  | empty
  | missingNumber (rest : String)
  | missingUnit (number : String)
  | unknownUnit (text : String)
  | outOfRange
deriving DecidableEq, Repr

namespace DurationFault

def message : DurationFault → String
  | empty => "empty duration"
  | missingNumber rest => "expected a number at '" ++ rest ++ "'"
  | missingUnit number => "missing unit after '" ++ number ++ "' (use ns, us, ms, s, m or h)"
  | unknownUnit text => "unknown unit '" ++ text ++ "' (use ns, us, ms, s, m or h)"
  | outOfRange => "duration out of range"

end DurationFault

inductive TimeUnit where
  | nanosecond
  | microsecond
  | millisecond
  | second
  | minute
  | hour
deriving DecidableEq, Repr

namespace TimeUnit

/-- The unit that is written like this.  The sign of microseconds is a `u`, the micro
sign or the Greek letter. -/
def ofText? (text : String) : Option TimeUnit :=
  match text with
  | "ns" => some nanosecond
  | "us" | "\u00b5s" | "\u03bcs" => some microsecond
  | "ms" => some millisecond
  | "s" => some second
  | "m" => some minute
  | "h" => some hour
  | _ => none

def seconds : TimeUnit → Float
  | nanosecond => 1e-9
  | microsecond => 1e-6
  | millisecond => 1e-3
  | second => 1.0
  | minute => 60.0
  | hour => 3600.0

end TimeUnit

namespace Duration

def nanosPerSecond : Nat := 1000000000

def seconds (d : Duration) : Nat := d.nanos / nanosPerSecond

/-- The nanoseconds beyond the whole seconds. -/
def subsecond (d : Duration) : Nat := d.nanos % nanosPerSecond

/-- The quotient rounded to the nearest whole number, a half to the even one. -/
def roundHalfEven (num den : Nat) : Nat :=
  let below := num / den
  let twice := 2 * (num % den)
  if twice < den || (twice = den && below % 2 = 0) then below else below + 1

/-- A value in seconds, rounded to the nearest nanosecond.  Seconds are counted in 64
bits. -/
def ofSeconds? (x : Float) : Option Duration :=
  match Decimal.Binary.ofFloat? x with
  | none => none
  | some b =>
    let (num, den) := match b.exponent with
      | .ofNat e => (b.significand * Nat.pow 2 e, 1)
      | .negSucc e => (b.significand, Nat.pow 2 (e + 1))
    if UInt64.size * den ≤ num then none
    else some ⟨roundHalfEven (num * nanosPerSecond) den⟩

/-- The characters that numbers are made of. -/
def isNumberChar (c : Char) : Bool := c.isDigit || c = '.'

/-- A number: digits with at most one point, and not a point alone. -/
def isNumber (cs : List Char) : Bool :=
  cs.all isNumberChar && cs.any Char.isDigit && cs.count '.' ≤ 1

def numberValue (cs : List Char) : Float :=
  let (whole, fraction) := Decimal.splitPoint cs
  Decimal.ofDigits whole fraction

/-- The runs of number characters and of other characters that a text consists of. -/
def runs (cs : List Char) : List (List Char) :=
  cs.splitBy fun a b => isNumberChar a == isNumberChar b

/-- Adds up the components that the runs write. -/
def addComponents (total : Float) : List (List Char) → Except DurationFault Float
  | [] => .ok total
  | [number] =>
    if isNumber number then .error (.missingUnit (String.ofList number))
    else .error (.missingNumber (String.ofList number))
  | number :: text :: rest =>
    if isNumber number then
      match TimeUnit.ofText? (String.ofList text) with
      | none => .error (.unknownUnit (String.ofList text))
      | some u => addComponents (total + numberValue number * u.seconds) rest
    else .error (.missingNumber (String.ofList (number :: text :: rest).flatten))

def parse (text : String) : Except DurationFault Duration :=
  if text = "" then .error .empty
  else if text = "0" then .ok ⟨0⟩
  else
    match addComponents 0.0 (runs text.toList) with
    | .error fault => .error fault
    | .ok total =>
      match ofSeconds? total with
      | none => .error .outOfRange
      | some d => .ok d

end Duration

end ServiceLang
