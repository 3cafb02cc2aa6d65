import ServiceLang.Decimal.Read
import ServiceLang.Text.Digit
import ServiceLang.Text.Split

/-!
IPv6 addresses as hosts in brackets.

An address is eight pieces of up to four hexadecimal digits, of which the last two
can be written as an IPv4 address.  A double colon stands for the pieces that are
left out, at least one.
-/

namespace ServiceLang.Ipv6

/-- A piece: one to four hexadecimal digits. -/
def isPiece (cs : List Char) : Bool :=
  !cs.isEmpty && cs.length ≤ 4 && cs.all Text.isHexDigit

/-- A byte in decimal digits, without zeros in front. -/
def isByte (cs : List Char) : Bool :=
  !cs.isEmpty && cs.all Char.isDigit && Decimal.natOfDigits cs < 256 &&
    (cs.length = 1 || cs.head? ≠ some '0')

/-- Four bytes with points between them. -/
def isDotted (cs : List Char) : Bool :=
  let bytes := Text.splitOn '.' cs
  bytes.length = 4 && bytes.all isByte

/-- The number of pieces that colons separate; two of them can be written with points
at the end. -/
def countPieces (dotted : Bool) : List (List Char) → Option Nat
  | [] => some 0
  | [last] => if isPiece last then some 1 else if dotted && isDotted last then some 2 else none
  | piece :: rest => if isPiece piece then (countPieces dotted rest).map (· + 1) else none

/-- The number of pieces in a text, which can be empty. -/
def pieces? (dotted : Bool) (cs : List Char) : Option Nat :=
  if cs.isEmpty then some 0 else countPieces dotted (Text.splitOn ':' cs)

/-- The texts around the first double colon. -/
def splitGap? : List Char → Option (List Char × List Char)
  | [] => none
  | ':' :: ':' :: cs => some ([], cs)
  | c :: cs => (splitGap? cs).map fun (before, after) => (c :: before, after)

def isAddress (cs : List Char) : Bool :=
  match splitGap? cs with
  | none => pieces? true cs = some 8
  | some (before, after) =>
    match pieces? false before, pieces? true after with
    | some m, some n => m + n ≤ 7
    | _, _ => false

end ServiceLang.Ipv6
