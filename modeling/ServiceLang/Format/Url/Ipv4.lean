import ServiceLang.Text.Digit
import ServiceLang.Text.Split

/-!
IPv4 addresses as hosts.

A host whose last label looks like a number has to be an address: up to four
numbers, each decimal, octal after a zero or hexadecimal after `0x`.  The last
number fills the bytes that the others leave.
-/

namespace ServiceLang.Ipv4

/-- The value of a part of an address.  Nothing after `0x` is zero. -/
def part? (cs : List Char) : Option Nat :=
  match cs with
  | [] => none
  | '0' :: 'x' :: ds | '0' :: 'X' :: ds =>
    if ds.all Text.isHexDigit then some (Text.valueIn 16 ds) else none
  | '0' :: d :: ds =>
    if (d :: ds).all fun c => c.isDigit && c < '8' then some (Text.valueIn 8 (d :: ds)) else none
  | ds => if ds.all Char.isDigit then some (Text.valueIn 10 ds) else none

/-- The labels of a host without the empty label after a point at its end. -/
def labels (host : List Char) : List (List Char) :=
  let parts := Text.splitOn '.' host
  match parts.getLast? with
  | some [] => parts.dropLast
  | _ => parts

/-- The last label of a host is all digits or a part of an address. -/
def endsInNumber (host : List Char) : Bool :=
  match (labels host).getLast? with
  | none => false
  | some last => !last.isEmpty && (last.all Char.isDigit || (part? last).isSome)

/-- The parts of an address: all but the last are bytes, and the last fits into the
remaining bytes. -/
def fits : List Nat → Bool
  | [] => false
  | parts =>
    parts.length ≤ 4 && parts.dropLast.all (· < 256) &&
      (parts.getLast?.any fun last => last < Nat.pow 256 (5 - parts.length))

def isAddress (host : List Char) : Bool :=
  match (labels host).mapM part? with
  | none => false
  | some parts => fits parts

end ServiceLang.Ipv4
