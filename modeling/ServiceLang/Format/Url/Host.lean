import ServiceLang.Format.Url.Ipv4
import ServiceLang.Format.Url.Ipv6
import ServiceLang.Text.Blank

/-!
Hosts of URLs.

A host in brackets is an IPv6 address.  Any other host of a web scheme has its
percent escapes decoded, and then has to be free of control characters, white space
and delimiters; if it ends in a number it has to be an IPv4 address.  Schemes that
are not known to the web have opaque hosts, of which only delimiters are kept out.
-/

namespace ServiceLang

/-- Why a text is not the URL of a web service. -/
inductive UrlFault where
  | noScheme
  | emptyHost
  | invalidPort
  | invalidName
  | invalidIpv4
  | invalidIpv6
  | invalidOpaque
  | unsupportedScheme (scheme : String)
deriving DecidableEq, Repr

namespace UrlFault

def message : UrlFault → String
  | noScheme => "relative URL without a base"
  | emptyHost => "empty host"
  | invalidPort => "invalid port number"
  | invalidName => "invalid international domain name"
  | invalidIpv4 => "invalid IPv4 address"
  | invalidIpv6 => "invalid IPv6 address"
  | invalidOpaque => "invalid domain character"
  | unsupportedScheme scheme =>
    "unsupported scheme '" ++ scheme ++ "' (expected http or https)"

end UrlFault

namespace Host

/-- The bytes of a text with its percent escapes decoded.  A percent sign without two
hexadecimal digits stands for itself. -/
def decodePercent : List Char → List UInt8
  | '%' :: a :: b :: cs =>
    if Text.isHexDigit a && Text.isHexDigit b then
      UInt8.ofNat (16 * Text.hexValue a + Text.hexValue b) :: decodePercent cs
    else '%'.toNat.toUInt8 :: decodePercent (a :: b :: cs)
  | c :: cs => String.utf8EncodeChar c ++ decodePercent cs
  | [] => []

/-- The text with its percent escapes decoded, if that is UTF-8. -/
def decoded? (cs : List Char) : Option (List Char) :=
  (String.fromUTF8? ⟨(decodePercent cs).toArray⟩).map String.toList

/-- The control characters of Unicode. -/
def isControl (c : Char) : Bool := c.toNat < 0x20 || (0x7f ≤ c.toNat && c.toNat < 0xa0)

/-- The characters that cannot stand in the name of a host, among them the one that
replaces what cannot be decoded. -/
def isForbidden (c : Char) : Bool :=
  isControl c || Text.isWhiteSpace c || c = '\ufffd' || c ∈ "#%/:<>?@[\\]^|".toList

/-- The characters that cannot stand in an opaque host. -/
def isForbiddenOpaque (c : Char) : Bool :=
  c = '\x00' || c ∈ "\t\n\r #/:<>?@[\\]^|".toList

/-- Checks a host between brackets, and other hosts with `other`. -/
def checkBracketed (other : Except UrlFault Unit) : List Char → Except UrlFault Unit
  | '[' :: cs =>
    if cs.getLast? = some ']' && Ipv6.isAddress cs.dropLast then .ok () else .error .invalidIpv6
  | _ => other

def checkName (name : List Char) : Except UrlFault Unit :=
  if name.any isForbidden then .error .invalidName
  else if name.isEmpty then .error .emptyHost
  else if Ipv4.endsInNumber name && !Ipv4.isAddress name then .error .invalidIpv4
  else .ok ()

def check (host : List Char) : Except UrlFault Unit :=
  checkBracketed
    (match decoded? host with
      | none => .error .invalidName
      | some name => checkName name)
    host

def checkOpaque (host : List Char) : Except UrlFault Unit :=
  checkBracketed (if host.any isForbiddenOpaque then .error .invalidOpaque else .ok ()) host

end Host

end ServiceLang
