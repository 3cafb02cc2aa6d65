import ServiceLang.Decimal.Read
import ServiceLang.Format.Url.Host

/-!
URLs in string-valued settings.

A setting has to be an absolute URL of the web: a scheme, which is `http` or
`https`, and a host, with what else URLs have.  The text is read as browsers read
it: control characters and spaces around it are dropped, tabs and line ends in it
are ignored, and any number of slashes follows the scheme.  Faults of the host are
found before the scheme is refused.
-/

namespace ServiceLang.Url

/-- The text without control characters and spaces around it, and without tabs and
line ends. -/
def cleaned (cs : List Char) : List Char :=
  let isEdge := fun c : Char => c ≤ ' '
  let trimmed := ((cs.dropWhile isEdge).reverse.dropWhile isEdge).reverse
  trimmed.filter fun c => c ≠ '\t' && c ≠ '\n' && c ≠ '\r'

/-- The characters of schemes after the first, which is a letter. -/
def isSchemeChar (c : Char) : Bool := c.isAlphanum || c = '+' || c = '-' || c = '.'

/-- The scheme in small letters, and the text after its colon. -/
def scheme? (cs : List Char) : Option (String × List Char) :=
  match cs.takeWhile isSchemeChar, cs.dropWhile isSchemeChar with
  | c :: rest, ':' :: after =>
    if c.isAlpha then some (String.ofList ((c :: rest).map Char.toLower), after) else none
  | _, _ => none

/-- The host ends at a colon outside brackets; what follows is the port. -/
def splitPort (inBrackets : Bool) : List Char → List Char × Option (List Char)
  | [] => ([], none)
  | c :: cs =>
    if c = ':' && !inBrackets then ([], some cs)
    else
      let inBrackets := if c = '[' then true else if c = ']' then false else inBrackets
      let (host, port) := splitPort inBrackets cs
      (c :: host, port)

/-- The text before the last at sign, if there is one, and the text after it. -/
def splitUser (authority : List Char) : Option (List Char) × List Char :=
  let backwards := authority.reverse
  match Text.splitFirst? '@' backwards with
  | none => (none, authority)
  | some (after, before) => (some before.reverse, after.reverse)

/-- Ports are decimal numbers below two to the 16, or empty.  A backslash ends them. -/
def checkPort : Option (List Char) → Except UrlFault Unit
  | none => .ok ()
  | some port =>
    let digits := port.takeWhile (· ≠ '\\')
    if digits.all Char.isDigit && Decimal.natOfDigits digits < UInt16.size then .ok ()
    else .error .invalidPort

def checkWeb (cs : List Char) : Except UrlFault Unit := do
  let isSlash := fun c : Char => c = '/' || c = '\\'
  let authority := (cs.dropWhile isSlash).takeWhile fun c => !isSlash c && c ≠ '?' && c ≠ '#'
  let (host, port) := splitPort false (splitUser authority).2
  if host.isEmpty then throw .emptyHost
  Host.check host
  checkPort port

/-- A drive of a file system, which is not a host. -/
def isDrive : List Char → Bool
  | [letter, mark] => letter.isAlpha && (mark = ':' || mark = '|')
  | _ => false

/-- Checks the host of a file, which can be missing. -/
def checkFile (cs : List Char) : Except UrlFault Unit :=
  let isSlash := fun c : Char => c = '/' || c = '\\'
  match cs with
  | a :: b :: rest =>
    if isSlash a && isSlash b then
      let host := rest.takeWhile fun c => !isSlash c && c ≠ '?' && c ≠ '#'
      if host.isEmpty || isDrive host then .ok () else Host.check host
    else .ok ()
  | _ => .ok ()

/-- Checks the authority of a scheme that is not known to the web.  Its host can be
missing, but not behind a user or in front of a port. -/
def checkOther (cs : List Char) : Except UrlFault Unit :=
  match cs with
  | '/' :: '/' :: rest => do
    let isEnd := fun c : Char => c = '/' || c = '?' || c = '#'
    let (user, hostAndPort) := splitUser (rest.takeWhile (!isEnd ·))
    let (host, port) := splitPort false hostAndPort
    if user = some [] && hostAndPort.isEmpty && !(rest.dropWhile (!isEnd ·)).isEmpty then
      throw .emptyHost
    Host.checkOpaque host
    if host.isEmpty && port.isSome then throw .emptyHost
    checkPort port
    if host.isEmpty && user ≠ none && user ≠ some [] && user ≠ some [':'] then throw .emptyHost
  | _ => .ok ()

def check (text : String) : Except UrlFault Unit :=
  match scheme? (cleaned text.toList) with
  | none => .error .noScheme
  | some (scheme, rest) => do
    match scheme with
    | "http" | "https" => checkWeb rest
    | "ws" | "wss" | "ftp" => checkWeb rest; .error (.unsupportedScheme scheme)
    | "file" => checkFile rest; .error (.unsupportedScheme scheme)
    | _ => checkOther rest; .error (.unsupportedScheme scheme)

end ServiceLang.Url
