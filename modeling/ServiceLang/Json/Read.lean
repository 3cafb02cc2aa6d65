import ServiceLang.Json.Number
import ServiceLang.Source.Chars
import ServiceLang.Text.Digit

/-!
Reading JSON texts.

Reading ends at the first place where the text breaks the rules of JSON.  What was
read so far is kept, and what should stand at that place is broken.
-/

namespace ServiceLang.JsonText

/-- The text without the blanks at its start. -/
def skip (cs : List Char) : List Char := cs.dropWhile isBlank

/-! ## Strings -/

/-- What a backslash and this character stand for; code units are apart. -/
def escaped? : Char → Option Char
  | '"' => some '"'
  | '\\' => some '\\'
  | '/' => some '/'
  | 'b' => some '\x08'
  | 'f' => some '\x0c'
  | 'n' => some '\n'
  | 'r' => some '\r'
  | 't' => some '\t'
  | _ => none

/-- Four hexadecimal digits, and the text after them. -/
def hex4? : List Char → Option (Nat × List Char)
  | a :: b :: c :: d :: cs =>
    if [a, b, c, d].all Text.isHexDigit then some (Text.valueIn 16 [a, b, c, d], cs) else none
  | _ => none

/-- A code unit that starts a pair. -/
def isHighSurrogate (n : Nat) : Bool := 0xd800 ≤ n && n < 0xdc00

/-- A code unit that ends a pair. -/
def isLowSurrogate (n : Nat) : Bool := 0xdc00 ≤ n && n < 0xe000

/-- The character that one code unit or two of them write, and the text after them. -/
def unitChar? (cs : List Char) : Option (Char × List Char) := do
  let (high, rest) ← hex4? cs
  if isLowSurrogate high then none
  else if isHighSurrogate high then
    match rest with
    | '\\' :: 'u' :: rest =>
      let (low, rest) ← hex4? rest
      if isLowSurrogate low then
        some (Char.ofNat (0x10000 + 0x400 * (high - 0xd800) + (low - 0xdc00)), rest)
      else none
    | _ => none
  else some (Char.ofNat high, rest)

/-- The characters of a string up to its closing quote, and the text after it.  Every
step takes up a character of the text. -/
def readString : Nat → List Char → Option (List Char × List Char)
  | 0, _ | _, [] => none
  | steps + 1, c :: cs =>
    if c = '"' then some ([], cs)
    else if c = '\\' then
      match cs with
      | 'u' :: cs => do
        let (d, cs) ← unitChar? cs
        let (s, rest) ← readString steps cs
        some (d :: s, rest)
      | e :: cs => do
        let d ← escaped? e
        let (s, rest) ← readString steps cs
        some (d :: s, rest)
      | [] => none
    else if c < ' ' then none
    else (readString steps cs).map fun (s, rest) => (c :: s, rest)

/-- The string after its opening quote, and the text after it. -/
def string? (cs : List Char) : Option (String × List Char) :=
  (readString (cs.length + 1) cs).map fun (s, rest) => (String.ofList s, rest)

/-! ## Values -/

/-- The text after a word that it starts with. -/
def afterWord? (word : String) (cs : List Char) : Option (List Char) :=
  if word.toList.isPrefixOf cs then some (cs.drop word.length) else none

/-- A value that is neither a list nor an object, and the text after it. -/
def readScalar : List Char → JsonValue × List Char
  | '"' :: cs =>
    match string? cs with
    | some (s, rest) => (.string rest s, rest)
    | none => (.broken, [])
  | 'n' :: cs =>
    match afterWord? "ull" cs with
    | some rest => (.null rest, rest)
    | none => (.broken, [])
  | 't' :: cs =>
    match afterWord? "rue" cs with
    | some rest => (.bool rest true, rest)
    | none => (.broken, [])
  | 'f' :: cs =>
    match afterWord? "alse" cs with
    | some rest => (.bool rest false, rest)
    | none => (.broken, [])
  | cs =>
    match JsonNumber.read cs with
    | some (n, rest) => (.number rest n, rest)
    | none => (.broken, [])

/-- The start of the next item or key: at once for the first, after a comma for others.
A closing bracket cannot follow a comma. -/
def nextStart? (closing : Char) (first : Bool) (cs : List Char) : Option (List Char) :=
  if first then some cs
  else
    match cs with
    | ',' :: cs =>
      match skip cs with
      | [] => none
      | c :: cs => if c = closing then none else some (c :: cs)
    | _ => none

/-- Where a fault of a key is reported: after the blanks that follow it, and after the
brace if that closes the object already. -/
def afterKey (cs : List Char) : List Char :=
  match skip cs with
  | '\x7d' :: rest => rest
  | rest => rest

mutual

/-- The value at the start of a text, and the text after it. -/
def readValue : Nat → List Char → JsonValue × List Char
  | 0, _ => (.broken, [])
  | steps + 1, cs =>
    match skip cs with
    | '[' :: cs =>
      let (items, closed, rest) := readItems steps true cs
      (.list ('[' :: cs) items closed, rest)
    | '\x7b' :: cs =>
      let (entries, closed, rest) := readEntries steps true cs
      (.object ('\x7b' :: cs) entries closed, rest)
    | cs => readScalar cs

/-- The items of a list up to its closing bracket, and the text after it. -/
def readItems : Nat → Bool → List Char → List JsonValue × Bool × List Char
  | 0, _, _ => ([], false, [])
  | steps + 1, first, cs =>
    match skip cs with
    | ']' :: rest => ([], true, rest)
    | cs =>
      match nextStart? ']' first cs with
      | none => ([], false, [])
      | some cs =>
        let (value, rest) := readValue steps cs
        let (values, closed, rest) := readItems steps false rest
        (value :: values, closed, rest)

/-- The entries of an object up to its closing brace, and the text after it. -/
def readEntries : Nat → Bool → List Char → List (JsonKey × JsonValue) × Bool × List Char
  | 0, _, _ => ([], false, [])
  | steps + 1, first, cs =>
    match skip cs with
    | '\x7d' :: rest => ([], true, rest)
    | cs =>
      match nextStart? '\x7d' first cs with
      | some ('"' :: cs) =>
        match string? cs with
        | none => ([], false, [])
        | some (name, rest) =>
          let key : JsonKey := ⟨name, afterKey rest⟩
          match skip rest with
          | ':' :: cs =>
            let (value, rest) := readValue steps cs
            let (entries, closed, rest) := readEntries steps false rest
            ((key, value) :: entries, closed, rest)
          | _ => ([(key, .broken)], false, [])
      | _ => ([], false, [])

end

/-- The value of a text, and what follows it.  A step takes up a character or opens a
list, object, item or entry that takes up one. -/
def read (cs : List Char) : JsonValue × List Char := readValue (2 * cs.length + 2) cs

end ServiceLang.JsonText
