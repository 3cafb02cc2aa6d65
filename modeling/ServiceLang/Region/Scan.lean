import ServiceLang.Region.Basic

/-!
The scanner that finds regions.

It reads one character per step and keeps a stack of frames: what is open at the
place reached, the innermost first.  Braces count only where code is read, so
those in strings and comments never open or close anything.  The words
`endpoint`, `workflow` and `job` open a region only at the top level, when what
follows has the form of a declaration and what precedes does not make them a
name.  Shell text after `exec` is read up to its matching brace, and quotes mean
nothing inside it.

Annotations written in front of an endpoint belong to its region.  The scanner
remembers where the pending ones start and forgets them at the first thing that
is neither blank, comment nor annotation.
-/

namespace ServiceLang.Region

/-- Something open at the place that the scanner has reached. -/
inductive Frame where
  /-- The text outside every region, inside so many braces. -/
  | main (depth : Nat)
  /-- The parenthesised arguments of an annotation. -/
  | annotationArgs (start : Nat)
  /-- A string literal; `escaped` after a backslash that escapes the next character. -/
  | quoted (start : Nat) (escaped : Bool)
  | lineComment (start : Nat)
  | blockComment (start : Nat)
  /-- The text of an `exec` block.  Its own brace is counted from the keyword on,
  and `entered` once it has been read. -/
  | shell (start depth : Nat) (entered : Bool)
  /-- A declaration with its own grammar; `opened` once its first brace was read. -/
  | region (kind : Kind) (start depth : Nat) (opened : Bool)
deriving DecidableEq, Repr

namespace Frame

/-- The main text outside all braces, the only place where regions start. -/
def isTopLevel : Frame → Bool
  | main 0 => true
  | _ => false

/-- What a text that ends inside the frame leaves open. -/
def unterminated? : Frame → Option (Located Construct)
  | main _ | lineComment _ => none
  | annotationArgs start => some ⟨start, .annotationArguments⟩
  | quoted start _ => some ⟨start, .stringLiteral⟩
  | blockComment start => some ⟨start, .blockComment⟩
  | shell start _ _ => some ⟨start, .execBlock⟩
  | region kind start _ _ => some ⟨start, .declaration kind⟩

end Frame

/-- What the scanner knows after reading a beginning of the text. -/
structure Scan where
  /-- The characters read, the last one first. -/
  before : List Char
  /-- The number of bytes read. -/
  offset : Nat
  /-- What is open, the innermost first. -/
  stack : List Frame
  /-- Where the annotations start that wait for their endpoint. -/
  pending : Option Nat
  /-- The regions found, the last one first. -/
  found : List Region

namespace Scan

/-- Before the first character. -/
def start : Scan := ⟨[], 0, [.main 0], none, []⟩

/-- The same with one more character read. -/
def advance (s : Scan) (c : Char) : Scan :=
  { s with before := c :: s.before, offset := s.offset + c.utf8Size }

/-- The same with another frame on the stack. -/
def push (s : Scan) (f : Frame) : Scan := { s with stack := f :: s.stack }

/-- Annotations that wait for an endpoint are given up if the condition holds. -/
def dropPendingIf (s : Scan) (condition : Bool) : Scan :=
  if condition then { s with pending := none } else s

end Scan

/-! ## Looking around a word -/

/-- The text after the blanks at its start. -/
def skipBlanks (cs : List Char) : List Char := cs.dropWhile isBlank

/-- The first character after blanks is this one. -/
def nextIs (c : Char) (cs : List Char) : Bool := (skipBlanks cs).head? = some c

/-- A method and a quoted path follow, as in `endpoint GET "/users"`. -/
def followedByMethodAndPath (after : List Char) : Bool :=
  let method := skipBlanks after
  method.head?.any Char.isAlpha && nextIs '"' (method.dropWhile Char.isAlpha)

/-- A name and an opening brace follow, as in `workflow onboard` before its body. -/
def followedByNameAndBrace (after : List Char) : Bool :=
  let name := skipBlanks after
  name.head?.any isWordStart && nextIs '{' (name.dropWhile isWordChar)

/-- Operators and separators after which a word continues an expression. -/
def continuationMarks : List Char :=
  ['>', '<', '=', '-', '+', '*', '%', '!', '&', '|', '.', ',', '(', '[', ':']

/-- The last character before the blanks is an operator or separator, as before
the target in `on user.created -> workflow onboard`. -/
def continuesExpression (before : List Char) : Bool :=
  (skipBlanks before).head?.any (continuationMarks.contains ·)

/-- The words that bind or use the name after them. -/
def bindingWords : List String := ["var", "for", "in", "return", "function"]

/-- The last word before the blanks binds or uses the name that follows it, as in
`for job in jobs`. -/
def followsBindingWord (before : List Char) : Bool :=
  bindingWords.contains (String.ofList ((skipBlanks before).takeWhile isWordChar).reverse)

/-- The kind of region that the word opens between what is before and after it. -/
def declares? (before : List Char) (word : String) (after : List Char) : Option Kind :=
  if continuesExpression before || followsBindingWord before then none
  else if word = "endpoint" then
    if followedByMethodAndPath after then some .endpoint else none
  else if word = "workflow" || word = "job" then
    if followedByNameAndBrace after then some .flow else none
  else none

/-- The annotation that starts here, before its name, has arguments; then this
many bytes lie between its `@` and their parenthesis. -/
def argumentsAhead? (rest : List Char) : Option Nat :=
  let afterName := rest.dropWhile isWordChar
  if nextIs '(' afterName then
    some (byteLength (rest.takeWhile isWordChar) + byteLength (afterName.takeWhile isBlank))
  else none

/-- A word character is inside a word if it follows another one.  At the top level
the name of an annotation is no word either. -/
def insideWord (atTop : Bool) (before : List Char) : Bool :=
  before.head?.any fun c => isWordChar c || (atTop && c = '@')

/-! ## Steps -/

/-- The first character of a word, read where code is expected. -/
def stepWord (s : Scan) (top : Frame) (c : Char) (rest : List Char) : Scan :=
  let word := String.ofList ((c :: rest).takeWhile isWordChar)
  let after := (c :: rest).dropWhile isWordChar
  let next := s.advance c
  match top with
  | .main depth =>
    if word = "exec" && nextIs '{' after then
      (next.dropPendingIf true).push (.shell s.offset 1 false)
    else if depth ≠ 0 then next
    else
      let next := next.dropPendingIf true
      match declares? s.before word after with
      | none => next
      | some .endpoint => next.push (.region .endpoint (s.pending.getD s.offset) 0 false)
      | some .flow => next.push (.region .flow s.offset 0 false)
  | _ => next

/-- An opening brace where code is read. -/
def openBrace (s : Scan) (top : Frame) (below : List Frame) : Scan :=
  match top with
  | .main depth => { s with stack := .main (depth + 1) :: below }
  | .region kind start depth _ => { s with stack := .region kind start (depth + 1) true :: below }
  | _ => s

/-- A closing brace where code is read.  One that matches the first brace of a
region ends it; one too many in main text is left to the grammar. -/
def closeBrace (s : Scan) (top : Frame) (below : List Frame) : Scan :=
  match top with
  | .main depth => { s with stack := .main (depth - 1) :: below }
  | .region kind start depth opened =>
    if opened && depth - 1 = 0 then
      { s with stack := below, found := ⟨kind, start, s.offset⟩ :: s.found }
    else { s with stack := .region kind start (depth - 1) opened :: below }
  | _ => s

/-- One character where code is read. -/
def stepCode (s : Scan) (top : Frame) (below : List Frame) (c : Char) (rest : List Char) :
    Except (Located Fault) Scan :=
  let atTop := top.isTopLevel
  let next := s.advance c
  if isBlank c then .ok next
  else if c = '/' && rest.head? = some '/' then .ok (next.push (.lineComment s.offset))
  else if c = '/' && rest.head? = some '*' then .ok (next.push (.blockComment s.offset))
  else if c = '"' then .ok ((next.dropPendingIf atTop).push (.quoted s.offset false))
  else if c = '{' then .ok (openBrace (next.dropPendingIf atTop) top below)
  else if c = '}' then .ok (closeBrace next top below)
  else if c = '@' && atTop then
    let next := { next with pending := some (s.pending.getD s.offset) }
    match argumentsAhead? rest with
    | some gap => .ok (next.push (.annotationArgs (next.offset + gap)))
    | none => .ok next
  else if isWordChar c then
    .ok (if insideWord atTop s.before then next else stepWord s top c rest)
  else if isAsciiControl c then .error ⟨s.offset, .controlCharacter c⟩
  else .ok (next.dropPendingIf atTop)

/-- One character of an annotation's arguments. -/
def stepAnnotationArgs (s : Scan) (below : List Frame) (c : Char) : Scan :=
  let next := s.advance c
  if c = '"' then next.push (.quoted s.offset false)
  else if c = ')' then { next with stack := below }
  else next

/-- One character of a string literal. -/
def stepQuoted (s : Scan) (start : Nat) (escaped : Bool) (below : List Frame) (c : Char) : Scan :=
  let next := s.advance c
  if escaped then { next with stack := .quoted start false :: below }
  else if c = '\\' then { next with stack := .quoted start true :: below }
  else if c = '"' then { next with stack := below }
  else next

/-- One character of a line comment, which ends with the line. -/
def stepLineComment (s : Scan) (below : List Frame) (c : Char) : Scan :=
  let next := s.advance c
  if c = '\n' then { next with stack := below } else next

/-- One character of a block comment.  The star that opens it does not close it. -/
def stepBlockComment (s : Scan) (start : Nat) (below : List Frame) (c : Char) : Scan :=
  let next := s.advance c
  if c = '/' && s.before.head? = some '*' && start + 3 ≤ s.offset then { next with stack := below }
  else next

/-- One character of an `exec` block, from its keyword on. -/
def stepShell (s : Scan) (start depth : Nat) (entered : Bool) (below : List Frame) (c : Char) :
    Scan :=
  let next := s.advance c
  if c = '{' then
    { next with stack := .shell start (if entered then depth + 1 else depth) true :: below }
  else if c = '}' then
    if depth - 1 = 0 then { next with stack := below }
    else { next with stack := .shell start (depth - 1) entered :: below }
  else next

/-- Reads one character, with the rest of the text in sight. -/
def step (s : Scan) (c : Char) (rest : List Char) : Except (Located Fault) Scan :=
  match s.stack with
  | [] => .ok (s.advance c)
  | top :: below =>
    match top with
    | .main _ | .region _ _ _ _ => stepCode s top below c rest
    | .annotationArgs _ => .ok (stepAnnotationArgs s below c)
    | .quoted start escaped => .ok (stepQuoted s start escaped below c)
    | .lineComment _ => .ok (stepLineComment s below c)
    | .blockComment start => .ok (stepBlockComment s start below c)
    | .shell start depth entered => .ok (stepShell s start depth entered below c)

/-- Reads the text to its end. -/
def run (s : Scan) : List Char → Except (Located Fault) Scan
  | [] => .ok s
  | c :: rest =>
    match step s c rest with
    | .error e => .error e
    | .ok next => run next rest

/-- The regions of a scan that has read its text to the end. -/
def Scan.finish (s : Scan) : Except (Located Fault) (List Region) :=
  match s.stack.findSome? Frame.unterminated? with
  | some ⟨offset, construct⟩ => .error ⟨offset, .unterminated construct⟩
  | none => .ok s.found.reverse

/-- The regions of a text, in the order in which they stand. -/
def find (text : List Char) : Except (Located Fault) (List Region) :=
  match run .start text with
  | .error e => .error e
  | .ok s => s.finish

end ServiceLang.Region
