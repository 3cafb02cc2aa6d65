import ServiceLang.Peg.Attempts
import ServiceLang.Peg.Grammar
import ServiceLang.Peg.ParseTree
import ServiceLang.Source.Position

/-!
Matching a text against a grammar.

Patterns are matched by structural recursion; only a rule inside a rule spends
fuel.  A rule can stand inside another without a character between only once per
rule of a grammar that is not left recursive, so a text of `n` characters never
nests rules deeper than `(n + 1)` times their number, which is the fuel that
`Grammar.parse` provides.

The outcome carries the log of attempts along, but no decision looks at it.
-/

namespace ServiceLang.Peg

variable {R : Type}

/-- What matching a pattern at a cursor comes to. -/
inductive Outcome (R : Type) where
  | matched (nodes : List (ParseTree R)) (next : Cursor) (log : Attempts R)
  | failed (log : Attempts R)

/-- What the rules around a pattern mean for it. -/
structure Mode where
  look : Lookahead
  spacing : Spacing

/-- Where the next part of a sequence or repetition starts. -/
def gap (separates : Bool) (mode : Mode) (c : Cursor) : Cursor :=
  if separates && mode.spacing = .free then skipTrivia c else c

/-- Repeats a step as long as it matches, at most so many times. -/
def repeatStep (step : Cursor → Attempts R → Outcome R) :
    Nat → Cursor → Attempts R → List (ParseTree R) × Cursor × Attempts R
  | 0, c, log => ([], c, log)
  | n + 1, c, log =>
    match step c log with
    | .failed log => ([], c, log)
    | .matched nodes c log =>
      let (more, c, log) := repeatStep step n c log
      (nodes ++ more, c, log)

/-- A match without nodes, if there is one. -/
def Outcome.ofCursor (next? : Option Cursor) (log : Attempts R) : Outcome R :=
  match next? with
  | some c => .matched [] c log
  | none => .failed log

/-- Matches a pattern.  `call` matches a rule; `separates` says whether the parts of
the pattern may have trivia between them. -/
def matchPattern (call : R → Mode → Cursor → Attempts R → Outcome R) (separates : Bool) :
    Pattern R → Mode → Cursor → Attempts R → Outcome R
  | .literal text, _, c, log => .ofCursor (c.strip? text.toList) log
  | .oneOf cls, _, c, log => .ofCursor (c.next? cls.contains) log
  | .rule r, mode, c, log => call r mode c log
  | .andThen p q, mode, c, log =>
    match matchPattern call separates p mode c log with
    | .failed log => .failed log
    | .matched nodes c log =>
      match matchPattern call separates q mode (gap separates mode c) log with
      | .failed log => .failed log
      | .matched more c log => .matched (nodes ++ more) c log
  | .orElse p q, mode, c, log =>
    match matchPattern call separates p mode c log with
    | .matched nodes c log => .matched nodes c log
    | .failed log => matchPattern call separates q mode c log
  | .many p, mode, c, log =>
    match matchPattern call separates p mode c log with
    | .failed log => .matched [] c log
    | .matched nodes c log =>
      let (more, c, log) := repeatStep
        (fun c log => matchPattern call separates p mode (gap separates mode c) log)
        (c.rest.length + 1) c log
      .matched (nodes ++ more) c log
  | .optional p, mode, c, log =>
    match matchPattern call separates p mode c log with
    | .failed log => .matched [] c log
    | .matched nodes c log => .matched nodes c log
  | .notHere p, mode, c, log =>
    match matchPattern call separates p { mode with look := mode.look.flip } c log with
    | .failed log => .matched [] c log
    | .matched _ _ log => .failed log
  | .textStart, _, c, log => if c.offset = 0 then .matched [] c log else .failed log
  | .textEnd, _, c, log => if c.rest.isEmpty then .matched [] c log else .failed log

/-- The nodes of a rule that has matched.  Nothing is kept of what was only looked
for, nor of a rule inside a token. -/
def nodesOf (r : R) (mode : Mode) (start : Cursor) (stop : Nat) (inner : List (ParseTree R)) :
    List (ParseTree R) :=
  if mode.look = .none && mode.spacing ≠ .sealed then [.node r start stop inner] else inner

/-- Records a rule in the log, unless it stands inside a token. -/
def recordIn (log before : Attempts R) (r : R) (mode : Mode) (offset : Nat) : Attempts R :=
  if mode.spacing = .sealed then log else log.record before r offset mode.look

/-- Matches a rule, with fuel for so many rules inside each other. -/
def matchRule (g : Grammar R) : Nat → R → Mode → Cursor → Attempts R → Outcome R
  | 0, _, _, _, log => .failed log
  | fuel + 1, r, mode, c, log =>
    let ⟨kind, pattern⟩ := g.definition r
    let inside := { mode with spacing := kind.inner mode.spacing }
    let outcome := matchPattern (matchRule g fuel) kind.separates pattern inside c log
    if kind = .silent then outcome
    else
      let outside := { mode with spacing := kind.outer mode.spacing }
      match outcome with
      | .matched nodes next after =>
        .matched (nodesOf r outside c next.offset nodes) next
          (if mode.look = .negative then recordIn after log r outside c.offset else after)
      | .failed after =>
        .failed (if mode.look = .negative then after else recordIn after log r outside c.offset)

/-- Why a text does not match: the names of the rules that were expected at an
offset, and of those that matched there without being wanted. -/
structure Mismatch where
  expected : List String
  unexpected : List String
deriving DecidableEq, Repr

/-- The mismatch that a log explains, its rules in the order of the grammar and
each of them once. -/
def Grammar.mismatch [DecidableEq R] (g : Grammar R) (log : Attempts R) : Mismatch :=
  ⟨(g.rules.filter (log.expected.contains ·)).map g.name,
    (g.rules.filter (log.unexpected.contains ·)).map g.name⟩

/-- Fuel for every text of this many characters. -/
def Grammar.fuel (g : Grammar R) (length : Nat) : Nat := (length + 1) * (g.rules.length + 1)

/-- Matches the beginning of a text against a rule. -/
def Grammar.run (g : Grammar R) (r : R) (text : List Char) : Outcome R :=
  matchRule g (g.fuel text.length) r ⟨.none, .free⟩ (.start text) .empty

/-- The parse trees of a text, or the offset and the cause of its mismatch. -/
def Grammar.parse [DecidableEq R] (g : Grammar R) (r : R) (text : List Char) :
    Except (Located Mismatch) (List (ParseTree R)) :=
  match g.run r text with
  | .matched nodes _ _ => .ok nodes
  | .failed log => .error ⟨log.offset, g.mismatch log⟩

/-! ## The text of a mismatch -/

/-- `a`, `a or b`, `a, b, or c`. -/
def enumerate : List String → String
  | [] => ""
  | [a] => a
  | [a, b] => a ++ " or " ++ b
  | names => ", ".intercalate names.dropLast ++ ", or " ++ names.getLast?.getD ""

/-- What a mismatch is called in messages. -/
def Mismatch.message (m : Mismatch) : String :=
  match m.unexpected, m.expected with
  | [], [] => "unknown parsing error"
  | [], expected => "expected " ++ enumerate expected
  | unexpected, [] => "unexpected " ++ enumerate unexpected
  | unexpected, expected =>
    "unexpected " ++ enumerate unexpected ++ "; expected " ++ enumerate expected

end ServiceLang.Peg
