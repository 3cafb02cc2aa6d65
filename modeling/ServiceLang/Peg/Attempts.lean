/-!
The attempts that explain a failure.

While a text is matched, the log keeps the rules tried in vain at the furthest
offset where any was.  A rule replaces what the rules below it recorded at the
same offset, unless exactly one of them did: a single precise attempt says more
than the rule that contains it.  A rule that matches where it must not is kept
among the unexpected ones.
-/

namespace ServiceLang.Peg

/-- Whether a match is wanted, or only looked for. -/
inductive Lookahead where
  | none
  | positive
  | negative
deriving DecidableEq, Repr

namespace Lookahead

/-- Inside a pattern that must not match. -/
def flip : Lookahead → Lookahead
  | none | positive => negative
  | negative => positive

end Lookahead

/-- The rules tried at the furthest offset, the latest first. -/
structure Attempts (R : Type) where
  offset : Nat
  expected : List R
  unexpected : List R

namespace Attempts

variable {R : Type}

/-- Before anything is tried. -/
def empty : Attempts R := ⟨0, [], []⟩

/-- The number of attempts recorded at this offset. -/
def countAt (log : Attempts R) (offset : Nat) : Nat :=
  if log.offset = offset then log.expected.length + log.unexpected.length else 0

/-- The log cut back to so many attempts of either sort. -/
def truncate (log : Attempts R) (expected unexpected : Nat) : Attempts R :=
  { log with
    expected := log.expected.drop (log.expected.length - expected)
    unexpected := log.unexpected.drop (log.unexpected.length - unexpected) }

/-- Records a rule among the unexpected ones if it was not to match. -/
def add (log : Attempts R) (r : R) (look : Lookahead) : Attempts R :=
  match look with
  | .negative => { log with unexpected := r :: log.unexpected }
  | _ => { log with expected := r :: log.expected }

/-- Records that `r` was tried at `offset`; `before` is the log at that moment. -/
def record (log before : Attempts R) (r : R) (offset : Nat) (look : Lookahead) : Attempts R :=
  if log.countAt offset = before.countAt offset + 1 then log
  else if offset < log.offset then log
  else if offset = log.offset then
    let kept :=
      if before.offset = offset then (before.expected.length, before.unexpected.length) else (0, 0)
    (log.truncate kept.1 kept.2).add r look
  else add ⟨offset, [], []⟩ r look

end Attempts

end ServiceLang.Peg
