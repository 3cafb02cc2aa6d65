import ServiceLang.Source.Position

/-!
Findings of the checks, and the report that is written from them.

A check never stops at the first problem.  It returns its findings in the order in
which it comes upon them, and a program is accepted if there are none.  What a
finding says is kept apart from the words it is told in.
-/

namespace ServiceLang

/-- The kinds of rules that a program can break. -/
inductive Category where
  | scope
  | typeCheck
  | function
  | semantic
deriving DecidableEq, Repr

namespace Category

def all : List Category := [scope, typeCheck, function, semantic]

def text : Category → String
  | scope => "scope"
  | typeCheck => "type-check"
  | function => "function"
  | semantic => "semantic"

def ofText? (word : String) : Option Category := all.find? (·.text = word)

/-- What is written reads back. -/
theorem ofText?_text (c : Category) : ofText? c.text = some c := by
  cases c <;> decide

end Category

/-- A problem with the position where it is reported. -/
structure Finding (α : Type) where
  pos : Position
  problem : α
deriving DecidableEq, Repr

/-- The same finding among problems of more kinds. -/
def Finding.map {α β : Type} (f : α → β) (x : Finding α) : Finding β := ⟨x.pos, f x.problem⟩

/-- A finding if a condition does not hold. -/
def demand {α : Type} (holds : Bool) (pos : Position) (problem : α) : List (Finding α) :=
  if holds then [] else [⟨pos, problem⟩]

/-- Nothing is found exactly if the condition holds. -/
@[simp] theorem demand_eq_nil_iff {α : Type} (holds : Bool) (pos : Position) (problem : α) :
    demand holds pos problem = [] ↔ holds = true := by
  cases holds <;> simp [demand]

/-- A finding in the words of the report. -/
structure Diagnostic where
  pos : Position
  category : Category
  message : String
deriving DecidableEq, Repr

namespace Diagnostic

/-- Diagnostics are alike if they say the same, wherever they say it. -/
def same (a b : Diagnostic) : Bool := a.category == b.category && a.message == b.message

def text (d : Diagnostic) : String :=
  d.pos.display ++ ": [" ++ d.category.text ++ "] " ++ d.message

/-- The report on all diagnostics: their number, and then each on a line of its own. -/
def report (ds : List Diagnostic) : String :=
  let noun := if ds.length = 1 then " validation error" else " validation errors"
  toString ds.length ++ noun ++ String.join (ds.map fun d => "\n  " ++ d.text)

/-- The text occurs somewhere in the other. -/
def occursIn (needle : List Char) : List Char → Bool
  | [] => needle.isEmpty
  | c :: cs => needle.isPrefixOf (c :: cs) || occursIn needle cs

/-- Some message holds the text. -/
def mention (needle : String) (ds : List Diagnostic) : Bool :=
  ds.any fun d => occursIn needle.toList d.message.toList

end Diagnostic

/-! ## Looking back -/

/-- Checks each item in view of the items before it. -/
def eachAfter {α β : Type} (check : List α → α → List β) (earlier : List α) :
    List α → List β
  | [] => []
  | a :: as => check earlier a ++ eachAfter check (earlier ++ [a]) as

/-- A name between the marks that messages put around names. -/
def cite (name : String) : String := "'" ++ name ++ "'"

theorem eachAfter_append {α β : Type} (check : List α → α → List β) (earlier xs ys : List α) :
    eachAfter check earlier (xs ++ ys) =
      eachAfter check earlier xs ++ eachAfter check (earlier ++ xs) ys := by
  induction xs generalizing earlier with
  | nil => simp [eachAfter]
  | cons x xs ih => simp [eachAfter, ih, List.append_assoc]

/-- There are no findings if every item passes in view of those before it. -/
theorem eachAfter_eq_nil_iff {α β : Type} (check : List α → α → List β) (earlier as : List α) :
    eachAfter check earlier as = [] ↔
      ∀ xs a ys, as = xs ++ a :: ys → check (earlier ++ xs) a = [] := by
  induction as generalizing earlier with
  | nil => simp [eachAfter]
  | cons b bs ih =>
    simp only [eachAfter, List.append_eq_nil_iff, ih]
    constructor
    · rintro ⟨hb, hbs⟩ xs a ys h
      cases xs with
      | nil =>
        obtain ⟨rfl, rfl⟩ := List.cons.inj h
        simpa using hb
      | cons x xs =>
        simp only [List.cons_append, List.cons.injEq] at h
        obtain ⟨rfl, rfl⟩ := h
        simpa using hbs xs a ys rfl
    · intro h
      refine ⟨by simpa using h [] b bs rfl, fun xs a ys e => ?_⟩
      simpa using h (b :: xs) a ys (by simp [e])

end ServiceLang
