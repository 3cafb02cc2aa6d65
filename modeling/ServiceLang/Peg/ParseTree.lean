import ServiceLang.Peg.Cursor

/-!
Parse trees.

A node keeps the cursor at which its rule started and the offset at which it stopped, so its
text is read off the source and never stored twice.
-/

namespace ServiceLang.Peg

/-- A node of a parse tree: a rule, the text that it matched, and the nodes of the
rules matched inside. -/
inductive ParseTree (R : Type) where
  | node (rule : R) (start : Cursor) (stop : Nat) (children : List (ParseTree R))

namespace ParseTree

variable {R : Type}

def rule : ParseTree R → R
  | node r _ _ _ => r

/-- The byte offset at which the text of a node starts. -/
def offset : ParseTree R → Nat
  | node _ start _ _ => start.offset

/-- The nodes inside a node, in the order of the text. -/
def children : ParseTree R → List (ParseTree R)
  | node _ _ _ cs => cs

def text : ParseTree R → List Char
  | node _ start stop _ => takeBytes (stop - start.offset) start.rest

def string (t : ParseTree R) : String := String.ofList t.text

variable [DecidableEq R]

/-- The nodes of a rule inside a node. -/
def childrenOf (t : ParseTree R) (r : R) : List (ParseTree R) := t.children.filter (·.rule = r)

/-- The first node of a rule inside a node. -/
def firstOf? (t : ParseTree R) (r : R) : Option (ParseTree R) := t.children.find? (·.rule = r)

/-- There is a node of the rule inside a node. -/
def has (t : ParseTree R) (r : R) : Bool := t.children.any (·.rule = r)

/-- The text of the first node of a rule inside a node, empty if there is none. -/
def textOf (t : ParseTree R) (r : R) : String :=
  match t.firstOf? r with
  | some child => child.string
  | none => ""

/-- The texts of the nodes of a rule inside a node. -/
def textsOf (t : ParseTree R) (r : R) : List String := (t.childrenOf r).map string

end ParseTree

end ServiceLang.Peg
