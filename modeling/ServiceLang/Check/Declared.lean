import ServiceLang.Ast.Program
import ServiceLang.Check.Finding

/-!
The names that a program declares at its top level.

Seven kinds of declarations have names by which others refer to them.  Names of
different kinds do not interfere.  The first declaration of a name counts, and every
later one of the same kind is reported.
-/

namespace ServiceLang

/-- The kinds of declarations that others refer to by name. -/
inductive DeclaredKind where
  | role
  | middleware
  | event
  | workflow
  | job
  | integration
  | webhook
deriving DecidableEq, Repr

def DeclaredKind.text : DeclaredKind → String
  | role => "role"
  | middleware => "middleware"
  | event => "event"
  | workflow => "workflow"
  | job => "job"
  | integration => "integration"
  | webhook => "webhook"

structure Declared where
  kind : DeclaredKind
  name : String
  pos : Position
deriving DecidableEq, Repr

/-- The name that a statement declares. -/
def Stmt.declared? : Stmt → Option Declared
  | .role r => some ⟨.role, r.name, r.pos⟩
  | .middleware m => some ⟨.middleware, m.name, m.pos⟩
  | .event e => some ⟨.event, e.name, e.pos⟩
  | .workflow f => some ⟨.workflow, f.name, f.pos⟩
  | .job j => some ⟨.job, j.flow.name, j.flow.pos⟩
  | .integration i => some ⟨.integration, i.name, i.pos⟩
  | .webhook w => some ⟨.webhook, w.name, w.pos⟩
  | _ => none

/-- The first declarations of names, in the order of the program. -/
structure Declarations where
  entries : List Declared

namespace Declarations

/-- The first declaration of a name. -/
def find? (ds : Declarations) (kind : DeclaredKind) (name : String) : Option Declared :=
  ds.entries.find? fun d => d.kind == kind && d.name == name

def has (ds : Declarations) (kind : DeclaredKind) (name : String) : Bool :=
  (ds.find? kind name).isSome

/-- Some name of this kind is declared. -/
def hasAny (ds : Declarations) (kind : DeclaredKind) : Bool := ds.entries.any (·.kind == kind)

/-- The declarations with one more, unless its name is taken. -/
def add (ds : Declarations) (d : Declared) : Declarations :=
  if ds.has d.kind d.name then ds else ⟨ds.entries ++ [d]⟩

def empty : Declarations := ⟨[]⟩

end Declarations

/-- A name is declared again; it was first declared at a position. -/
structure DuplicateName where
  kind : DeclaredKind
  name : String
  first : Position
deriving DecidableEq, Repr

def DuplicateName.message (d : DuplicateName) : String :=
  "duplicate " ++ d.kind.text ++ " " ++ cite d.name ++ " (first declared at " ++
    d.first.display ++ ")"

namespace Program

/-- The names that the statements of a program declare, repetitions included. -/
def declared (p : Program) : List Declared := p.statements.filterMap Stmt.declared?

/-- The index of the declared names. -/
def declarations (p : Program) : Declarations := p.declared.foldl .add .empty

/-- Every declaration of a name that was declared before. -/
def duplicateNames (p : Program) : List (Finding DuplicateName) :=
  eachAfter
    (fun earlier d =>
      match (Declarations.mk earlier).find? d.kind d.name with
      | none => []
      | some first => [⟨d.pos, ⟨d.kind, d.name, first.pos⟩⟩])
    [] p.declared

end Program

end ServiceLang
