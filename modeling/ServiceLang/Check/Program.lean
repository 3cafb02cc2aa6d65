import ServiceLang.Check.Endpoint
import ServiceLang.Check.Flow
import ServiceLang.Check.Schema
import ServiceLang.Check.Scope
import ServiceLang.Check.Wiring

/-!
Checking a program.

The passes are independent of each other, and their findings follow one another:
repeated names, names and types, schemas, endpoints, flows, and the wiring of events.
-/

namespace ServiceLang

/-- What can be wrong with a program. -/
inductive Problem where
  | duplicateName (problem : DuplicateName)
  | scope (problem : ScopeProblem)
  | schema (problem : SchemaProblem)
  | endpoint (problem : EndpointProblem)
  | flow (problem : FlowProblem)
  | wiring (problem : WiringProblem)

namespace Problem

/-- The category of a problem: semantic, unless it is one of names and types. -/
def category : Problem → Category
  | scope problem => problem.category
  | _ => .semantic

def message : Problem → String
  | duplicateName problem => problem.message
  | scope problem => problem.message
  | schema problem => problem.message
  | endpoint problem => problem.message
  | flow problem => problem.message
  | wiring problem => problem.message

/-- The problem depends on the registry. -/
def isMembership : Problem → Bool
  | endpoint problem => problem.isMembership
  | _ => false

end Problem

/-- A finding in the words of the report. -/
def Finding.diagnostic (f : Finding Problem) : Diagnostic :=
  ⟨f.pos, f.problem.category, f.problem.message⟩

namespace Program

/-- All problems of a program under a registry, in the order of the report. -/
def findings (p : Program) (registry : Registry) : List (Finding Problem) :=
  p.duplicateNames.map (·.map .duplicateName) ++ p.scopeFindings.map (·.map .scope) ++
    p.schemaFindings.map (·.map .schema) ++ (p.endpointFindings registry).map (·.map .endpoint) ++
    p.flowFindings.map (·.map .flow) ++ p.wiringFindings.map (·.map .wiring)

/-- The diagnostics of a program under a registry; a program without any is accepted. -/
def diagnostics (p : Program) (registry : Registry) : List Diagnostic :=
  (p.findings registry).map Finding.diagnostic

end Program

end ServiceLang
