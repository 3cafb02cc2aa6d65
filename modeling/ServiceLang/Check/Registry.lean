/-!
Registries: the names that endpoints may use beside those that the program declares.

A list that is missing allows every name.
-/

namespace ServiceLang

/-- The names of middleware, annotations and logic actions that are known. -/
structure Registry where
  middleware : Option (List String)
  annotations : Option (List String)
  actions : Option (List String)
deriving DecidableEq, Repr, Inhabited

namespace Registry

/-- Knows no lists, and so allows every name. -/
def unrestricted : Registry := ⟨none, none, none⟩

/-- The names in order, each once. -/
def nameSet (names : List String) : List String :=
  ((names.mergeSort (fun a b => decide (a ≤ b))).splitBy (· == ·)).filterMap List.head?

/-- The registry with its lists in order and without repetitions. -/
def normalized (r : Registry) : Registry :=
  ⟨r.middleware.map nameSet, r.annotations.map nameSet, r.actions.map nameSet⟩

/-- A list allows a name if it is missing or has it. -/
def allows (names : Option (List String)) (name : String) : Bool :=
  match names with
  | none => true
  | some known => known.contains name

end Registry

end ServiceLang
