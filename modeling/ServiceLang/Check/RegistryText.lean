import ServiceLang.Check.Registry
import ServiceLang.Json.Read

/-!
Reading registries.

A registry is an object with up to three lists of names, or a list of these lists in
their order.  A list that is missing or null allows every name.  Nothing else is
allowed, and the first fault of the text is reported.
-/

namespace ServiceLang

inductive RegistryFault where
  | malformed
  | unknownField (name : String)
  | duplicateField (name : String)
  | wrongType (found wanted : String)
  | tooManyLists (count : Nat)
deriving DecidableEq, Repr

namespace RegistryFault

def message : RegistryFault → String
  | malformed => "malformed document"
  | unknownField name =>
    "unknown field `" ++ name ++ "`, expected one of `middleware`, `annotations`, `actions`"
  | duplicateField name => "duplicate field `" ++ name ++ "`"
  | wrongType found wanted => "invalid type: " ++ found ++ ", expected " ++ wanted
  | tooManyLists count =>
    "invalid length " ++ toString count ++ ", expected fewer elements in array"

/-- The text is not even JSON, or has more in it than a registry can. -/
def isMalformed : RegistryFault → Bool
  | malformed | tooManyLists _ => true
  | _ => false

end RegistryFault

/-- A fault with the text that follows where it is reported. -/
structure RegistryError where
  fault : RegistryFault
  rest : List Char
deriving DecidableEq, Repr

namespace RegistryError

/-- The value is not of the kind wanted. -/
def wrongType (value : JsonValue) (wanted : String) : RegistryError :=
  ⟨.wrongType value.found wanted, value.rest⟩

def malformed : RegistryError := ⟨.malformed, []⟩

/-- The fault with the line and the column, in bytes, of the text in front of `rest`. -/
def display (text : List Char) (e : RegistryError) : String :=
  let before := text.take (text.length - e.rest.length)
  let line := before.count '\n' + 1
  let column := byteLength (before.reverse.takeWhile (· ≠ '\n'))
  e.fault.message ++ " at line " ++ toString line ++ " column " ++ toString column

end RegistryError

namespace Registry

def namesOf : List JsonValue → Except RegistryError (List String)
  | [] => .ok []
  | .string _ name :: items => (namesOf items).map (name :: ·)
  | .broken :: _ => .error .malformed
  | value :: _ => .error (.wrongType value "a string")

def list? : JsonValue → Except RegistryError (Option (List String))
  | .null _ => .ok none
  | .list _ items closed =>
    match namesOf items with
    | .error e => .error e
    | .ok names => if closed then .ok (some names) else .error .malformed
  | .broken => .error .malformed
  | value => .error (.wrongType value "a sequence")

/-- The registry with one of its lists replaced; there are no others. -/
def set? (r : Registry) (field : String) (names : Option (List String)) : Option Registry :=
  match field with
  | "middleware" => some { r with middleware := names }
  | "annotations" => some { r with annotations := names }
  | "actions" => some { r with actions := names }
  | _ => none

/-- Takes over the entries of an object. -/
def ofEntries (seen : List String) (r : Registry) :
    List (JsonKey × JsonValue) → Except RegistryError Registry
  | [] => .ok r
  | (key, value) :: entries =>
    match r.set? key.name none with
    | none => .error ⟨.unknownField key.name, key.rest⟩
    | some _ =>
      if key.name ∈ seen then .error ⟨.duplicateField key.name, key.rest⟩
      else
        match list? value with
        | .error e => .error e
        | .ok names => ofEntries (key.name :: seen) ((r.set? key.name names).getD r) entries

/-- Takes over the lists in their order; missing ones allow every name. -/
def ofItems (items : List JsonValue) : Except RegistryError Registry := do
  let at? (i : Nat) : Except RegistryError (Option (List String)) :=
    match items[i]? with
    | none => .ok none
    | some value => list? value
  let middleware ← at? 0
  let annotations ← at? 1
  let actions ← at? 2
  if 3 < items.length then throw ⟨.tooManyLists items.length, []⟩
  return ⟨middleware, annotations, actions⟩

/-- The registry that a value holds, with its names in order. -/
def ofValue (value : JsonValue) : Except RegistryError Registry :=
  let checked (closed : Bool) (r : Except RegistryError Registry) :=
    match r with
    | .error e => .error e
    | .ok r => if closed then .ok r.normalized else .error .malformed
  match value with
  | .object _ entries closed => checked closed (ofEntries [] unrestricted entries)
  | .list _ items closed => checked closed (ofItems items)
  | .broken => .error .malformed
  | value => .error (.wrongType value "struct Registry")

/-- The registry that a text holds; nothing but blanks can follow it. -/
def ofText (text : List Char) : Except RegistryError Registry :=
  let (value, rest) := JsonText.read text
  match ofValue value with
  | .error e => .error e
  | .ok r => if (JsonText.skip rest).isEmpty then .ok r else .error .malformed

end Registry

end ServiceLang
