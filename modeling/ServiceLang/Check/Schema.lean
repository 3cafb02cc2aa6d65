import ServiceLang.Ast.Node
import ServiceLang.Check.Finding
import ServiceLang.Text.Blank
import ServiceLang.Text.Split

/-!
The configuration and the schemas of databases.

All database blocks use the engine of the configuration, or the fallback engine if
there is none.  Relational engines hold models, whose fields are flat; document
engines hold collections, whose fields can embed documents a few levels deep.
-/

namespace ServiceLang

inductive SchemaKind where
  | model
  | collection
deriving DecidableEq, Repr

def SchemaKind.text : SchemaKind → String
  | model => "model"
  | collection => "collection"

/-- A schema as messages cite it. -/
structure SchemaRef where
  kind : SchemaKind
  name : String
deriving DecidableEq, Repr

def SchemaRef.text (r : SchemaRef) : String := r.kind.text ++ " " ++ cite r.name

/-- What can be wrong with the configuration and the schemas. -/
inductive SchemaProblem where
  | secondConfig (first : Position)
  | missingSetting (key : String)
  | engineMismatch (found expected : Engine) (configured : Bool)
  | noDocumentBlock (engine : Engine)
  | misplaced (schema : SchemaRef) (engine : Engine)
  | notSchema (kind : NodeKind)
  | duplicateSchema (schema : SchemaRef) (first : Position)
  | duplicateField (field : String) (schema : SchemaRef)
  | unknownType (type field : String) (schema : SchemaRef)
  | embeddedInModel (field : String)
  | unknownIndexed (path : String) (schema : SchemaRef)
  | relationalModifier (modifier field : String)
  | cannotEmbed (field type : String)
  | tooDeep (field : String)
  | duplicateModifier (modifier field : String)
  | unknownModifier (modifier field : String)
  | missingArgument (modifier field : String)
  | unexpectedArgument (modifier field : String)
  | requiredAndOptional (field : String)
deriving DecidableEq, Repr

/-- Documents are embedded at most so many levels deep. -/
def maxEmbedDepth : Nat := 5

namespace SchemaProblem

def message : SchemaProblem → String
  | secondConfig first =>
    "only one config block is allowed (first declared at " ++ first.display ++ ")"
  | missingSetting key => "mongodb config requires a non-empty " ++ key
  | engineMismatch found expected configured =>
    "database engine mismatch: block uses " ++ found.text ++ " but " ++
      (if configured then "config declares " else "default engine is ") ++ expected.text
  | noDocumentBlock engine =>
    engine.text ++ " config requires at least one " ++ engine.text ++ " database block"
  | misplaced schema engine =>
    schema.text ++ " is not allowed in a " ++ engine.text ++ " database; use " ++
      (match schema.kind with
        | .model => SchemaKind.collection.text
        | .collection => SchemaKind.model.text)
  | notSchema kind => kind.name ++ " is not allowed inside a database block"
  | duplicateSchema schema first =>
    "duplicate " ++ schema.text ++ " (first declared at " ++ first.display ++ ")"
  | duplicateField field schema => "duplicate field " ++ cite field ++ " in " ++ schema.text
  | unknownType type field schema =>
    "unknown type " ++ cite type ++ " for field " ++ cite field ++ " in " ++ schema.text
  | embeddedInModel field =>
    "field " ++ cite field ++
      " declares nested fields; only document collections support embedded fields"
  | unknownIndexed path schema =>
    "index references unknown field " ++ cite path ++ " in " ++ schema.text
  | relationalModifier modifier field =>
    "modifier @" ++ modifier ++ " is not supported on document field " ++ cite field
  | cannotEmbed field type =>
    "field " ++ cite field ++ " of type " ++ cite type ++ " cannot declare nested fields"
  | tooDeep field =>
    "embedded document " ++ cite field ++ " exceeds the maximum nesting depth of " ++
      toString maxEmbedDepth
  | duplicateModifier modifier field =>
    "duplicate modifier @" ++ modifier ++ " on field " ++ cite field
  | unknownModifier modifier field =>
    "unknown modifier @" ++ modifier ++ " on field " ++ cite field
  | missingArgument modifier field =>
    "modifier @" ++ modifier ++ " on field " ++ cite field ++ " requires an argument"
  | unexpectedArgument modifier field =>
    "modifier @" ++ modifier ++ " on field " ++ cite field ++ " takes no argument"
  | requiredAndOptional field =>
    "field " ++ cite field ++ " cannot be both required and optional"

end SchemaProblem

/-- Problems of schemas where they are found. -/
abbrev SchemaFindings := List (Finding SchemaProblem)

/-! ## Configuration -/

namespace Config

/-- The settings that a document engine needs. -/
def documentSettings : List String := ["mongodb_uri", "mongodb_database"]

/-- A setting is there if it is a string with more than white space in it. -/
def hasSetting (c : Config) (key : String) : Bool :=
  (Property.string? c.properties key).any fun value => !(Text.trim value.toList).isEmpty

/-- The settings that are missing. -/
def settingFindings (c : Config) : SchemaFindings :=
  if c.engine.isDocument then
    documentSettings.flatMap fun key => demand (c.hasSetting key) c.pos (.missingSetting key)
  else []

end Config

/-! ## Fields -/

def relationalTypes : List String :=
  ["string", "text", "int", "integer", "bigint", "float", "decimal", "boolean", "bool", "date",
    "datetime", "timestamp", "uuid", "json", "binary"]

def documentTypes : List String :=
  ["string", "int", "integer", "long", "double", "decimal", "boolean", "bool", "date",
    "timestamp", "objectid", "object", "array", "binary", "uuid"]

/-- The types of fields in collections that can embed fields. -/
def embeddingTypes : List String := ["object", "array"]

/-- The modifiers, and whether they take an argument. -/
def modifierArguments : List (String × Bool) :=
  [
    ("primary", false),
    ("unique", false),
    ("required", false),
    ("optional", false),
    ("index", false),
    ("default", true),
    ("auto_increment", false),
    ("foreign_key", true),
    ("references", true),
    ("cascade", false)
  ]

/-- The modifiers that documents do not know. -/
def relationalModifiers : List String := ["foreign_key", "references", "cascade"]

namespace Field

/-- What is wrong with a modifier, in view of those before it. -/
def checkModifier (field : String) (earlier : List Modifier) (m : Modifier) : SchemaFindings :=
  if earlier.any (·.name == m.name) then [⟨m.pos, .duplicateModifier m.name field⟩]
  else
    match modifierArguments.lookup m.name with
    | none => [⟨m.pos, .unknownModifier m.name field⟩]
    | some true => demand m.argument.isSome m.pos (.missingArgument m.name field)
    | some false => demand m.argument.isNone m.pos (.unexpectedArgument m.name field)

/-- A field has a modifier with this name. -/
def hasModifier (f : Field) (name : String) : Bool := f.modifiers.any (·.name == name)

def modifierFindings (f : Field) : SchemaFindings :=
  eachAfter (checkModifier f.name) [] f.modifiers ++
    demand (!(f.hasModifier "required" && f.hasModifier "optional")) f.pos
      (.requiredAndOptional f.name)

/-- What is wrong with the name and the type of a field, in view of the names before it. -/
def headFindings (schema : SchemaRef) (types : List String) (earlier : List String) (f : Field) :
    SchemaFindings :=
  demand (!earlier.contains f.name) f.pos (.duplicateField f.name schema) ++
    demand (types.contains f.fieldType) f.pos (.unknownType f.fieldType f.name schema)

/-- What is wrong with a field of a model, in view of the fields before it. -/
def modelFindings (schema : SchemaRef) (earlier : List Field) (f : Field) : SchemaFindings :=
  headFindings schema relationalTypes (earlier.map name) f ++ f.modifierFindings ++
    demand f.fields.isEmpty f.pos (.embeddedInModel f.name)

/-- The modifiers of a field that documents do not know. -/
def relationalFindings (f : Field) : SchemaFindings :=
  f.modifiers.flatMap fun m =>
    demand (!relationalModifiers.contains m.name) m.pos (.relationalModifier m.name f.name)

mutual

/-- What is wrong with a field of a collection that is so many levels deep, in view of
the names before it. -/
def documentFindings (schema : SchemaRef) (depth : Nat) (earlier : List String) :
    Field → SchemaFindings
  | .mk pos name type modifiers fields =>
    let f := Field.mk pos name type modifiers fields
    headFindings schema documentTypes earlier f ++ f.modifierFindings ++ f.relationalFindings ++
      if fields.isEmpty then []
      else if type ∉ embeddingTypes then [⟨pos, .cannotEmbed name type⟩]
      else if maxEmbedDepth < depth + 1 then [⟨pos, .tooDeep name⟩]
      else documentFindingsAll schema (depth + 1) [] fields

def documentFindingsAll (schema : SchemaRef) (depth : Nat) (earlier : List String) :
    List Field → SchemaFindings
  | [] => []
  | f :: fs =>
    f.documentFindings schema depth earlier ++
      documentFindingsAll schema depth (earlier ++ [f.name]) fs

end

/-- The names lead from field to embedded field. -/
def hasPath (fields : List Field) : List String → Bool
  | [] => true
  | name :: rest =>
    match fields.find? (·.name == name) with
    | none => false
    | some f => hasPath f.fields rest

end Field

/-! ## Schemas -/

namespace Model

/-- The paths in indexes that lead to no field. -/
def indexFindings (schema : SchemaRef) (hasField : String → Bool) (indexes : List Index) :
    SchemaFindings :=
  indexes.flatMap fun index =>
    index.fields.flatMap fun path =>
      demand (hasField path) index.pos (.unknownIndexed path schema)

def modelFindings (m : Model) : SchemaFindings :=
  let schema := ⟨.model, m.name⟩
  eachAfter (Field.modelFindings schema) [] m.fields ++
    indexFindings schema (fun name => m.fields.any (·.name == name)) m.indexes

/-- The names in a path with points. -/
def pathNames (path : String) : List String :=
  (Text.splitOn '.' path.toList).map String.ofList

def collectionFindings (m : Model) : SchemaFindings :=
  let schema := ⟨.collection, m.name⟩
  Field.documentFindingsAll schema 0 [] m.fields ++
    indexFindings schema (fun path => Field.hasPath m.fields (pathNames path)) m.indexes

end Model

/-! ## Databases -/

/-- A declaration in a database block with the engine of the block. -/
structure Placed where
  engine : Engine
  declaration : Stmt

namespace Placed

/-- The schema of a declaration that its engine can hold. -/
def schema? (p : Placed) : Option (SchemaKind × Model) :=
  match p.declaration with
  | .model m => if p.engine.isDocument then none else some (.model, m)
  | .collection m => if p.engine.isDocument then some (.collection, m) else none
  | _ => none

/-- Names of schemas are distinct over all blocks and both kinds. -/
def nameFindings (earlier : List Placed) (kind : SchemaKind) (m : Model) : SchemaFindings :=
  match (earlier.filterMap schema?).find? (·.2.name == m.name) with
  | none => []
  | some (_, first) => [⟨m.pos, .duplicateSchema ⟨kind, m.name⟩ first.pos⟩]

/-- What is wrong with a declaration in a database block, in view of those before it. -/
def findings (earlier : List Placed) (p : Placed) : SchemaFindings :=
  match p.schema?, p.declaration with
  | some (.model, m), _ => nameFindings earlier .model m ++ m.modelFindings
  | some (.collection, m), _ => nameFindings earlier .collection m ++ m.collectionFindings
  | none, .model m => [⟨m.pos, .misplaced ⟨.model, m.name⟩ p.engine⟩]
  | none, .collection m => [⟨m.pos, .misplaced ⟨.collection, m.name⟩ p.engine⟩]
  | none, other => [⟨other.pos, .notSchema other.kind⟩]

end Placed

structure DatabaseBlock where
  pos : Position
  engine : Engine
  declarations : List Stmt

namespace Program

/-- The configurations of a program, of which there should be one at most. -/
def configs (p : Program) : List Config :=
  p.statements.filterMap fun
    | .config c => some c
    | _ => none

/-- The database blocks of a program. -/
def databases (p : Program) : List DatabaseBlock :=
  p.statements.filterMap fun
    | .database pos engine declarations => some ⟨pos, engine, declarations⟩
    | _ => none

/-- The engine that database blocks have to use. -/
def engine (p : Program) : Engine := (p.configs.head?.map (·.engine)).getD .fallback

def configFindings (p : Program) : SchemaFindings :=
  match p.configs with
  | [] => []
  | first :: rest =>
    first.settingFindings ++ rest.map fun c => ⟨c.pos, .secondConfig first.pos⟩

/-- The blocks that use another engine, and a configured document engine if all blocks are
relational. -/
def engineFindings (p : Program) : SchemaFindings :=
  (p.databases.flatMap fun b =>
    demand (b.engine = p.engine) b.pos
      (.engineMismatch b.engine p.engine (!p.configs.isEmpty))) ++
    match p.configs.head? with
    | none => []
    | some c =>
      demand
        (!p.engine.isDocument || p.databases.isEmpty || p.databases.any (·.engine.isDocument))
        c.pos (.noDocumentBlock p.engine)

/-- The declarations in all database blocks. -/
def placed (p : Program) : List Placed :=
  p.databases.flatMap fun b => b.declarations.map (⟨b.engine, ·⟩)

/-- The problems of the configuration and the schemas in a program. -/
def schemaFindings (p : Program) : SchemaFindings :=
  p.configFindings ++ p.engineFindings ++ eachAfter Placed.findings [] p.placed

end Program

end ServiceLang
