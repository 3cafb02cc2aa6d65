import ServiceLang.Ast.Expr

/-!
Declarations that main text holds: configuration, schemas of databases, access
control, events, integrations and webhooks.
-/

namespace ServiceLang

/-- A key with its value in the body of a declaration. -/
structure Property where
  pos : Position
  key : String
  value : Expr

namespace Property

/-- The first property with this key. -/
def find? (properties : List Property) (key : String) : Option Property :=
  properties.find? (·.key == key)

/-- The string under this key, if the first property with it holds a string literal. -/
def string? (properties : List Property) (key : String) : Option String :=
  (find? properties key).bind (·.value.string?)

def same (a b : Property) : Bool := a.key == b.key && a.value.same b.value

end Property

/-- The text with its ASCII capitals made small. -/
def asciiLower (text : String) : String := text.map Char.toLower

/-- The engines that a database block or the configuration can name. -/
inductive Engine where
  | postgres
  | mysql
  | sqlite
  | mongodb
deriving DecidableEq, Repr, Inhabited

namespace Engine

/-- The engine that a name stands for; ASCII case does not matter. -/
def ofName? (name : String) : Option Engine :=
  match asciiLower name with
  | "postgres" | "postgresql" => some postgres
  | "mysql" => some mysql
  | "sqlite" => some sqlite
  | "mongodb" | "mongo" => some mongodb
  | _ => none

/-- The engine where none is named, or none that is known. -/
def fallback : Engine := postgres

def text : Engine → String
  | postgres => "postgres"
  | mysql => "mysql"
  | sqlite => "sqlite"
  | mongodb => "mongodb"

/-- The name of the engine in the record view of programs. -/
def name : Engine → String
  | postgres => "Postgres"
  | mysql => "Mysql"
  | sqlite => "Sqlite"
  | mongodb => "Mongodb"

/-- Document engines hold collections, the others models. -/
def isDocument : Engine → Bool
  | mongodb => true
  | _ => false

end Engine

/-- The configuration of the program.  The engine is that of its `database_type`. -/
structure Config where
  pos : Position
  engine : Engine
  properties : List Property

/-! ## Schemas -/

/-- A modifier after the type of a field: `@name` or `@name(argument)`. -/
structure Modifier where
  pos : Position
  name : String
  argument : Option String

/-- A field of a model or collection, with the fields embedded in it. -/
inductive Field where
  | mk (pos : Position) (name : String) (fieldType : String) (modifiers : List Modifier)
    (fields : List Field)

namespace Field

def pos : Field → Position
  | mk p _ _ _ _ => p

def name : Field → String
  | mk _ n _ _ _ => n

def fieldType : Field → String
  | mk _ _ t _ _ => t

/-- The modifiers of a field, in the order of the text. -/
def modifiers : Field → List Modifier
  | mk _ _ _ ms _ => ms

def fields : Field → List Field
  | mk _ _ _ _ fs => fs

end Field

structure Index where
  pos : Position
  fields : List String
  unique : Bool

/-- A model of a relational database, or a collection of a document database. -/
structure Model where
  pos : Position
  name : String
  description : Option String
  fields : List Field
  indexes : List Index

/-! ## Access control -/

/-- The settings of authentication, perhaps for a named provider. -/
structure Auth where
  pos : Position
  provider : Option String
  properties : List Property

/-- A name with properties: the form of role and middleware declarations. -/
structure PropertyBlock where
  pos : Position
  name : String
  properties : List Property

/-! ## Events, integrations and webhooks -/

structure EventField where
  pos : Position
  name : String
  fieldType : String
  required : Bool

/-- An event, with the schema of its payload if one is written. -/
structure Event where
  pos : Position
  name : String
  schema : Option (List EventField)

/-- What happens on an event: `on event -> action target`. -/
structure EventHandler where
  pos : Position
  event : String
  action : String
  target : String
  isAsync : Bool

/-- How requests to an integration are authenticated. -/
structure IntegrationAuth where
  pos : Position
  kind : String
  properties : List Property

/-- When calls to an integration are given up.  Limits that are not written are zero
and a timeout that is not written is empty. -/
structure CircuitBreaker where
  pos : Position
  threshold : Int
  timeout : String
  maxConcurrent : Int

/-- A service that the program calls. -/
structure Integration where
  pos : Position
  name : String
  baseUrl : Option String
  auth : Option IntegrationAuth
  circuitBreaker : Option CircuitBreaker
  properties : List Property

/-- An address that is told of events. -/
structure Webhook where
  pos : Position
  name : String
  url : Option String
  events : List String
  secret : Option String
  properties : List Property

/-! ## Equality up to positions -/

/-- Equality up to positions of property lists. -/
def sameProperties : List Property → List Property → Bool := sameList Property.same

def Config.same (a b : Config) : Bool :=
  a.engine == b.engine && sameProperties a.properties b.properties

def Modifier.same (a b : Modifier) : Bool := a.name == b.name && a.argument == b.argument

mutual

def Field.same : Field → Field → Bool
  | .mk _ n t ms fs, .mk _ n' t' ms' fs' =>
    n == n' && t == t' && sameList Modifier.same ms ms' && Field.sameAll fs fs'

def Field.sameAll : List Field → List Field → Bool
  | [], [] => true
  | a :: as, b :: bs => a.same b && Field.sameAll as bs
  | _, _ => false

end

def Index.same (a b : Index) : Bool := a.fields == b.fields && a.unique == b.unique

def Model.same (a b : Model) : Bool :=
  a.name == b.name && a.description == b.description && Field.sameAll a.fields b.fields &&
    sameList Index.same a.indexes b.indexes

def Auth.same (a b : Auth) : Bool :=
  a.provider == b.provider && sameProperties a.properties b.properties

def PropertyBlock.same (a b : PropertyBlock) : Bool :=
  a.name == b.name && sameProperties a.properties b.properties

def EventField.same (a b : EventField) : Bool :=
  a.name == b.name && a.fieldType == b.fieldType && a.required == b.required

def Event.same (a b : Event) : Bool :=
  a.name == b.name && sameOption (sameList EventField.same) a.schema b.schema

def EventHandler.same (a b : EventHandler) : Bool :=
  a.event == b.event && a.action == b.action && a.target == b.target && a.isAsync == b.isAsync

def IntegrationAuth.same (a b : IntegrationAuth) : Bool :=
  a.kind == b.kind && sameProperties a.properties b.properties

def CircuitBreaker.same (a b : CircuitBreaker) : Bool :=
  a.threshold == b.threshold && a.timeout == b.timeout && a.maxConcurrent == b.maxConcurrent

def Integration.same (a b : Integration) : Bool :=
  a.name == b.name && a.baseUrl == b.baseUrl && sameOption IntegrationAuth.same a.auth b.auth &&
    sameOption CircuitBreaker.same a.circuitBreaker b.circuitBreaker &&
    sameProperties a.properties b.properties

def Webhook.same (a b : Webhook) : Bool :=
  a.name == b.name && a.url == b.url && a.events == b.events && a.secret == b.secret &&
    sameProperties a.properties b.properties

end ServiceLang
