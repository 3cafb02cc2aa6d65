import ServiceLang.Ast.Expr

/-!
Endpoints: a method and a path, with what is done on a request.
-/

namespace ServiceLang

inductive HttpMethod where
  | get
  | post
  | put
  | patch
  | delete
  | head
  | options
deriving DecidableEq, Repr, Inhabited

namespace HttpMethod

def all : List HttpMethod := [get, post, put, patch, delete, head, options]

def text : HttpMethod → String
  | get => "GET"
  | post => "POST"
  | put => "PUT"
  | patch => "PATCH"
  | delete => "DELETE"
  | head => "HEAD"
  | options => "OPTIONS"

/-- The name of the method in the record view of programs. -/
def name : HttpMethod → String
  | get => "Get"
  | post => "Post"
  | put => "Put"
  | patch => "Patch"
  | delete => "Delete"
  | head => "Head"
  | options => "Options"

/-- The method that a word stands for; ASCII case does not matter. -/
def ofName? (word : String) : Option HttpMethod :=
  all.find? (·.text = word.map Char.toUpper)

end HttpMethod

inductive RequestSource where
  | body
  | query
  | params
  | headers
  | form
deriving DecidableEq, Repr

namespace RequestSource

def all : List RequestSource := [body, query, params, headers, form]

def text : RequestSource → String
  | body => "body"
  | query => "query"
  | params => "params"
  | headers => "headers"
  | form => "form"

/-- The name of the source in the record view of programs. -/
def name : RequestSource → String
  | body => "Body"
  | query => "Query"
  | params => "Params"
  | headers => "Headers"
  | form => "Form"

def ofName? (word : String) : Option RequestSource := all.find? (·.text = word)

end RequestSource

/-- An annotation in front of an endpoint: `@name` or `@name(value)`. -/
structure AnnotationSpec where
  pos : Position
  name : String
  value : Option String

/-- The type of the request, and where it comes from if that is said. -/
structure RequestSpec where
  pos : Position
  typeName : String
  source : Option RequestSource

/-- The type of the response and its status code. -/
structure ResponseSpec where
  pos : Position
  typeName : String
  status : Int

/-- A word in a logic step, or a quoted string in place of one. -/
structure StepArg where
  value : String
  quoted : Bool
deriving DecidableEq, Repr

structure StepOption where
  key : String
  value : StepArg
deriving DecidableEq, Repr

structure LogicStep where
  pos : Position
  action : String
  target : Option StepArg
  args : List StepArg
  options : List StepOption

structure Endpoint where
  pos : Position
  method : HttpMethod
  path : String
  description : Option String
  handler : Option String
  middleware : List String
  role : Option String
  annotations : List AnnotationSpec
  request : Option RequestSpec
  response : Option ResponseSpec
  logic : List LogicStep

/-! ## Equality up to positions -/

def AnnotationSpec.same (a b : AnnotationSpec) : Bool := a.name == b.name && a.value == b.value

def RequestSpec.same (a b : RequestSpec) : Bool := a.typeName == b.typeName && a.source == b.source

def ResponseSpec.same (a b : ResponseSpec) : Bool :=
  a.typeName == b.typeName && a.status == b.status

def LogicStep.same (a b : LogicStep) : Bool :=
  a.action == b.action && a.target == b.target && a.args == b.args && a.options == b.options

def Endpoint.same (a b : Endpoint) : Bool :=
  a.method == b.method && a.path == b.path && a.description == b.description &&
    a.handler == b.handler && a.middleware == b.middleware && a.role == b.role &&
    sameList AnnotationSpec.same a.annotations b.annotations &&
    sameOption RequestSpec.same a.request b.request &&
    sameOption ResponseSpec.same a.response b.response &&
    sameList LogicStep.same a.logic b.logic

end ServiceLang
