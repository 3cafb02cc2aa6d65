import ServiceLang.Ast.Display
import ServiceLang.Check.Declared
import ServiceLang.Check.Registry
import ServiceLang.Format.Name

/-!
Endpoints.

Routes are distinct, and paths, annotations, middleware, request, response and the
steps of the logic have the forms that they need.  The registry decides which
annotations, middleware and actions are known; middleware that the program declares
is always known.
-/

namespace ServiceLang

structure Route where
  method : HttpMethod
  path : String
deriving DecidableEq, Repr

def Route.text (r : Route) : String := r.method.text ++ " " ++ r.path

/-- What can be wrong with an endpoint. -/
inductive EndpointProblem where
  | duplicateRoute (route : Route) (first : Position)
  | relativePath (path : String)
  | emptySegment (path : String)
  | duplicateParam (name path : String)
  | duplicateAnnotationName (name : String)
  | unknownAnnotationName (name : String)
  | emptyAuth
  | invalidRateLimit (value : String)
  | invalidVersion (value : String)
  | duplicateMiddleware (name : String)
  | unknownMiddleware (name : String)
  | invalidHandler (name : String) (route : Route)
  | undefinedRole (name : String) (route : Route)
  | invalidRequestType (name : String)
  | noRequestBody (method : HttpMethod)
  | invalidResponseType (name : String)
  | invalidStatus (status : Int)
  | invalidAction (action : String)
  | unknownAction (action : String)
  | invalidTarget (target : StepArg) (action : String)
  | invalidArgument (arg : StepArg) (action : String)
  | invalidOption (key action : String)
  | invalidOptionValue (value : StepArg) (key : String)
deriving DecidableEq, Repr

namespace EndpointProblem

def message : EndpointProblem → String
  | duplicateRoute route first =>
    "duplicate endpoint " ++ route.text ++ " (first declared at " ++ first.display ++ ")"
  | relativePath path => "path " ++ cite path ++ " must start with '/'"
  | emptySegment path => "path " ++ cite path ++ " contains an empty segment"
  | duplicateParam name path =>
    "duplicate path parameter " ++ cite (":" ++ name) ++ " in " ++ cite path
  | duplicateAnnotationName name => "duplicate annotation @" ++ name
  | unknownAnnotationName name => "unknown annotation @" ++ name
  | emptyAuth => "@auth requires a value"
  | invalidRateLimit value => "@rate_limit value " ++ cite value ++ " must be numeric"
  | invalidVersion value => "@version value " ++ cite value ++ " must look like v1 or 1.2"
  | duplicateMiddleware name => "duplicate middleware " ++ cite name ++ " on endpoint"
  | unknownMiddleware name => "unknown middleware " ++ cite name
  | invalidHandler name route => "invalid handler name " ++ cite name ++ " for " ++ route.text
  | undefinedRole name route => "undefined role " ++ cite name ++ " for " ++ route.text
  | invalidRequestType name => "request type " ++ cite name ++ " must be PascalCase"
  | noRequestBody method => method.text ++ " endpoints cannot read the request from body"
  | invalidResponseType name => "response type " ++ cite name ++ " must be PascalCase"
  | invalidStatus status => "invalid status code " ++ toString status ++ " (expected 100-599)"
  | invalidAction action => "invalid logic action " ++ cite action
  | unknownAction action => "unknown logic action " ++ cite action
  | invalidTarget target action =>
    "invalid target " ++ cite target.display ++ " for " ++ cite action
  | invalidArgument arg action => "invalid argument " ++ cite arg.display ++ " for " ++ cite action
  | invalidOption key action => "invalid option name " ++ cite key ++ " for " ++ cite action
  | invalidOptionValue value key =>
    "invalid value " ++ cite value.display ++ " for option " ++ cite key

/-- The problems that depend on the registry. -/
def isMembership : EndpointProblem → Bool
  | unknownAnnotationName _ | unknownMiddleware _ | unknownAction _ => true
  | _ => false

end EndpointProblem

/-- Problems of endpoints where they are found. -/
abbrev EndpointFindings := List (Finding EndpointProblem)

/-- Two slashes follow each other. -/
def hasEmptySegment : List Char → Bool
  | '/' :: '/' :: _ => true
  | _ :: cs => hasEmptySegment cs
  | [] => false

/-- The names of the parameters in a path: its segments after a colon. -/
def pathParams (path : String) : List String :=
  (Text.splitOn '/' path.toList).filterMap fun
    | ':' :: name => some (String.ofList name)
    | _ => none

def AnnotationSpec.valueFindings (a : AnnotationSpec) : EndpointFindings :=
  match a.name with
  | "auth" => demand (a.value.any (· ≠ "")) a.pos .emptyAuth
  | "rate_limit" => demand (a.value.any isNumeric) a.pos (.invalidRateLimit (a.value.getD ""))
  | "version" => demand (a.value.any isVersion) a.pos (.invalidVersion (a.value.getD ""))
  | _ => []

/-- What is wrong with an annotation, in view of those before it.  Of an annotation that
is there already no more is said. -/
def AnnotationSpec.findings (known : Option (List String)) (earlier : List AnnotationSpec)
    (a : AnnotationSpec) : EndpointFindings :=
  if earlier.any (·.name == a.name) then [⟨a.pos, .duplicateAnnotationName a.name⟩]
  else
    demand (Registry.allows known a.name) a.pos (.unknownAnnotationName a.name) ++ a.valueFindings

/-- A step word has to be quoted, an identifier path or a number. -/
def StepArg.isWord (a : StepArg) : Bool :=
  a.quoted || isIdentifierPath a.value || isNumeric a.value

namespace LogicStep

def optionFindings (s : LogicStep) (o : StepOption) : EndpointFindings :=
  demand (isIdentifier o.key) s.pos (.invalidOption o.key s.action) ++
    demand o.value.isWord s.pos (.invalidOptionValue o.value o.key)

/-- What is wrong with a step.  If its action is not even a word, no more is said. -/
def findings (known : Option (List String)) (s : LogicStep) : EndpointFindings :=
  if !isIdentifier s.action then [⟨s.pos, .invalidAction s.action⟩]
  else
    demand (Registry.allows known s.action) s.pos (.unknownAction s.action) ++
      (match s.target with
        | none => []
        | some target => demand target.isWord s.pos (.invalidTarget target s.action)) ++
      (s.args.flatMap fun arg => demand arg.isWord s.pos (.invalidArgument arg s.action)) ++
      s.options.flatMap s.optionFindings

end LogicStep

namespace Endpoint

/-- The method and the path of an endpoint. -/
def route (e : Endpoint) : Route := ⟨e.method, e.path⟩

/-- Routes are distinct. -/
def routeFindings (earlier : List Endpoint) (e : Endpoint) : EndpointFindings :=
  match earlier.find? (·.route == e.route) with
  | none => []
  | some first => [⟨e.pos, .duplicateRoute e.route first.pos⟩]

def pathFindings (e : Endpoint) : EndpointFindings :=
  demand (e.path.toList.head? = some '/') e.pos (.relativePath e.path) ++
    demand (!hasEmptySegment e.path.toList) e.pos (.emptySegment e.path) ++
    eachAfter
      (fun earlier name =>
        demand (!earlier.contains name) e.pos (.duplicateParam name e.path))
      [] (pathParams e.path)

/-- What is wrong with a middleware name, in view of those before it. -/
def middlewareFindings (e : Endpoint) (known : Option (List String)) (earlier : List String)
    (name : String) : EndpointFindings :=
  if earlier.contains name then [⟨e.pos, .duplicateMiddleware name⟩]
  else demand (Registry.allows known name) e.pos (.unknownMiddleware name)

/-- A role has to be declared, if any is. -/
def roleFindings (e : Endpoint) (ds : Declarations) : EndpointFindings :=
  match e.role with
  | none => []
  | some role => demand (!ds.hasAny .role || ds.has .role role) e.pos (.undefinedRole role e.route)

/-- A handler has to be an identifier. -/
def handlerFindings (e : Endpoint) : EndpointFindings :=
  match e.handler with
  | none => []
  | some handler => demand (isIdentifier handler) e.pos (.invalidHandler handler e.route)

/-- The methods whose requests have no body. -/
def hasNoBody (method : HttpMethod) : Bool := method = .get || method = .delete

def requestFindings (e : Endpoint) : EndpointFindings :=
  match e.request with
  | none => []
  | some r =>
    demand (isPascalCase r.typeName) r.pos (.invalidRequestType r.typeName) ++
      demand (r.source ≠ some .body || !hasNoBody e.method) r.pos (.noRequestBody e.method)

def responseFindings (e : Endpoint) : EndpointFindings :=
  match e.response with
  | none => []
  | some r =>
    demand (isPascalCase r.typeName) r.pos (.invalidResponseType r.typeName) ++
      demand (100 ≤ r.status && r.status ≤ 599) r.pos (.invalidStatus r.status)

/-- The known middleware: none is unknown without a list, and with one the declared
names count too. -/
def knownMiddleware (registry : Registry) (ds : Declarations) : Option (List String) :=
  registry.middleware.map fun names =>
    ((ds.entries.filter (·.kind == .middleware)).map (·.name)) ++ names

/-- What is wrong with an endpoint, in view of those before it. -/
def findings (registry : Registry) (ds : Declarations) (earlier : List Endpoint) (e : Endpoint) :
    EndpointFindings :=
  routeFindings earlier e ++ e.pathFindings ++
    eachAfter (AnnotationSpec.findings registry.annotations) [] e.annotations ++
    eachAfter (e.middlewareFindings (knownMiddleware registry ds)) [] e.middleware ++
    e.handlerFindings ++ e.roleFindings ds ++ e.requestFindings ++ e.responseFindings ++
    e.logic.flatMap (LogicStep.findings registry.actions)

end Endpoint

def Program.endpointFindings (p : Program) (registry : Registry) : EndpointFindings :=
  eachAfter (Endpoint.findings registry p.declarations) [] p.endpoints

end ServiceLang
