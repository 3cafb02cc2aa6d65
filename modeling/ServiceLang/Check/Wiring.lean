import ServiceLang.Check.Declared
import ServiceLang.Format.Duration
import ServiceLang.Format.Name
import ServiceLang.Format.Url.Check

/-!
Events, their handlers, integrations and webhooks.

Handlers join events to workflows, integrations and webhooks that the program
declares, before or after the handler, or emit a further event.
-/

namespace ServiceLang

/-- What can be wrong with events and with what they are joined to. -/
inductive WiringProblem where
  | invalidEvent (event : String)
  | duplicateField (field event : String)
  | unknownType (type field event : String)
  | undefinedEvent (event : String)
  | invalidEmitted (event : String)
  | unknownAction (action : String)
  | undeclaredTarget (kind : DeclaredKind) (target : String)
  | noBaseUrl (integration : String)
  | invalidBaseUrl (url integration : String) (fault : UrlFault)
  | unknownAuth (kind integration : String)
  | missingAuthKey (kind integration key : String)
  | breakerThreshold (integration : String)
  | breakerConcurrency (integration : String)
  | breakerNoTimeout (integration : String)
  | breakerTimeout (text integration : String) (fault : DurationFault)
  | noUrl (webhook : String)
  | invalidUrl (url webhook : String) (fault : UrlFault)
  | invalidWebhookEvent (event webhook : String)
deriving DecidableEq, Repr

/-- What handlers can do, in the order in which messages list it. -/
def handlerActions : List String := ["workflow", "integration", "emit", "webhook"]

namespace WiringProblem

def message : WiringProblem → String
  | invalidEvent event =>
    "invalid event name " ++ cite event ++
      " (expected lowercase dotted segments like user.created)"
  | duplicateField field event => "duplicate field " ++ cite field ++ " in event " ++ cite event
  | unknownType type field event =>
    "unknown type " ++ cite type ++ " for field " ++ cite field ++ " in event " ++ cite event
  | undefinedEvent event => "handler references undefined event " ++ cite event
  | invalidEmitted event => "invalid event name " ++ cite event ++ " in emit target"
  | unknownAction action =>
    "unknown handler action " ++ cite action ++ " (expected " ++ ", ".intercalate handlerActions ++
      ")"
  | undeclaredTarget kind target =>
    "handler target " ++ kind.text ++ " " ++ cite target ++ " is not declared"
  | noBaseUrl integration => "integration " ++ cite integration ++ " requires a base_url"
  | invalidBaseUrl url integration fault =>
    "invalid base_url " ++ cite url ++ " for integration " ++ cite integration ++ ": " ++
      fault.message
  | unknownAuth kind integration =>
    "unsupported auth type " ++ cite kind ++ " for integration " ++ cite integration
  | missingAuthKey kind integration key =>
    kind ++ " auth for integration " ++ cite integration ++ " requires " ++ cite key
  | breakerThreshold integration =>
    "circuit breaker threshold for " ++ cite integration ++ " must be positive"
  | breakerConcurrency integration =>
    "circuit breaker max_concurrent for " ++ cite integration ++ " must be positive"
  | breakerNoTimeout integration =>
    "circuit breaker timeout for " ++ cite integration ++ " is required"
  | breakerTimeout text integration fault =>
    "invalid circuit breaker timeout " ++ cite text ++ " for " ++ cite integration ++ ": " ++
      fault.message
  | noUrl webhook => "webhook " ++ cite webhook ++ " requires a url"
  | invalidUrl url webhook fault =>
    "invalid url " ++ cite url ++ " for webhook " ++ cite webhook ++ ": " ++ fault.message
  | invalidWebhookEvent event webhook =>
    "invalid event name " ++ cite event ++ " in webhook " ++ cite webhook

end WiringProblem

/-- Problems of events and what they are joined to, where they are found. -/
abbrev WiringFindings := List (Finding WiringProblem)

def payloadTypes : List String :=
  ["string", "number", "int", "integer", "float", "boolean", "bool", "object", "array", "date",
    "datetime", "timestamp", "uuid"]

/-- What is wrong with a field of an event, in view of those before it. -/
def EventField.findings (event : String) (earlier : List EventField) (f : EventField) :
    WiringFindings :=
  demand (!earlier.any (·.name == f.name)) f.pos (.duplicateField f.name event) ++
    demand (payloadTypes.contains f.fieldType) f.pos (.unknownType f.fieldType f.name event)

def Event.findings (e : Event) : WiringFindings :=
  demand (isEventName e.name) e.pos (.invalidEvent e.name) ++
    eachAfter (EventField.findings e.name) [] (e.schema.getD [])

namespace EventHandler

/-- A target has to be declared. -/
def targetFindings (ds : Declarations) (kind : DeclaredKind) (h : EventHandler) : WiringFindings :=
  demand (ds.has kind h.target) h.pos (.undeclaredTarget kind h.target)

def actionFindings (ds : Declarations) (h : EventHandler) : WiringFindings :=
  match h.action with
  | "workflow" => h.targetFindings ds .workflow
  | "integration" => h.targetFindings ds .integration
  | "webhook" => h.targetFindings ds .webhook
  | "emit" => demand (isEventName h.target) h.pos (.invalidEmitted h.target)
  | action => [⟨h.pos, .unknownAction action⟩]

def findings (ds : Declarations) (h : EventHandler) : WiringFindings :=
  demand (ds.has .event h.event) h.pos (.undefinedEvent h.event) ++ h.actionFindings ds

end EventHandler

/-- The ways to authenticate requests, with the keys that each of them needs. -/
def authKeys : List (String × List String) :=
  [
    ("bearer", ["token"]),
    ("apikey", ["header", "value"]),
    ("basic", ["username", "password"])
  ]

def IntegrationAuth.findings (integration : String) (a : IntegrationAuth) : WiringFindings :=
  match authKeys.lookup a.kind with
  | none => [⟨a.pos, .unknownAuth a.kind integration⟩]
  | some keys =>
    keys.flatMap fun key =>
      demand (Property.find? a.properties key).isSome a.pos (.missingAuthKey a.kind integration key)

def CircuitBreaker.findings (integration : String) (b : CircuitBreaker) : WiringFindings :=
  demand (0 < b.threshold) b.pos (.breakerThreshold integration) ++
    demand (0 < b.maxConcurrent) b.pos (.breakerConcurrency integration) ++
    if b.timeout = "" then [⟨b.pos, .breakerNoTimeout integration⟩]
    else
      match Duration.parse b.timeout with
      | .ok _ => []
      | .error fault => [⟨b.pos, .breakerTimeout b.timeout integration fault⟩]

namespace Integration

def urlFindings (i : Integration) : WiringFindings :=
  match i.baseUrl with
  | none => [⟨i.pos, .noBaseUrl i.name⟩]
  | some url =>
    match Url.check url with
    | .ok () => []
    | .error fault => [⟨i.pos, .invalidBaseUrl url i.name fault⟩]

def findings (i : Integration) : WiringFindings :=
  i.urlFindings ++
    (match i.auth with
      | none => []
      | some auth => auth.findings i.name) ++
    match i.circuitBreaker with
    | none => []
    | some breaker => breaker.findings i.name

end Integration

namespace Webhook

def urlFindings (w : Webhook) : WiringFindings :=
  match w.url with
  | none => [⟨w.pos, .noUrl w.name⟩]
  | some url =>
    match Url.check url with
    | .ok () => []
    | .error fault => [⟨w.pos, .invalidUrl url w.name fault⟩]

def findings (w : Webhook) : WiringFindings :=
  w.urlFindings ++
    w.events.flatMap fun event =>
      demand (isEventName event) w.pos (.invalidWebhookEvent event w.name)

end Webhook

/-- What is wrong with a statement, if it is about events. -/
def Stmt.wiringFindings (ds : Declarations) : Stmt → WiringFindings
  | .event e => e.findings
  | .eventHandler h => h.findings ds
  | .integration i => i.findings
  | .webhook w => w.findings
  | _ => []

/-- The problems of events and what they are joined to in a program. -/
def Program.wiringFindings (p : Program) : WiringFindings :=
  p.statements.flatMap (Stmt.wiringFindings p.declarations)

end ServiceLang
