import ServiceLang.Ast.Program
import ServiceLang.Lower.Expr
import ServiceLang.Text.Blank

/-!
From parse trees of declarations to declarations.

Settings that stand twice count once: of keys that a declaration knows the last
one wins, of properties that are looked up by key the first.
-/

namespace ServiceLang.MainGrammar

open Peg

/-- The value of the string literal inside a node, if there is one. -/
def stringIn? (t : ParseTree Rule) : Option String :=
  (t.firstOf? (.lexeme .string)).map fun s => Text.literalValue s.text

def exprIn (place : Nat → Position) (t : ParseTree Rule) : Lowered Expr :=
  match t.firstOf? .expr with
  | some e => lowerExpr place e
  | none => .error ⟨t.offset, .malformed t.rule.name⟩

def lowerProperty (place : Nat → Position) (t : ParseTree Rule) : Lowered Property := do
  return ⟨place t.offset, t.textOf .propertyKey, ← exprIn place t⟩

def propertiesIn (place : Nat → Position) (t : ParseTree Rule) : Lowered (List Property) :=
  (t.childrenOf .property).mapM (lowerProperty place)

def identIn (t : ParseTree Rule) : String := t.textOf (.lexeme .ident)

def lowerPropertyBlock (place : Nat → Position) (t : ParseTree Rule) : Lowered PropertyBlock := do
  return ⟨place t.offset, identIn t, ← propertiesIn place t⟩

/-! ## Configuration and schemas -/

/-- The configuration, with the engine that it names. -/
def lowerConfig (place : Nat → Position) (t : ParseTree Rule) : Lowered Config := do
  let properties ← propertiesIn place t
  let engine := (Property.string? properties "database_type").bind Engine.ofName?
  return ⟨place t.offset, engine.getD .fallback, properties⟩

/-- A modifier.  Its argument is a string or a bare value. -/
def lowerModifier (place : Nat → Position) (t : ParseTree Rule) : Modifier :=
  let bare := t.children.find? fun c =>
    c.rule = .lexeme .number || c.rule = .lexeme .boolLit || c.rule = .fieldPath
  ⟨place t.offset, t.textOf .modifierName, (stringIn? t).or (bare.map ParseTree.string)⟩

mutual

def lowerField (place : Nat → Position) : ParseTree Rule → Field
  | .node rule start stop children =>
    let t := ParseTree.node rule start stop children
    .mk (place start.offset) (t.textOf .fieldName) (t.textOf .typeName)
      ((t.childrenOf .modifier).map (lowerModifier place)) (lowerFields place children)

def lowerFields (place : Nat → Position) : List (ParseTree Rule) → List Field
  | [] => []
  | t :: ts =>
    if t.rule = .fieldDecl then lowerField place t :: lowerFields place ts
    else lowerFields place ts

end

def lowerIndex (place : Nat → Position) (t : ParseTree Rule) : Index :=
  ⟨place t.offset, t.textsOf .fieldPath, t.has (.word .unique)⟩

def lowerModel (place : Nat → Position) (t : ParseTree Rule) : Model :=
  ⟨place t.offset, identIn t, stringIn? t, lowerFields place t.children,
    (t.childrenOf .indexDecl).map (lowerIndex place)⟩

/-- The models and collections among the nodes. -/
def lowerModels (place : Nat → Position) (ts : List (ParseTree Rule)) : List Stmt :=
  ts.filterMap fun t =>
    match t.rule with
    | .modelDecl => some (.model (lowerModel place t))
    | .collectionDecl => some (.collection (lowerModel place t))
    | _ => none

def lowerDatabase (place : Nat → Position) (t : ParseTree Rule) : Stmt :=
  .database (place t.offset) ((Engine.ofName? (t.textOf .engineName)).getD .fallback)
    (lowerModels place t.children)

/-! ## Access control -/

def lowerAuth (place : Nat → Position) (t : ParseTree Rule) : Lowered Auth := do
  let provider := (t.firstOf? (.lexeme .ident)).map ParseTree.string
  return ⟨place t.offset, provider, ← propertiesIn place t⟩

/-! ## Events, integrations and webhooks -/

def lowerEventField (place : Nat → Position) (t : ParseTree Rule) : EventField :=
  ⟨place t.offset, t.textOf .fieldName, t.textOf .typeName, !t.has .optionalMark⟩

/-- An event.  Its braces leave no node, so they are looked for at the end of its
text, which takes in the trivia that follows a missing schema. -/
def lowerEvent (place : Nat → Position) (t : ParseTree Rule) : Event :=
  let fields := (t.childrenOf .schemaField).map (lowerEventField place)
  let hasSchema := (Text.trimEnd t.text).getLast? = some '\x7d'
  ⟨place t.offset, t.textOf .eventName, if hasSchema then some fields else none⟩

def lowerEventHandler (place : Nat → Position) (t : ParseTree Rule) : EventHandler :=
  let names := t.textsOf .eventName
  ⟨place t.offset, names.headD "", t.textOf .handlerAction, (names.drop 1).headD "",
    t.has (.word .async)⟩

/-- The number that an expression writes, with a minus sign or without. -/
def signedNumber? : Expr → Option Float
  | .number _ value => some value
  | .unary _ .neg operand => operand.number?.map fun value => -value
  | _ => none

/-- A limit of a circuit breaker: a whole number. -/
def breakerLimit (offset : Nat) (p : Property) : Lowered Int :=
  match signedNumber? p.value with
  | none => .error ⟨offset, .breakerNotNumber p.key p.value⟩
  | some value =>
    if Decimal.isInteger value then .ok (Decimal.toInteger value)
    else .error ⟨offset, .breakerNotWhole p.key value⟩

def addBreakerProperty (place : Nat → Position) (breaker : CircuitBreaker) (t : ParseTree Rule) :
    Lowered CircuitBreaker := do
  let p ← lowerProperty place t
  match p.key with
  | "threshold" => return { breaker with threshold := ← breakerLimit t.offset p }
  | "max_concurrent" => return { breaker with maxConcurrent := ← breakerLimit t.offset p }
  | "timeout" => return { breaker with timeout := p.value.string?.getD "" }
  | _ => return breaker

def lowerCircuitBreaker (place : Nat → Position) (t : ParseTree Rule) : Lowered CircuitBreaker :=
  (t.childrenOf .property).foldlM (addBreakerProperty place) ⟨place t.offset, 0, "", 0⟩

def lowerIntegrationAuth (place : Nat → Position) (t : ParseTree Rule) :
    Lowered IntegrationAuth := do
  return ⟨place t.offset, identIn t, ← propertiesIn place t⟩

def addIntegrationPart (place : Nat → Position) (i : Integration) (t : ParseTree Rule) :
    Lowered Integration := do
  match t.rule with
  | .integrationAuth => return { i with auth := some (← lowerIntegrationAuth place t) }
  | .circuitBreaker => return { i with circuitBreaker := some (← lowerCircuitBreaker place t) }
  | .property =>
    let p ← lowerProperty place t
    if p.key = "base_url" then return { i with baseUrl := p.value.string? }
    else return { i with properties := i.properties ++ [p] }
  | _ => return i

def lowerIntegration (place : Nat → Position) (t : ParseTree Rule) : Lowered Integration :=
  t.children.foldlM (addIntegrationPart place) ⟨place t.offset, identIn t, none, none, none, []⟩

/-- The name of an event in the list of a webhook. -/
def listedEvent : Expr → String
  | .ident _ name => name
  | .string _ value => value
  | e => e.display

def addWebhookProperty (w : Webhook) (p : Property) : Webhook :=
  match p.key with
  | "url" => { w with url := p.value.string? }
  | "secret" => { w with secret := p.value.string? }
  | "events" =>
    match p.value with
    | .array _ elements => { w with events := elements.map listedEvent }
    | _ => w
  | _ => { w with properties := w.properties ++ [p] }

def lowerWebhook (place : Nat → Position) (t : ParseTree Rule) : Lowered Webhook := do
  let properties ← propertiesIn place t
  return properties.foldl addWebhookProperty ⟨place t.offset, identIn t, none, [], none, []⟩

def lowerDeclaration? (place : Nat → Position) (t : ParseTree Rule) : Option (Lowered Stmt) :=
  match t.rule with
  | .configDecl => some (.config <$> lowerConfig place t)
  | .databaseDecl => some (.ok (lowerDatabase place t))
  | .authDecl => some (.auth <$> lowerAuth place t)
  | .roleDecl => some (.role <$> lowerPropertyBlock place t)
  | .middlewareDecl => some (.middleware <$> lowerPropertyBlock place t)
  | .eventDecl => some (.ok (.event (lowerEvent place t)))
  | .eventHandler => some (.ok (.eventHandler (lowerEventHandler place t)))
  | .integrationDecl => some (.integration <$> lowerIntegration place t)
  | .webhookDecl => some (.webhook <$> lowerWebhook place t)
  | _ => none

end ServiceLang.MainGrammar
