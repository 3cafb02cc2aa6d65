import ServiceLang.Ast.Program
import ServiceLang.Decimal.Read
import ServiceLang.Grammar.Flow
import ServiceLang.Lower.Defect
import ServiceLang.Peg.ParseTree
import ServiceLang.Text.Escape

/-!
From parse trees of flow regions to workflows and jobs.

`schedule "…"` is short for a trigger of that kind.  Of members that stand twice
the last one wins.  Only jobs may limit their concurrency.
-/

namespace ServiceLang.FlowGrammar

open Peg

/-- The value of the string literal inside a node, if there is one. -/
def stringIn? (t : ParseTree Rule) : Option String :=
  (t.firstOf? (.lexeme .string)).map fun s => Text.literalValue s.text

def identIn (t : ParseTree Rule) : String := t.textOf (.lexeme .ident)

/-- The whole number that a node writes. -/
def wholeNumber (setting : WholeSetting) (t : ParseTree Rule) : Lowered Int :=
  let value := Decimal.ofLiteral t.text
  if Decimal.isInteger value then .ok (Decimal.toInteger value)
  else .error ⟨t.offset, .notWhole setting⟩

/-! ## Triggers and retries -/

def lowerTrigger (place : Nat → Position) (t : ParseTree Rule) : Lowered Trigger :=
  match TriggerKind.ofName? (t.textOf .triggerKind) with
  | some kind => .ok ⟨place t.offset, kind, stringIn? t⟩
  | none => .error ⟨t.offset, .malformed t.rule.name⟩

/-- The value of a retry setting: a number or a string. -/
inductive RetryValue where
  | number (t : ParseTree Rule)
  | string (value : String)

/-- The key of a retry setting, the offset of its value, and the value. -/
def retryEntry? (t : ParseTree Rule) : Option (String × Nat × RetryValue) :=
  match t.children with
  | [key, value] =>
    if value.rule = .signedNumber then some (key.string, value.offset, .number value)
    else some (key.string, value.offset, .string (Text.literalValue value.text))
  | _ => none

def addRetryEntry (r : RetryPolicy) (t : ParseTree Rule) : Lowered RetryPolicy :=
  match retryEntry? t with
  | none => .error ⟨t.offset, .malformed t.rule.name⟩
  | some (key, offset, value) =>
    match key, value with
    | "max_attempts", .number n =>
      (wholeNumber .maxAttempts n).map fun value => { r with maxAttempts := some value }
    | "backoff_coefficient", .number n =>
      .ok { r with backoffCoefficient := some (Decimal.ofLiteral n.text) }
    | "initial_interval", .string s => .ok { r with initialInterval := some s }
    | "max_interval", .string s => .ok { r with maxInterval := some s }
    | key, .number _ => .error ⟨offset, .retryNeedsDuration key⟩
    | key, .string _ => .error ⟨offset, .retryNeedsNumber key⟩

def lowerRetry (place : Nat → Position) (t : ParseTree Rule) : Lowered RetryPolicy :=
  (t.childrenOf .retryEntry).foldlM addRetryEntry ⟨place t.offset, none, none, none, none⟩

/-! ## Steps -/

mutual

def lowerValue (place : Nat → Position) : ParseTree Rule → Lowered Expr
  | .node rule start stop children =>
    let t := ParseTree.node rule start stop children
    let pos := place start.offset
    match rule with
    | .lexeme .string => .ok (.string pos (Text.literalValue t.text))
    | .signedNumber => .ok (.number pos (Decimal.ofLiteral t.text))
    | .lexeme .boolLit => .ok (.bool pos (t.text = "true".toList))
    | .lexeme .ident => .ok (.ident pos t.string)
    | .arrayValue => (lowerValues place children).map (.array pos ·)
    | _ => .error ⟨start.offset, .malformed rule.name⟩

def lowerValues (place : Nat → Position) : List (ParseTree Rule) → Lowered (List Expr)
  | [] => .ok []
  | t :: ts =>
    match lowerValue place t with
    | .error e => .error e
    | .ok value => (lowerValues place ts).map (value :: ·)

end

def lowerInput (place : Nat → Position) (t : ParseTree Rule) : Lowered Property :=
  match t.children with
  | [key, value] => (lowerValue place value).map fun v => ⟨place t.offset, key.string, v⟩
  | _ => .error ⟨t.offset, .malformed t.rule.name⟩

/-- A step of which nothing has been read yet. -/
def newStep (pos : Position) (kind : StepKind) : Step :=
  ⟨pos, "", kind, none, none, [], none, none, [], []⟩

def addStepPart (place : Nat → Position) (s : Step) (t : ParseTree Rule) : Lowered Step :=
  match t.rule with
  | .lexeme .ident => .ok { s with name := t.string }
  | .descriptionProp => .ok { s with description := stringIn? t }
  | .activityProp =>
    .ok { s with activity := (t.firstOf? (.lexeme .ident)).map ParseTree.string }
  | .inputBlock => ((t.childrenOf .inputEntry).mapM (lowerInput place)).map fun inputs =>
    { s with input := s.input ++ inputs }
  | .timeoutProp => .ok { s with timeout := stringIn? t }
  | .retryBlock => (lowerRetry place t).map fun r => { s with retry := some r }
  | .dependsProp => .ok { s with dependsOn := t.textsOf (.lexeme .ident) }
  | _ => .ok s

/-- A step that runs one activity. -/
def lowerStep (place : Nat → Position) (t : ParseTree Rule) : Lowered Step :=
  t.children.foldlM (addStepPart place) (newStep (place t.offset) .activity)

def addParallelPart (place : Nat → Position) (s : Step) (t : ParseTree Rule) : Lowered Step :=
  match t.rule with
  | .lexeme .ident => .ok { s with name := t.string }
  | .descriptionProp => .ok { s with description := stringIn? t }
  | .stepDecl => (lowerStep place t).map fun b => { s with branches := s.branches ++ [b] }
  | _ => .ok s

/-- A step that runs its branches side by side. -/
def lowerParallel (place : Nat → Position) (t : ParseTree Rule) : Lowered Step :=
  t.children.foldlM (addParallelPart place) (newStep (place t.offset) .parallel)

/-! ## Flows -/

/-- The flow with one more of its parts; a workflow has no concurrency. -/
def addFlowPart (place : Nat → Position) (isJob : Bool) (j : Job) (t : ParseTree Rule) :
    Lowered Job :=
  let f := j.flow
  match t.rule with
  | .descriptionProp => .ok { j with flow := { f with description := stringIn? t } }
  | .triggerProp => (lowerTrigger place t).map fun trigger =>
    { j with flow := { f with trigger := some trigger } }
  | .scheduleProp =>
    let trigger : Trigger := ⟨place t.offset, .schedule, stringIn? t⟩
    .ok { j with flow := { f with trigger := some trigger } }
  | .timeoutProp => .ok { j with flow := { f with timeout := stringIn? t } }
  | .concurrencyProp =>
    if !isJob then .error ⟨t.offset, .concurrencyOnWorkflow⟩
    else
      match t.firstOf? .signedNumber with
      | some n => (wholeNumber .concurrency n).map fun value =>
        { j with concurrency := some value }
      | none => .error ⟨t.offset, .malformed t.rule.name⟩
  | .retryBlock => (lowerRetry place t).map fun r => { j with flow := { f with retry := some r } }
  | .stepDecl => (lowerStep place t).map fun s =>
    { j with flow := { f with steps := f.steps ++ [s] } }
  | .parallelStep => (lowerParallel place t).map fun s =>
    { j with flow := { f with steps := f.steps ++ [s] } }
  | _ => .ok j

def lowerParts (place : Nat → Position) (isJob : Bool) (t : ParseTree Rule) : Lowered Job :=
  t.children.foldlM (addFlowPart place isJob)
    ⟨⟨place t.offset, identIn t, none, none, [], none, none⟩, none⟩

/-- A workflow or job declaration. -/
def lowerFlow (place : Nat → Position) (t : ParseTree Rule) : Lowered Stmt :=
  match t.rule with
  | .workflowDecl => (lowerParts place false t).map fun j => .workflow j.flow
  | .jobDecl => (lowerParts place true t).map .job
  | _ => .error ⟨t.offset, .malformed t.rule.name⟩

def lowerRegion (place : Nat → Position) (trees : List (ParseTree Rule)) : Lowered Stmt :=
  match trees.findSome? fun t => (t.firstOf? .workflowDecl).or (t.firstOf? .jobDecl) with
  | some t => lowerFlow place t
  | none => .error ⟨0, .malformed Rule.workflowFile.name⟩

end ServiceLang.FlowGrammar
