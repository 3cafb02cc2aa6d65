import ServiceLang.Grammar.Lexeme

/-!
The grammar of flow regions: one workflow or job declaration.

Workflows and jobs have the same members here; that only jobs limit their
concurrency is checked when the tree is lowered.  Numbers may have a sign, and
values are literals, names and arrays of these.
-/

namespace ServiceLang.FlowGrammar

open Peg Pattern

/-- The words that introduce the parts of a flow. -/
inductive Word where
  | workflow
  | job
  | description
  | trigger
  | schedule
  | timeout
  | concurrency
  | retry
  | step
  | parallel
  | activity
  | input
  | dependsOn
deriving DecidableEq, Repr

namespace Word

def all : List Word :=
  [workflow, job, description, trigger, schedule, timeout, concurrency, retry, step, parallel,
    activity, input, dependsOn]

def text : Word → String
  | workflow => "workflow"
  | job => "job"
  | description => "description"
  | trigger => "trigger"
  | schedule => "schedule"
  | timeout => "timeout"
  | concurrency => "concurrency"
  | retry => "retry"
  | step => "step"
  | parallel => "parallel"
  | activity => "activity"
  | input => "input"
  | dependsOn => "depends_on"

end Word

inductive Rule where
  | lexeme (l : Lexeme)
  | workflowFile
  | workflowDecl
  | jobDecl
  | word (w : Word)
  | descriptionProp
  | triggerProp
  | triggerKind
  | scheduleProp
  | timeoutProp
  | concurrencyProp
  | retryBlock
  | retryEntry
  | retryKey
  | stepDecl
  | activityProp
  | inputBlock
  | inputEntry
  | value
  | arrayValue
  | dependsProp
  | parallelStep
  | signedNumber
deriving DecidableEq, Repr

namespace Rule

def all : List Rule :=
  Lexeme.all.map lexeme ++ [workflowFile, workflowDecl, jobDecl] ++ Word.all.map word ++
    [descriptionProp, triggerProp, triggerKind, scheduleProp, timeoutProp, concurrencyProp,
      retryBlock, retryEntry, retryKey, stepDecl, activityProp, inputBlock, inputEntry, value,
      arrayValue, dependsProp, parallelStep, signedNumber]

/-- There are no other rules. -/
theorem mem_all (r : Rule) : r ∈ all := by
  cases r with
  | lexeme l => cases l <;> decide
  | word w => cases w <;> decide
  | _ => decide

def name : Rule → String
  | lexeme l => l.name
  | word w => "kw_" ++ w.text
  | workflowFile => "workflow_file"
  | workflowDecl => "workflow_decl"
  | jobDecl => "job_decl"
  | descriptionProp => "description_prop"
  | triggerProp => "trigger_prop"
  | triggerKind => "trigger_kind"
  | scheduleProp => "schedule_prop"
  | timeoutProp => "timeout_prop"
  | concurrencyProp => "concurrency_prop"
  | retryBlock => "retry_block"
  | retryEntry => "retry_entry"
  | retryKey => "retry_key"
  | stepDecl => "step_decl"
  | activityProp => "activity_prop"
  | inputBlock => "input_block"
  | inputEntry => "input_entry"
  | value => "value"
  | arrayValue => "array_value"
  | dependsProp => "depends_prop"
  | parallelStep => "parallel_step"
  | signedNumber => "signed_number"

end Rule

def lex (l : Lexeme) : Pattern Rule := .rule (.lexeme l)

def kw (w : Word) : Pattern Rule := .rule (.word w)

def braces (body : Pattern Rule) : Pattern Rule := all [.literal "\x7b", body, .literal "\x7d"]

/-- A word, a colon that may be left out, and a value. -/
def setting (w : Word) (value : Pattern Rule) : Pattern Rule :=
  all [kw w, .optional (.literal ":"), value]

/-- One of these words, not as the beginning of a longer one. -/
def oneWordOf (words : List String) : Pattern Rule :=
  .andThen (choice (words.map .literal)) (.notHere wordChar)

def definition : Rule → Definition Rule
  | .lexeme l => l.definition .lexeme
  | .word w => ⟨.token, Pattern.word w.text⟩
  | .workflowFile => ⟨.spaced, all [.textStart, .orElse (.rule .workflowDecl) (.rule .jobDecl),
      lex .endOfInput]⟩
  | .workflowDecl => ⟨.spaced, all [kw .workflow, lex .ident, flowBody]⟩
  | .jobDecl => ⟨.spaced, all [kw .job, lex .ident, flowBody]⟩
  | .descriptionProp => ⟨.spaced, setting .description (lex .string)⟩
  | .triggerProp => ⟨.spaced, all [kw .trigger, .literal ":", .rule .triggerKind,
      .optional (lex .string)]⟩
  | .triggerKind => ⟨.token, oneWordOf ["event", "schedule", "webhook", "manual"]⟩
  | .scheduleProp => ⟨.spaced, setting .schedule (lex .string)⟩
  | .timeoutProp => ⟨.spaced, setting .timeout (lex .string)⟩
  | .concurrencyProp => ⟨.spaced, setting .concurrency (.rule .signedNumber)⟩
  | .retryBlock => ⟨.spaced, all [kw .retry,
      braces (.many (all [.rule .retryEntry, .optional (.literal ",")]))]⟩
  | .retryEntry => ⟨.spaced, all [.rule .retryKey, .literal ":",
      .orElse (.rule .signedNumber) (lex .string)]⟩
  | .retryKey => ⟨.token, oneWordOf ["max_attempts", "backoff_coefficient", "initial_interval",
      "max_interval"]⟩
  | .stepDecl => ⟨.spaced, all [kw .step, lex .ident, braces (.many (choice ([.descriptionProp,
      .activityProp, .inputBlock, .timeoutProp, .retryBlock, .dependsProp].map .rule)))]⟩
  | .activityProp => ⟨.spaced, all [kw .activity, .literal ":", lex .ident]⟩
  | .inputBlock => ⟨.spaced, all [kw .input,
      braces (.many (all [.rule .inputEntry, .optional (.literal ",")]))]⟩
  | .inputEntry => ⟨.spaced, all [lex .ident, .literal ":", .rule .value]⟩
  | .value => ⟨.silent, choice [lex .string, .rule .signedNumber, lex .boolLit,
      .rule .arrayValue, lex .ident]⟩
  | .arrayValue => ⟨.spaced, all [.literal "[", .optional (commaSeparated (.rule .value)),
      .literal "]"]⟩
  | .dependsProp => ⟨.spaced, all [kw .dependsOn, .literal ":", .literal "[",
      .optional (commaSeparated (lex .ident)), .literal "]"]⟩
  | .parallelStep => ⟨.spaced, all [kw .parallel, lex .ident,
      braces (.many (.orElse (.rule .descriptionProp) (.rule .stepDecl)))]⟩
  | .signedNumber => ⟨.token, .andThen (.optional (.literal "-")) Lexeme.unsignedNumber⟩
where
  /-- The members that workflows and jobs have in common. -/
  flowBody : Pattern Rule := braces (.many (choice ([.descriptionProp, .triggerProp,
    .scheduleProp, .timeoutProp, .concurrencyProp, .retryBlock, .parallelStep, .stepDecl].map
    .rule)))

def grammar : Grammar Rule := ⟨Rule.all, Rule.name, definition⟩

end ServiceLang.FlowGrammar
