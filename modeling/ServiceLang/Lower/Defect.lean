import ServiceLang.Ast.Display
import ServiceLang.Source.Position

/-!
What can be wrong with a text that its grammar accepts.

Grammars are permissive where a check can say more: about numbers that have to be
whole, sources of requests, and settings of the wrong kind.  `malformed` stands for
parse trees that no grammar of the language produces.
-/

namespace ServiceLang

/-- The settings that have to be whole numbers. -/
inductive WholeSetting where
  | statusCode
  | concurrency
  | maxAttempts
deriving DecidableEq, Repr

def WholeSetting.name : WholeSetting → String
  | statusCode => "status code"
  | concurrency => "concurrency"
  | maxAttempts => "max_attempts"

/-- Why a parse tree has no meaning. -/
inductive Defect where
  | breakerNotWhole (key : String) (value : Float)
  | breakerNotNumber (key : String) (value : Expr)
  | notWhole (setting : WholeSetting)
  | unknownRequestSource (word : String)
  | concurrencyOnWorkflow
  | retryNeedsDuration (key : String)
  | retryNeedsNumber (key : String)
  | malformed (rule : String)

def Defect.message : Defect → String
  | breakerNotWhole key value =>
    "circuit breaker " ++ key ++ " must be an integer, got " ++ Decimal.plain value
  | breakerNotNumber key value =>
    "circuit breaker " ++ key ++ " must be a number, got " ++ value.display
  | notWhole setting => setting.name ++ " must be an integer"
  | unknownRequestSource word =>
    "unknown request source '" ++ word ++ "' (expected body, query, params, headers or form)"
  | concurrencyOnWorkflow => "concurrency is only allowed on jobs"
  | retryNeedsDuration key => "retry '" ++ key ++ "' must be a duration string"
  | retryNeedsNumber key => "retry '" ++ key ++ "' must be a number"
  | malformed rule => "unexpected " ++ rule

/-- The result of lowering a parse tree. -/
abbrev Lowered (α : Type) : Type := Except (Located Defect) α

end ServiceLang
