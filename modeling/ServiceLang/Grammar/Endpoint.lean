import ServiceLang.Grammar.Lexeme

/-!
The grammar of endpoint regions: annotations and one endpoint declaration.

The steps of its logic are written one per line.  A step is unspaced, so its
target, arguments and options have to start on the line of its action; inside the
parentheses and braces, trivia may stand again.  Step words are permissive: what
is no identifier is left to the checks.
-/

namespace ServiceLang.EndpointGrammar

open Peg Pattern

/-- The words that introduce the parts of an endpoint. -/
inductive Word where
  | endpoint
  | description
  | handler
  | middleware
  | role
  | request
  | response
  | fromWord
  | status
  | logic
deriving DecidableEq, Repr

namespace Word

def all : List Word :=
  [endpoint, description, handler, middleware, role, request, response, fromWord, status, logic]

def text : Word → String
  | endpoint => "endpoint"
  | description => "description"
  | handler => "handler"
  | middleware => "middleware"
  | role => "role"
  | request => "request"
  | response => "response"
  | fromWord => "from"
  | status => "status"
  | logic => "logic"

end Word

inductive Rule where
  | lexeme (l : Lexeme)
  | endpointFile
  | endpointDecl
  | annotationSpec
  | annotationName
  | httpMethod
  | word (w : Word)
  | descriptionProp
  | handlerProp
  | middlewareProp
  | roleProp
  | requestProp
  | responseProp
  | logicBlock
  | logicStep
  | stepTarget
  | stepArgs
  | stepArg
  | stepOptions
  | stepOption
  | stepWord
deriving DecidableEq, Repr

namespace Rule

def all : List Rule :=
  Lexeme.all.map lexeme ++
    [endpointFile, endpointDecl, annotationSpec, annotationName, httpMethod] ++
    Word.all.map word ++
    [descriptionProp, handlerProp, middlewareProp, roleProp, requestProp, responseProp, logicBlock,
      logicStep, stepTarget, stepArgs, stepArg, stepOptions, stepOption, stepWord]

/-- There are no other rules. -/
theorem mem_all (r : Rule) : r ∈ all := by
  cases r with
  | lexeme l => cases l <;> decide
  | word w => cases w <;> decide
  | _ => decide

def name : Rule → String
  | lexeme l => l.name
  | word w => "kw_" ++ w.text
  | endpointFile => "endpoint_file"
  | endpointDecl => "endpoint_decl"
  | annotationSpec => "annotation"
  | annotationName => "annotation_name"
  | httpMethod => "http_method"
  | descriptionProp => "description_prop"
  | handlerProp => "handler_prop"
  | middlewareProp => "middleware_prop"
  | roleProp => "role_prop"
  | requestProp => "request_prop"
  | responseProp => "response_prop"
  | logicBlock => "logic_block"
  | logicStep => "logic_step"
  | stepTarget => "step_target"
  | stepArgs => "step_args"
  | stepArg => "step_arg"
  | stepOptions => "step_options"
  | stepOption => "step_option"
  | stepWord => "step_word"

end Rule

def lex (l : Lexeme) : Pattern Rule := .rule (.lexeme l)

def kw (w : Word) : Pattern Rule := .rule (.word w)

def braces (body : Pattern Rule) : Pattern Rule := all [.literal "\x7b", body, .literal "\x7d"]

def stringOrWord : Pattern Rule := .orElse (lex .string) (.rule .stepWord)

/-- Spaces and tabs, at least one. -/
def inlineSpace : Pattern Rule := .some (.orElse (.literal " ") (.literal "\t"))

def definition : Rule → Definition Rule
  | .lexeme l => l.definition .lexeme
  | .word w => ⟨.token, Pattern.word w.text⟩
  | .endpointFile => ⟨.spaced, all [.textStart, .rule .endpointDecl, lex .endOfInput]⟩
  | .endpointDecl => ⟨.spaced, all [.many (.rule .annotationSpec), kw .endpoint, .rule .httpMethod,
      lex .string, braces (.many (choice ([.descriptionProp, .handlerProp, .middlewareProp,
        .roleProp, .requestProp, .responseProp, .logicBlock].map .rule)))]⟩
  | .annotationSpec => ⟨.spaced, all [.literal "@", .rule .annotationName,
      .optional (all [.literal "(", .optional stringOrWord, .literal ")"])]⟩
  | .annotationName => ⟨.token, Pattern.name⟩
  | .httpMethod => ⟨.token, .some (.oneOf .letter)⟩
  | .descriptionProp => ⟨.spaced, all [kw .description, .literal ":", lex .string]⟩
  | .handlerProp => ⟨.spaced, all [kw .handler, .literal ":", .rule .stepWord]⟩
  | .middlewareProp => ⟨.spaced, all [kw .middleware, .literal ":", .literal "[",
      .optional (commaSeparated (.rule .stepWord)), .literal "]"]⟩
  | .roleProp => ⟨.spaced, all [kw .role, .literal ":", stringOrWord]⟩
  | .requestProp => ⟨.spaced, all [kw .request, .literal ":", .rule .stepWord,
      .optional (all [kw .fromWord, .rule .stepWord])]⟩
  | .responseProp => ⟨.spaced, all [kw .response, .literal ":", .rule .stepWord,
      .optional (all [kw .status, lex .number])]⟩
  | .logicBlock => ⟨.spaced, all [kw .logic, braces (.many (.rule .logicStep))]⟩
  | .logicStep => ⟨.unspaced, all [.rule .stepWord,
      .optional (all [inlineSpace, .rule .stepTarget]),
      .optional (all [.optional inlineSpace, .rule .stepArgs]),
      .optional (all [.optional inlineSpace, .rule .stepOptions])]⟩
  | .stepTarget => ⟨.unspaced, stringOrWord⟩
  | .stepArgs => ⟨.respaced, all [.literal "(", .optional (commaSeparated (.rule .stepArg)),
      .literal ")"]⟩
  | .stepArg => ⟨.unspaced, stringOrWord⟩
  | .stepOptions => ⟨.respaced, braces (.many (all [.rule .stepOption, .optional (.literal ",")]))⟩
  | .stepOption => ⟨.spaced, all [.rule .stepWord, .literal ":", .rule .stepArg]⟩
  | .stepWord => ⟨.token, .some (choice [.oneOf .alphanumeric, .literal "_", .literal "-",
      .literal ".", .literal "$"])⟩

def grammar : Grammar Rule := ⟨Rule.all, Rule.name, definition⟩

end ServiceLang.EndpointGrammar
