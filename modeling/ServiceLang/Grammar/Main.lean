import ServiceLang.Grammar.Lexeme

/-!
The grammar of main text: general statements, and the declarations that are not
cut out as regions.

The rules of expressions stand in the order of their precedence, lowest first.
Comparison takes at most one operator, the other binary levels any number.
-/

namespace ServiceLang.MainGrammar

open Peg Pattern

/-- The words that introduce the parts of main text. -/
inductive Word where
  | varWord
  | ifWord
  | elseWord
  | forWord
  | inWord
  | functionWord
  | returnWord
  | execWord
  | config
  | database
  | model
  | collection
  | index
  | unique
  | auth
  | role
  | middleware
  | event
  | on
  | async
  | integration
  | circuitBreaker
  | webhook
deriving DecidableEq, Repr

namespace Word

def all : List Word :=
  [varWord, ifWord, elseWord, forWord, inWord, functionWord, returnWord, execWord, config,
    database, model, collection, index, unique, auth, role, middleware, event, on, async,
    integration, circuitBreaker, webhook]

def text : Word → String
  | varWord => "var"
  | ifWord => "if"
  | elseWord => "else"
  | forWord => "for"
  | inWord => "in"
  | functionWord => "function"
  | returnWord => "return"
  | execWord => "exec"
  | config => "config"
  | database => "database"
  | model => "model"
  | collection => "collection"
  | index => "index"
  | unique => "unique"
  | auth => "auth"
  | role => "role"
  | middleware => "middleware"
  | event => "event"
  | on => "on"
  | async => "async"
  | integration => "integration"
  | circuitBreaker => "circuit_breaker"
  | webhook => "webhook"

end Word

inductive Rule where
  | lexeme (l : Lexeme)
  | program
  | statement
  | word (w : Word)
  | varDecl
  | assignment
  | exprStmt
  | ifStmt
  | forLoop
  | functionDecl
  | paramList
  | returnStmt
  | block
  | execBlock
  | shellBody
  | shellText
  | propertyKey
  | property
  | configDecl
  | databaseDecl
  | engineName
  | modelDecl
  | collectionDecl
  | fieldName
  | typeName
  | fieldPath
  | fieldDecl
  | modifier
  | modifierName
  | indexDecl
  | authDecl
  | roleDecl
  | middlewareDecl
  | eventName
  | eventDecl
  | schemaField
  | optionalMark
  | eventHandler
  | handlerAction
  | integrationDecl
  | integrationAuth
  | circuitBreaker
  | webhookDecl
  | expr
  | orExpr
  | andExpr
  | cmpExpr
  | addExpr
  | mulExpr
  | unaryExpr
  | call
  | arrayLit
  | orOp
  | andOp
  | cmpOp
  | addOp
  | mulOp
  | unaryOp
deriving DecidableEq, Repr

namespace Rule

def all : List Rule :=
  Lexeme.all.map lexeme ++ [program, statement] ++ Word.all.map word ++
    [varDecl, assignment, exprStmt, ifStmt, forLoop, functionDecl, paramList, returnStmt, block,
      execBlock, shellBody, shellText, propertyKey, property, configDecl, databaseDecl, engineName,
      modelDecl, collectionDecl, fieldName, typeName, fieldPath, fieldDecl, modifier,
      modifierName, indexDecl, authDecl, roleDecl, middlewareDecl, eventName, eventDecl,
      schemaField, optionalMark, eventHandler, handlerAction, integrationDecl, integrationAuth,
      circuitBreaker, webhookDecl, expr, orExpr, andExpr, cmpExpr, addExpr, mulExpr, unaryExpr,
      call, arrayLit, orOp, andOp, cmpOp, addOp, mulOp, unaryOp]

/-- There are no other rules. -/
theorem mem_all (r : Rule) : r ∈ all := by
  cases r with
  | lexeme l => cases l <;> decide
  | word w => cases w <;> decide
  | _ => decide

def name : Rule → String
  | lexeme l => l.name
  | word w => "kw_" ++ w.text
  | program => "program"
  | statement => "statement"
  | varDecl => "var_decl"
  | assignment => "assignment"
  | exprStmt => "expr_stmt"
  | ifStmt => "if_stmt"
  | forLoop => "for_loop"
  | functionDecl => "function_decl"
  | paramList => "param_list"
  | returnStmt => "return_stmt"
  | block => "block"
  | execBlock => "exec_block"
  | shellBody => "shell_body"
  | shellText => "shell_text"
  | propertyKey => "property_key"
  | property => "property"
  | configDecl => "config_decl"
  | databaseDecl => "database_decl"
  | engineName => "engine_name"
  | modelDecl => "model_decl"
  | collectionDecl => "collection_decl"
  | fieldName => "field_name"
  | typeName => "type_name"
  | fieldPath => "field_path"
  | fieldDecl => "field_decl"
  | modifier => "modifier"
  | modifierName => "modifier_name"
  | indexDecl => "index_decl"
  | authDecl => "auth_decl"
  | roleDecl => "role_decl"
  | middlewareDecl => "middleware_decl"
  | eventName => "event_name"
  | eventDecl => "event_decl"
  | schemaField => "schema_field"
  | optionalMark => "optional_mark"
  | eventHandler => "event_handler"
  | handlerAction => "handler_action"
  | integrationDecl => "integration_decl"
  | integrationAuth => "integration_auth"
  | circuitBreaker => "circuit_breaker"
  | webhookDecl => "webhook_decl"
  | expr => "expr"
  | orExpr => "or_expr"
  | andExpr => "and_expr"
  | cmpExpr => "cmp_expr"
  | addExpr => "add_expr"
  | mulExpr => "mul_expr"
  | unaryExpr => "unary_expr"
  | call => "call"
  | arrayLit => "array_lit"
  | orOp => "or_op"
  | andOp => "and_op"
  | cmpOp => "cmp_op"
  | addOp => "add_op"
  | mulOp => "mul_op"
  | unaryOp => "unary_op"

end Rule

/-! ## Patterns -/

def lex (l : Lexeme) : Pattern Rule := .rule (.lexeme l)

def kw (w : Word) : Pattern Rule := .rule (.word w)

def braces (body : Pattern Rule) : Pattern Rule := all [.literal "\x7b", body, .literal "\x7d"]

/-- Properties, with or without commas between them. -/
def properties : Pattern Rule := .many (all [.rule .property, .optional (.literal ",")])

/-- A left operand, and operators with right operands. -/
def chain (operand operator : Rule) : Pattern Rule :=
  all [.rule operand, .many (all [.rule operator, .rule operand])]

/-- Any number of expressions with commas between them. -/
def expressions : Pattern Rule := .optional (commaSeparated (.rule .expr))

def definition : Rule → Definition Rule
  | .lexeme l => l.definition .lexeme
  | .word w => ⟨.token, Pattern.word w.text⟩
  | .program => ⟨.spaced, all [.textStart, .many (.rule .statement), lex .endOfInput]⟩
  | .statement => ⟨.silent, choice ([.varDecl, .ifStmt, .forLoop, .functionDecl, .returnStmt,
      .execBlock, .configDecl, .databaseDecl, .authDecl, .roleDecl, .middlewareDecl, .eventDecl,
      .eventHandler, .integrationDecl, .webhookDecl, .block, .assignment, .exprStmt].map .rule)⟩
  -- General statements
  | .varDecl => ⟨.spaced, all [kw .varWord, lex .ident,
      .optional (all [.literal "=", .rule .expr])]⟩
  | .assignment => ⟨.spaced, all [lex .ident, .literal "=", .notHere (.literal "="), .rule .expr]⟩
  | .exprStmt => ⟨.spaced, .rule .call⟩
  | .ifStmt => ⟨.spaced, all [kw .ifWord, .rule .expr, .rule .block,
      .optional (all [kw .elseWord, .orElse (.rule .ifStmt) (.rule .block)])]⟩
  | .forLoop => ⟨.spaced, all [kw .forWord, lex .ident, kw .inWord, .rule .expr, .rule .block]⟩
  | .functionDecl => ⟨.spaced, all [kw .functionWord, lex .ident, .literal "(",
      .optional (.rule .paramList), .literal ")", .rule .block]⟩
  | .paramList => ⟨.spaced, commaSeparated (lex .ident)⟩
  | .returnStmt => ⟨.spaced, all [kw .returnWord, .optional (.rule .expr)]⟩
  | .block => ⟨.spaced, braces (.many (.rule .statement))⟩
  | .execBlock => ⟨.unspaced, all [kw .execWord,
      .many (choice [.literal " ", .literal "\t", .literal "\r", .literal "\n"]),
      .literal "\x7b", .rule .shellBody, .literal "\x7d"]⟩
  | .shellBody => ⟨.token, .rule .shellText⟩
  | .shellText => ⟨.silent, .many (.orElse
      (braces (.rule .shellText))
      (all [.notHere (.orElse (.literal "\x7b") (.literal "\x7d")), .oneOf .any]))⟩
  -- Declarations
  | .propertyKey => ⟨.token, Pattern.name⟩
  | .property => ⟨.spaced, all [.rule .propertyKey, .literal ":", .rule .expr]⟩
  | .configDecl => ⟨.spaced, all [kw .config, braces properties]⟩
  | .databaseDecl => ⟨.spaced, all [kw .database, .rule .engineName,
      braces (.many (.orElse (.rule .modelDecl) (.rule .collectionDecl)))]⟩
  | .engineName => ⟨.token, .andThen (.oneOf .letter) (.many wordChar)⟩
  | .modelDecl => ⟨.spaced, all [kw .model, lex .ident, .optional (lex .string),
      braces (.many (.orElse (.rule .indexDecl) (.rule .fieldDecl)))]⟩
  | .collectionDecl => ⟨.spaced, all [kw .collection, lex .ident, .optional (lex .string),
      braces (.many (.orElse (.rule .indexDecl) (.rule .fieldDecl)))]⟩
  | .fieldName => ⟨.token, Pattern.name⟩
  | .typeName => ⟨.token, Pattern.name⟩
  | .fieldPath => ⟨.token, all [.rule .fieldName, .many (all [.literal ".", .rule .fieldName])]⟩
  | .fieldDecl => ⟨.spaced, all [.rule .fieldName, .literal ":", .rule .typeName,
      .many (.rule .modifier), .optional (braces (.many (.rule .fieldDecl))),
      .optional (.literal ",")]⟩
  | .modifier => ⟨.spaced, all [.literal "@", .rule .modifierName,
      .optional (all [.literal "(",
        choice [lex .string, lex .number, lex .boolLit, .rule .fieldPath], .literal ")"])]⟩
  | .modifierName => ⟨.token, Pattern.name⟩
  | .indexDecl => ⟨.spaced, all [kw .index, .optional (kw .unique), .literal "[",
      commaSeparated (.rule .fieldPath), .literal "]"]⟩
  | .authDecl => ⟨.spaced, all [kw .auth, .optional (lex .ident), braces properties]⟩
  | .roleDecl => ⟨.spaced, all [kw .role, lex .ident, .optional (braces properties)]⟩
  | .middlewareDecl => ⟨.spaced, all [kw .middleware, lex .ident, .optional (braces properties)]⟩
  | .eventName => ⟨.token, .some (choice [.oneOf .alphanumeric, .literal "_", .literal ".",
      .literal "-"])⟩
  | .eventDecl => ⟨.spaced, all [kw .event, .rule .eventName,
      .optional (braces (.many (all [.rule .schemaField, .optional (.literal ",")])))]⟩
  | .schemaField => ⟨.spaced, all [.rule .fieldName, .literal ":", .rule .typeName,
      .optional (.rule .optionalMark)]⟩
  | .optionalMark => ⟨.spaced, .literal "?"⟩
  | .eventHandler => ⟨.spaced, all [kw .on, .rule .eventName, .literal "->", .rule .handlerAction,
      .rule .eventName, .optional (kw .async)]⟩
  | .handlerAction => ⟨.token, Pattern.name⟩
  | .integrationDecl => ⟨.spaced, all [kw .integration, lex .ident,
      braces (.many (choice [.rule .integrationAuth, .rule .circuitBreaker,
        all [.rule .property, .optional (.literal ",")]]))]⟩
  | .integrationAuth => ⟨.spaced, all [kw .auth, lex .ident, braces properties]⟩
  | .circuitBreaker => ⟨.spaced, all [kw .circuitBreaker, braces properties]⟩
  | .webhookDecl => ⟨.spaced, all [kw .webhook, lex .ident, braces properties]⟩
  -- Expressions
  | .expr => ⟨.spaced, .rule .orExpr⟩
  | .orExpr => ⟨.spaced, chain .andExpr .orOp⟩
  | .andExpr => ⟨.spaced, chain .cmpExpr .andOp⟩
  | .cmpExpr => ⟨.spaced, all [.rule .addExpr, .optional (all [.rule .cmpOp, .rule .addExpr])]⟩
  | .addExpr => ⟨.spaced, chain .mulExpr .addOp⟩
  | .mulExpr => ⟨.spaced, chain .unaryExpr .mulOp⟩
  | .unaryExpr => ⟨.spaced, .orElse (all [.rule .unaryOp, .rule .unaryExpr])
      (choice [lex .boolLit, lex .number, lex .string, .rule .arrayLit, .rule .call, lex .ident,
        all [.literal "(", .rule .expr, .literal ")"]])⟩
  | .call => ⟨.spaced, all [lex .ident, .literal "(", expressions, .literal ")"]⟩
  | .arrayLit => ⟨.spaced, all [.literal "[", expressions, .literal "]"]⟩
  | .orOp => ⟨.token, .orElse (.literal "||") (Pattern.word "or")⟩
  | .andOp => ⟨.token, .orElse (.literal "&&") (Pattern.word "and")⟩
  | .cmpOp => ⟨.token, choice [.literal "==", .literal "!=", .literal "<=", .literal ">=",
      .literal "<", .literal ">"]⟩
  | .addOp => ⟨.token, .orElse (.literal "+") (.literal "-")⟩
  | .mulOp => ⟨.token, choice [.literal "*", .literal "/", .literal "%"]⟩
  | .unaryOp => ⟨.token, choice [.andThen (.literal "!") (.notHere (.literal "=")), .literal "-",
      Pattern.word "not"]⟩

def grammar : Grammar Rule := ⟨Rule.all, Rule.name, definition⟩

end ServiceLang.MainGrammar
