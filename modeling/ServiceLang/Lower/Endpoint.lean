import ServiceLang.Ast.Endpoint
import ServiceLang.Decimal.Read
import ServiceLang.Grammar.Endpoint
import ServiceLang.Lower.Defect
import ServiceLang.Peg.ParseTree
import ServiceLang.Text.Escape

/-!
From parse trees of endpoint regions to endpoints.

An endpoint is positioned at its keyword, not at its annotations.  Of members that
stand twice the last one wins.  A method that is not known counts as `GET`, and a
response without a status has the status 200.
-/

namespace ServiceLang.EndpointGrammar

open Peg

/-- The value of the string literal inside a node, if there is one. -/
def stringIn? (t : ParseTree Rule) : Option String :=
  (t.firstOf? (.lexeme .string)).map fun s => Text.literalValue s.text

/-- The string or the step word inside a node. -/
def stringOrWordIn? (t : ParseTree Rule) : Option String :=
  (stringIn? t).or ((t.firstOf? .stepWord).map ParseTree.string)

def lowerAnnotationSpec (place : Nat → Position) (t : ParseTree Rule) : AnnotationSpec :=
  ⟨place t.offset, t.textOf .annotationName, stringOrWordIn? t⟩

/-- The source of a request that the word names. -/
def lowerRequestSource (t : ParseTree Rule) : Lowered RequestSource :=
  match RequestSource.ofName? t.string with
  | some source => .ok source
  | none => .error ⟨t.offset, .unknownRequestSource t.string⟩

def lowerRequest (place : Nat → Position) (t : ParseTree Rule) : Lowered RequestSpec :=
  match t.childrenOf .stepWord with
  | [typeName] => .ok ⟨place t.offset, typeName.string, none⟩
  | [typeName, source] =>
    (lowerRequestSource source).map fun s => ⟨place t.offset, typeName.string, some s⟩
  | _ => .error ⟨t.offset, .malformed t.rule.name⟩

/-- The status of a response that does not name one. -/
def defaultStatus : Int := 200

def lowerResponse (place : Nat → Position) (t : ParseTree Rule) : Lowered ResponseSpec :=
  match t.firstOf? (.lexeme .number) with
  | none => .ok ⟨place t.offset, t.textOf .stepWord, defaultStatus⟩
  | some number =>
    let value := Decimal.ofLiteral number.text
    if Decimal.isInteger value then
      .ok ⟨place t.offset, t.textOf .stepWord, Decimal.toInteger value⟩
    else .error ⟨number.offset, .notWhole .statusCode⟩

/-- A target, an argument or the value of an option. -/
def lowerStepArg (t : ParseTree Rule) : StepArg :=
  match stringIn? t with
  | some value => ⟨value, true⟩
  | none => ⟨t.textOf .stepWord, false⟩

def lowerStepOption (t : ParseTree Rule) : StepOption :=
  ⟨t.textOf .stepWord, ((t.firstOf? .stepArg).map lowerStepArg).getD ⟨"", false⟩⟩

def lowerLogicStep (place : Nat → Position) (t : ParseTree Rule) : LogicStep where
  pos := place t.offset
  action := t.textOf .stepWord
  target := (t.firstOf? .stepTarget).map lowerStepArg
  args := (t.childrenOf .stepArgs).flatMap fun args => (args.childrenOf .stepArg).map lowerStepArg
  options := (t.childrenOf .stepOptions).flatMap fun options =>
    (options.childrenOf .stepOption).map lowerStepOption

def addPart (place : Nat → Position) (e : Endpoint) (t : ParseTree Rule) : Lowered Endpoint :=
  match t.rule with
  | .annotationSpec => .ok { e with annotations := e.annotations ++ [lowerAnnotationSpec place t] }
  | .word .endpoint => .ok { e with pos := place t.offset }
  | .httpMethod => .ok { e with method := (HttpMethod.ofName? t.string).getD .get }
  | .lexeme .string => .ok { e with path := Text.literalValue t.text }
  | .descriptionProp => .ok { e with description := stringIn? t }
  | .handlerProp => .ok { e with handler := (t.firstOf? .stepWord).map ParseTree.string }
  | .middlewareProp => .ok { e with middleware := t.textsOf .stepWord }
  | .roleProp => .ok { e with role := stringOrWordIn? t }
  | .requestProp => (lowerRequest place t).map fun r => { e with request := some r }
  | .responseProp => (lowerResponse place t).map fun r => { e with response := some r }
  | .logicBlock =>
    .ok { e with logic := (t.childrenOf .logicStep).map (lowerLogicStep place) }
  | _ => .ok e

def lowerEndpoint (place : Nat → Position) (t : ParseTree Rule) : Lowered Endpoint :=
  t.children.foldlM (addPart place)
    ⟨place t.offset, .get, "", none, none, [], none, [], none, none, []⟩

def lowerRegion (place : Nat → Position) (trees : List (ParseTree Rule)) : Lowered Endpoint :=
  match trees.findSome? fun t => t.firstOf? .endpointDecl with
  | some t => lowerEndpoint place t
  | none => .error ⟨0, .malformed Rule.endpointFile.name⟩

end ServiceLang.EndpointGrammar
