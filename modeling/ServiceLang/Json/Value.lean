import ServiceLang.Decimal.Layout
import ServiceLang.Text.Quoted

/-!
JSON values as they are found in a text.

Whoever asks for values of certain kinds wants to hear of the first fault in the
text, be it that a value is of another kind or that the text is no JSON.  So a value
knows the text that follows it, and a text that breaks off or breaks the rules still
has a value: what was readable, with a mark where reading ended.
-/

namespace ServiceLang

/-- Numbers: integers of 64 bits, signed or not, and binary64 values. -/
inductive JsonNumber where
  | integer (n : Int)
  | float (x : Float)

/-- The name of an entry, and the text that follows where a fault of it is reported. -/
structure JsonKey where
  name : String
  rest : List Char

/-- A value.  `rest` is the text that follows where a fault of the value is reported:
after it, or in front of its opening bracket.  Lists and objects that are not closed
end where the text cannot be read. -/
inductive JsonValue where
  | null (rest : List Char)
  | bool (rest : List Char) (value : Bool)
  | number (rest : List Char) (value : JsonNumber)
  | string (rest : List Char) (value : String)
  | list (rest : List Char) (items : List JsonValue) (closed : Bool)
  | object (rest : List Char) (entries : List (JsonKey × JsonValue)) (closed : Bool)
  | broken
deriving Inhabited

namespace JsonValue

/-- The text that follows where a fault of the value is reported. -/
def rest : JsonValue → List Char
  | null rest | bool rest _ | number rest _ | string rest _ | list rest _ _ | object rest _ _ =>
    rest
  | broken => []

/-- How messages call a value that is not of the kind asked for. -/
def found : JsonValue → String
  | null _ => "null"
  | bool _ true => "boolean `true`"
  | bool _ false => "boolean `false`"
  | number _ (.integer n) => "integer `" ++ toString n ++ "`"
  | number _ (.float x) => "floating point `" ++ (Decimal.document x).getD "" ++ "`"
  | string _ s => "string " ++ Text.quoted s
  | list _ _ _ => "sequence"
  | object _ _ _ => "map"
  | broken => "nothing"

end JsonValue

end ServiceLang
