import ServiceLang.Check.Finding

/-!
Symbols in lexical scopes.

All scopes that were ever opened stand in one arena, each with the number of the
scope around it.  Numbers are given out in order and never again.  Scope zero is
the global one: it holds the built-in functions and is never left.
-/

namespace ServiceLang

/-- What is known of a value before the program runs. -/
inductive ValueType where
  | string
  | number
  | bool
  | array
  | function
  | unknown
deriving DecidableEq, Repr

namespace ValueType

def all : List ValueType := [string, number, bool, array, function, unknown]

def text : ValueType → String
  | string => "string"
  | number => "number"
  | bool => "bool"
  | array => "array"
  | function => "function"
  | unknown => "unknown"

def ofText? (word : String) : Option ValueType := all.find? (·.text = word)

end ValueType

inductive SymbolKind where
  | var
  | param
  | func (arity : Nat) (returns : ValueType)
deriving DecidableEq, Repr

structure Symbol where
  name : String
  kind : SymbolKind
  valueType : ValueType
  pos : Position
deriving DecidableEq, Repr

/-- The functions that every program has, with the number of their arguments. -/
def builtins : List (String × Nat × ValueType) :=
  [
    ("print", 1, .unknown),
    ("len", 1, .number),
    ("upper", 1, .string),
    ("lower", 1, .string),
    ("trim", 1, .string),
    ("concat", 2, .string),
    ("env", 1, .string),
    ("to_string", 1, .string),
    ("to_number", 1, .number),
    ("contains", 2, .bool),
    ("split", 2, .array),
    ("join", 2, .string),
    ("keys", 1, .array),
    ("range", 2, .array),
    ("now", 0, .number),
    ("uuid", 0, .string)
  ]

/-- A built-in function as a symbol; no source text declares it. -/
def builtinSymbol : String × Nat × ValueType → Symbol
  | (name, arity, returns) => ⟨name, .func arity returns, .function, .unknown⟩

/-- A scope: the number of the scope around it, and its symbols in the order of their
declarations. -/
structure Scope where
  parent : Option Nat
  symbols : List Symbol
deriving Inhabited

def Scope.find? (s : Scope) (name : String) : Option Symbol := s.symbols.find? (·.name == name)

/-- The scopes opened so far, and the number of the one that is current. -/
structure SymbolTable where
  scopes : Array Scope
  current : Nat

namespace SymbolTable

/-- The global scope with the built-in functions. -/
def initial : SymbolTable := ⟨#[⟨none, builtins.map builtinSymbol⟩], 0⟩

def top (t : SymbolTable) : Scope := t.scopes.getD t.current ⟨none, []⟩

/-- Opens a scope in the current one. -/
def push (t : SymbolTable) : SymbolTable :=
  ⟨t.scopes.push ⟨some t.current, []⟩, t.scopes.size⟩

/-- Goes back to the scope around the current one; the global scope stays. -/
def pop (t : SymbolTable) : SymbolTable :=
  match t.top.parent with
  | none => t
  | some outer => { t with current := outer }

/-- Declares a symbol in the current scope, or returns the symbol that has its name
there. -/
def declare (t : SymbolTable) (symbol : Symbol) : Except Symbol SymbolTable :=
  match t.top.find? symbol.name with
  | some existing => .error existing
  | none =>
    .ok { t with
      scopes := t.scopes.modify t.current fun s => { s with symbols := s.symbols ++ [symbol] } }

/-- Looks for a name in a scope and in those around it, as long as the steps last. -/
def lookupFrom (scopes : Array Scope) (name : String) : Nat → Nat → Option Symbol
  | 0, _ => none
  | steps + 1, id =>
    match scopes[id]? with
    | none => none
    | some s =>
      match s.find? name with
      | some symbol => some symbol
      | none => s.parent.bind (lookupFrom scopes name steps)

/-- The innermost symbol with this name.  There are not more steps outwards than
scopes. -/
def lookup (t : SymbolTable) (name : String) : Option Symbol :=
  lookupFrom t.scopes name t.scopes.size t.current

end SymbolTable

end ServiceLang
