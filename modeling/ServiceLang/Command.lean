import ServiceLang.Ast.Dump
import ServiceLang.Check.Program
import ServiceLang.Check.RegistryText
import ServiceLang.Parse.Program
import ServiceLang.Record.Document

/-!
The commands of the command line.

`check` parses and checks files, perhaps under a registry; `print` parses one file
and prints it as a dump or as a document.  What a command does is a function of its
arguments and of the files it reads.
-/

namespace ServiceLang

inductive PrintFormat where
  | text
  | json
deriving DecidableEq, Repr

def PrintFormat.ofName? : String → Option PrintFormat
  | "text" => some text
  | "json" => some json
  | _ => none

inductive Command where
  | check (files : List String) (registry : Option String)
  | print (file : String) (format : PrintFormat)
deriving DecidableEq, Repr

/-- What a command leaves behind. -/
structure Outcome where
  exitCode : Nat
  output : String
  errors : String
deriving DecidableEq, Repr

/-- The contents of files by name, or why they cannot be read. -/
abbrev Files := String → Except String String

/-! ## Arguments -/

/-- Arguments taken apart: the plain ones, and the options with their values. -/
structure Arguments where
  plain : List String
  options : List (Char × String)
deriving DecidableEq, Repr

namespace Arguments

/-- The options that take a value, by their letters and long names. -/
def valued : List (Char × String) := [('r', "registry"), ('f', "format")]

/-- An option in short form: a letter that stands for itself, or a letter with a value,
which follows at once, after an equals sign, or as the next argument. -/
inductive Short where
  | flags
  | value (letter : Char) (text : String)
  | missing (letter : Char)
  | unknown

/-- Takes letters apart; only `v` stands for itself. -/
def short : List Char → Short
  | [] => .flags
  | 'v' :: cs => short cs
  | c :: cs =>
    if (valued.lookup c).isSome then
      match cs with
      | [] => .missing c
      | '=' :: text => .value c (String.ofList text)
      | text => .value c (String.ofList text)
    else .unknown

def letterOf? (name : String) : Option Char := (valued.find? (·.2 = name)).map (·.1)

def long (text : List Char) : Short :=
  if String.ofList text = "verbose" then .flags
  else
    match Text.splitFirst? '=' text with
    | some (name, value) =>
      match letterOf? (String.ofList name) with
      | some c => .value c (String.ofList value)
      | none => .unknown
    | none =>
      match letterOf? (String.ofList text) with
      | some c => .missing c
      | none => .unknown

/-- The options that an argument holds, unless it is a plain one. -/
def option? (arg : String) : Option Short :=
  match arg.toList with
  | '-' :: '-' :: text => some (long text)
  | ['-'] => none
  | '-' :: letters => some (short letters)
  | _ => none

def addPlain (arg : String) (a : Arguments) : Arguments := { a with plain := arg :: a.plain }

def addOption (letter : Char) (value : String) (a : Arguments) : Arguments :=
  { a with options := (letter, value) :: a.options }

/-- Takes arguments apart; everything after `--` is plain. -/
def ofList? : List String → Option Arguments
  | [] => some ⟨[], []⟩
  | "--" :: args => some ⟨args, []⟩
  | arg :: args =>
    match option? arg with
    | none => (ofList? args).map (addPlain arg)
    | some .flags => ofList? args
    | some (.value c text) => (ofList? args).map (addOption c text)
    | some (.missing c) =>
      match args with
      | value :: args => (ofList? args).map (addOption c value)
      | [] => none
    | some .unknown => none

/-- The value of an option that is given at most once. -/
def value? (a : Arguments) (letter : Char) : Option (Option String) :=
  match a.options.filter (·.1 = letter) with
  | [] => some none
  | [(_, text)] => some (some text)
  | _ => none

end Arguments

def Command.ofArguments? (args : List String) : Option Command := do
  let a ← Arguments.ofList? args
  let registry ← a.value? 'r'
  let format ← a.value? 'f'
  match a.plain with
  | "check" :: files =>
    if files.isEmpty || format.isSome then none else return .check files registry
  | ["print", file] =>
    if registry.isSome then none
    return .print file (← PrintFormat.ofName? (format.getD "text"))
  | _ => none

/-! ## Running -/

/-- Why a file is not parsed. -/
inductive LoadError where
  | unreadable (file reason : String)
  | invalid (error : SyntaxError)

def LoadError.message : LoadError → String
  | unreadable file reason => "failed to read " ++ file ++ ": " ++ reason
  | invalid error => "syntax error: " ++ error.display

def loadProgram (files : Files) (file : String) : Except LoadError Program :=
  match files file with
  | .error reason => .error (.unreadable file reason)
  | .ok text => ((Source.ofString file text).parse).mapError .invalid

def loadRegistry (files : Files) (file : String) : Except String Registry :=
  match files file with
  | .error reason => .error ("failed to read registry " ++ file ++ ": " ++ reason)
  | .ok text =>
    (Registry.ofText text.toList).mapError fun e =>
      "invalid registry " ++ file ++ ": " ++ e.display text.toList

def line (text : String) : String := text ++ "\n"

/-- A heading with the number of items, and each item on a line; nothing if there are no
items. -/
def inventory (heading : String) (items : List String) : String :=
  if items.isEmpty then ""
  else
    line ("  " ++ heading ++ " (" ++ toString items.length ++ "):") ++
      String.join (items.map fun item => line ("    " ++ item))

/-- What a program declares: its endpoints, its workflows and its jobs. -/
def Program.inventory (p : Program) : String :=
  ServiceLang.inventory "Endpoints" (p.endpoints.map fun e => e.route.text) ++
    ServiceLang.inventory "Workflows and jobs"
      ((p.workflows.map fun f => "workflow " ++ f.name) ++
        p.jobs.map fun j => "job " ++ j.flow.name)

/-- Checks a file: its program, or the text of what is wrong. -/
def checkFile (files : Files) (registry : Registry) (file : String) : Except String Program :=
  match loadProgram files file with
  | .error e => .error e.message
  | .ok p =>
    match p.diagnostics registry with
    | [] => .ok p
    | ds => .error (Diagnostic.report ds)

namespace Outcome

/-- One outcome after the other; the greater exit code counts. -/
def andThen (a b : Outcome) : Outcome :=
  ⟨max a.exitCode b.exitCode, a.output ++ b.output, a.errors ++ b.errors⟩

def success (output : String) : Outcome := ⟨0, output, ""⟩

def failure (exitCode : Nat) (errors : String) : Outcome := ⟨exitCode, "", errors⟩

end Outcome

def checkOutcome (files : Files) (registry : Registry) (file : String) : Outcome :=
  match checkFile files registry file with
  | .ok p =>
    .success
      (line ("✓ " ++ file ++ " (" ++ toString p.statements.length ++ " statements)") ++
        p.inventory)
  | .error message => .failure 1 (line ("✗ " ++ file) ++ line message)

def PrintFormat.render : PrintFormat → Program → String
  | text, p => (Node.program p).print
  | json, p => p.record.toDocument

namespace Command

def inputs : Command → List String
  | check files registry => registry.toList ++ files
  | print file _ => [file]

def run (files : Files) : Command → Outcome
  | check names registry =>
    match registry.mapM (loadRegistry files) with
    | .error message => .failure 2 (line ("Error: " ++ message))
    | .ok registry =>
      (names.map (checkOutcome files (registry.getD .unrestricted))).foldl .andThen (.success "")
  | print file format =>
    match loadProgram files file with
    | .error e => .failure 1 (line e.message)
    | .ok p => .success (line (format.render p))

end Command

end ServiceLang
