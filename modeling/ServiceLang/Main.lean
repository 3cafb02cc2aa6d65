import ServiceLang.Command

/-!
The command line: reads the files that a command needs, runs it, and writes what it
leaves behind.
-/

open ServiceLang

/-- How the command line is used. -/
def usage : String :=
  "usage: check FILE... [-r|--registry FILE]\n       print FILE [-f|--format text|json]"

/-- The contents of a file, or why it cannot be read. -/
def readInput (name : String) : IO (Except String String) := do
  try
    return .ok (← IO.FS.readFile name)
  catch e =>
    match e with
    | .noFileOrDirectory _ code _ =>
      return .error ("No such file or directory (os error " ++ toString code ++ ")")
    | e => return .error (toString e)

def main (args : List String) : IO UInt32 := do
  match Command.ofArguments? args with
  | none =>
    IO.eprintln usage
    return 2
  | some command =>
    let read ← command.inputs.mapM fun name => return (name, ← readInput name)
    let files : Files := fun name => (read.lookup name).getD (.error "not read")
    let outcome := command.run files
    IO.print outcome.output
    IO.eprint outcome.errors
    return UInt32.ofNat outcome.exitCode
