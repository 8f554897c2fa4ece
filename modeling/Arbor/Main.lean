import Arbor.Cli.Directory

/-!
The program: it reads the files that its arguments name, runs the command and prints. Input with
blocking issues ends it with 1, and a command that cannot be run with 2.
-/
namespace Arbor.Cli

/-- Why a file cannot be read, with the number of the cause. -/
def ioReason : IO.Error → String
  | .noFileOrDirectory .. => PathError.notFound.message
  | .inappropriateType _ code _ =>
      (if code = 20 then PathError.notDirectory else PathError.isDirectory).message
  | .permissionDenied _ code _ => "Permission denied (os error " ++ toString code ++ ")"
  | e => toString e

/-- The text of a file, or why it has none. -/
def readText (path : String) : IO (Except String String) := do
  try
    return decodeText (← IO.FS.readBinFile path)
  catch e => return .error (ioReason e)

/-- The files that a command reads. -/
def Arguments.paths (a : Arguments) : List String :=
  a.config.toList ++ match a.command with
    | .parse input _ _ => [input]
    | .lex input _ _ => [input]
    | .schema => []

/-- Reads files one after the other. -/
def readAll : List String → IO (Table String (Except String String))
  | [] => return ∅
  | path :: rest => do
      let text ← readText path
      return (← readAll rest).insert path text

/-- Milliseconds between two clock readings in nanoseconds. -/
def elapsed (start stop : Nat) : Json :=
  .number (.decimal (Binary64.ofRatio false (stop - start) 1000000))

/-- How long it takes to cut the input of a command into tokens. -/
def timeLexing (files : Files) (a : Arguments) : IO Json := do
  match a.command with
  | .parse input _ _ =>
      let text := (files input).toOption.getD ""
      let start ← IO.monoNanosNow
      let tokens ← IO.lazyPure fun _ => (Script.tokenize text).1
      let stop ← IO.monoNanosNow
      return elapsed start (stop + 0 * tokens.length)
  | _ => return .null

def execute (a : Arguments) : IO UInt32 := do
  let table ← readAll a.paths
  let files : Files := fun path => (table.get? path).getD (.error "no such file")
  let lexing ← timeLexing files a
  let start ← IO.monoNanosNow
  let answer ← IO.lazyPure fun _ => run a files
  match answer with
  | .error e =>
      IO.eprintln e.message
      return 2
  | .ok outcome =>
      let stop ← IO.monoNanosNow
      IO.print (outcome.output.render ⟨elapsed start stop, lexing⟩)
      IO.eprint outcome.errorText
      return outcome.exitCode

end Arbor.Cli

/-- Runs the program on its arguments. -/
def main (arguments : List String) : IO UInt32 := do
  match Arbor.Cli.Request.ofArguments arguments with
  | .run a => Arbor.Cli.execute a
  | .version =>
      IO.print Arbor.Cli.versionText
      return 0
  | .help =>
      IO.print Arbor.Cli.usageText
      return 0
  | .misuse =>
      IO.eprint Arbor.Cli.usageText
      return 2
