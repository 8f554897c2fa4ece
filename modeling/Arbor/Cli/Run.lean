import Arbor.Cli.Arguments
import Arbor.Forest.Printer
import Arbor.Json.Reader
import Arbor.Script.Language
import Arbor.Yaml.Document

/-!
The commands of the program, as functions of the arguments and the files they name. A command
prints a text or a JSON report, and lists issues aside.
-/
namespace Arbor.Cli

structure Settings where
  pipeline : PipelineConfig := {}
  transformer : TransformerConfig := {}
deriving DecidableEq, Inhabited

/-- How many objects stand inside each other in settings, with their values counted. -/
def Settings.depth : Nat := 3

def Settings.ofJson? (j : Json) : Option Settings := do
  let f ← j.fields? ["pipeline", "transformer"]
  return ⟨← f.withDefault 0 {} PipelineConfig.ofJson?,
    ← f.withDefault 1 {} TransformerConfig.ofJson?⟩

/-- Why a command ends without a result. -/
inductive RunError where
  | unreadableSettings (path reason : String)
  /-- A settings file that is no JSON, or else no YAML, of settings. -/
  | invalidSettings (isJson : Bool) (path : String)
  | unparsed (path : String) (cause : PipelineError)
  | unreadable (path reason : String)
  | lexing (cause : PipelineError)
  | schema (cause : SchemaError)

namespace RunError

/-- The failure that the program reports. -/
def failure : RunError → Failure
  | .unreadableSettings path reason => ⟨"cannot read config file " ++ path, [reason]⟩
  | .invalidSettings isJson path =>
      ⟨"invalid " ++ (if isJson then "JSON" else "YAML") ++ " config " ++ path, []⟩
  | .unparsed path cause => cause.failure.context ("cannot parse " ++ path)
  | .unreadable path reason => ⟨"cannot read " ++ path, [reason]⟩
  | .lexing cause => cause.failure
  | .schema cause => ⟨cause.message, []⟩

def message (e : RunError) : String := "error: " ++ e.failure.render

end RunError

/-- Reads a file, or tells why it cannot be read. -/
abbrev Files := String → Except String String

/-- The text of a file. -/
def decodeText (bytes : ByteArray) : Except String String :=
  match String.fromUTF8? bytes with
  | some text => .ok text
  | none => .error "stream did not contain valid UTF-8"

/-- Whether the name of a file ends in `.json`, in any case of letters. -/
def isJsonPath (path : String) : Bool :=
  let name := (path.toList.reverse.takeWhile (· ≠ '/')).reverse
  let suffix := (name.reverse.takeWhile (· ≠ '.')).reverse
  suffix.length + 1 < name.length && suffix.map Char.toLower = ['j', 's', 'o', 'n']

def loadSettings (files : Files) (path : String) : Except RunError Settings :=
  match files path with
  | .error reason => .error (.unreadableSettings path reason)
  | .ok text =>
      let isJson := isJsonPath path
      let content := if isJson then Json.read? text else Yaml.read? Settings.depth text
      match content.bind Settings.ofJson? with
      | some settings => .ok settings
      | none => .error (.invalidSettings isJson path)

/-- How long a run and its lexing took. -/
structure Times where
  total : Json
  lexing : Json

inductive Output where
  | text (lines : String)
  /-- A report that may tell how long things took. -/
  | report (j : Times → Json)

namespace Output

/-- What is printed. -/
def render (times : Times) : Output → String
  | .text lines => lines
  | .report j => (j times).indented ++ "\n"

end Output

/-- What a command gives. -/
structure Outcome where
  output : Output
  issues : List Issue := []
  /-- Whether no issue blocks the result. -/
  correct : Bool := true

namespace Outcome

def errorText (o : Outcome) : String :=
  match o.output with
  | .report _ => ""
  | .text _ => String.join (o.issues.map fun i => i.display ++ "\n")

def exitCode (o : Outcome) : UInt32 := if o.correct then 0 else 1

end Outcome

def parseReport (path : String) (r : ParsingResult) (f : Forest) (times : Times) : Json :=
  .object [
    ("file", .string path),
    ("correct", .bool r.correct),
    ("issues", .array (r.issues.map Issue.toJson)),
    ("statistics", .object (
      [("tokens", Json.ofNat r.firstStage.tokenCount),
       ("nodes", Json.ofNat (r.nodeCount f)),
       ("time_ms", times.total)]
      ++ if r.firstStage.lexingTimed then [("lexing_time_ms", times.lexing)] else []))]

def runParse (settings : Settings) (files : Files) (path : String) (noPositions : Bool)
    (format : OutputFormat) : Except RunError Outcome :=
  match files path with
  | .error reason => .error (.unparsed path (.io path reason))
  | .ok text =>
      let config := { settings.pipeline with
        trackPositions := settings.pipeline.trackPositions && !noPositions }
      match (Script.language settings.transformer).parseWith text config {} with
      | (.error e, _) => .error (.unparsed path e)
      | (.ok r, w) =>
          let f := w.world.forest
          .ok {
            output := match format with
              | .text => .text ((r.root.map f.print).getD "")
              | .json => .report (parseReport path r f)
            issues := r.issues
            correct := r.correct }

def tokenLine (t : Token) : String :=
  t.kind.name ++ " " ++ Text.quoted t.text ++ " " ++ t.position.display ++ "\n"

def lexReport (path : String) (r : LexingResult) : Json :=
  .object [
    ("file", .string path),
    ("correct", .bool r.correct),
    ("tokens", .array (r.tokens.map Token.toJson)),
    ("issues", .array (r.issues.map Issue.toJson))]

def runLex (settings : Settings) (files : Files) (path : String) (allChannels : Bool)
    (format : OutputFormat) : Except RunError Outcome :=
  match files path with
  | .error reason => .error (.unreadable path reason)
  | .ok text =>
      let onlyDefault := settings.pipeline.onlyDefaultChannel && !allChannels
      match (Script.language settings.transformer).lex text onlyDefault with
      | .error e => .error (.lexing e)
      | .ok r =>
          .ok {
            output := match format with
              | .text => .text (String.join (r.tokens.map tokenLine))
              | .json => .report fun _ => lexReport path r
            issues := r.issues
            correct := r.correct }

def propertyLine (p : Property) : String :=
  "  " ++ p.name ++ " " ++ p.kind.name ++ (if p.multiple then "*" else "") ++ " "
    ++ p.declaredType.getD "" ++ "\n"

def typeLines (d : Descriptor) : String :=
  d.display ++ (d.parent?.map (" extends " ++ ·.display)).getD "" ++ "\n"
    ++ String.join (d.properties.map propertyLine)

def runSchema : Except RunError Outcome :=
  match Script.Kinds.registerAll {} with
  | (.error e, _) => .error (.schema e)
  | (.ok _, r) => .ok { output := .text (String.join (r.descriptors.map typeLines)) }

/-- Runs a command. Settings come from the configuration file, if one is named, and options of
the command override them. -/
def run (a : Arguments) (files : Files) : Except RunError Outcome := do
  let settings ← match a.config with
    | some path => loadSettings files path
    | none => .ok {}
  match a.command with
  | .parse input noPositions format => runParse settings files input noPositions format
  | .lex input allChannels format => runLex settings files input allChannels format
  | .schema => runSchema

/-- What `--version` prints. -/
def versionText : String := "sylva 0.1.0\n"

/-- A reminder of the commands and their options. -/
def usageText : String :=
  "Usage: sylva [-c FILE] [-v] COMMAND\n"
    ++ "  parse [--no-positions] [-f text|json] INPUT\n"
    ++ "  lex [--all-channels] [-f text|json] INPUT\n"
    ++ "  schema\n"

end Arbor.Cli
