/-!
The command line. Options of the program may stand before and after the command, options of a
command only after it; each option is given at most once at its level.
-/
namespace Arbor.Cli

inductive OutputFormat where
  | text
  | json
deriving DecidableEq, Inhabited

inductive Command where
  | parse (input : String) (noPositions : Bool) (format : OutputFormat)
  | lex (input : String) (allChannels : Bool) (format : OutputFormat)
  | schema
deriving DecidableEq, Inhabited

structure Arguments where
  config : Option String
  verbose : Bool
  command : Command
deriving DecidableEq, Inhabited

/-- What the arguments ask for. -/
inductive Request where
  | run (arguments : Arguments)
  | version
  | help
  | misuse
deriving DecidableEq, Inhabited

/-- The commands that arguments can name. -/
inductive CommandName where
  | parse
  | lex
  | schema
deriving DecidableEq

def CommandName.ofString? : String → Option CommandName
  | "parse" => some .parse
  | "lex" => some .lex
  | "schema" => some .schema
  | _ => none

/-- What has been read at one level. -/
structure Level where
  config : Option String := none
  verbose : Bool := false
  noPositions : Bool := false
  allChannels : Bool := false
  format : Option OutputFormat := none
  input : Option String := none

/-- An option: what it is called, and what it does at a level. -/
inductive Flag where
  | config
  | verbose
  | noPositions
  | allChannels
  | format
  | version
  | help
deriving DecidableEq

def Flag.takesValue : Flag → Bool
  | .config => true
  | .format => true
  | _ => false

/-- Whether an option may stand at the level of a command, or before any. -/
def Flag.allowed (command : Option CommandName) : Flag → Bool
  | .config => true
  | .verbose => true
  | .help => true
  | .version => command.isNone
  | .noPositions => command = some .parse
  | .allChannels => command = some .lex
  | .format => command = some .parse || command = some .lex

def Flag.ofLong? : String → Option Flag
  | "config" => some .config
  | "verbose" => some .verbose
  | "no-positions" => some .noPositions
  | "all-channels" => some .allChannels
  | "format" => some .format
  | "version" => some .version
  | "help" => some .help
  | _ => none

def Flag.ofShort? : Char → Option Flag
  | 'c' => some .config
  | 'v' => some .verbose
  | 'f' => some .format
  | 'V' => some .version
  | 'h' => some .help
  | _ => none

/-- Why reading arguments ends early. -/
inductive Stop where
  | version
  | help
  | misuse
deriving DecidableEq

/-- Records an option without a value. -/
def Level.switch (l : Level) : Flag → Except Stop Level
  | .verbose => if l.verbose then .error .misuse else .ok { l with verbose := true }
  | .noPositions => if l.noPositions then .error .misuse else .ok { l with noPositions := true }
  | .allChannels => if l.allChannels then .error .misuse else .ok { l with allChannels := true }
  | .version => .error .version
  | .help => .error .help
  | _ => .error .misuse

/-- Records an option with its value. -/
def Level.assign (l : Level) (flag : Flag) (value : String) : Except Stop Level :=
  match flag with
  | .config =>
      if l.config.isSome || value.isEmpty then .error .misuse
      else .ok { l with config := some value }
  | .format =>
      if l.format.isSome then .error .misuse
      else if value = "text" then .ok { l with format := some .text }
      else if value = "json" then .ok { l with format := some .json }
      else .error .misuse
  | _ => .error .misuse

def Level.positional (l : Level) (command : CommandName) (value : String) : Except Stop Level :=
  if command = .schema || l.input.isSome || value.isEmpty then .error .misuse
  else .ok { l with input := some value }

/-- An argument that can be the value of the option before it. -/
def isValue (argument : String) : Bool := argument = "-" || !("-".isPrefixOf argument)

/-- Records an option whose value, if it takes one, is `attached` or the next argument. -/
def Level.option (l : Level) (command : Option CommandName) (flag : Flag)
    (attached : Option String) (rest : List String) : Except Stop (Level × List String) :=
  if !flag.allowed command then .error .misuse
  else if flag.takesValue then
    match attached, rest with
    | some value, rest => (l.assign flag value).map (·, rest)
    | none, value :: rest =>
        if isValue value then (l.assign flag value).map (·, rest) else .error .misuse
    | none, [] => .error .misuse
  else if attached.isSome then .error .misuse
  else (l.switch flag).map (·, rest)

/-- A run of one-letter options; the first one that takes a value ends it. -/
def Level.cluster (l : Level) (command : Option CommandName) :
    List Char → List String → Except Stop (Level × List String)
  | [], rest => .ok (l, rest)
  | c :: cs, rest =>
      match Flag.ofShort? c with
      | none => .error .misuse
      | some flag =>
          if flag.takesValue then
            let value := match cs with
              | '=' :: value => value
              | value => value
            l.option command flag (if cs.isEmpty then none else some (String.ofList value)) rest
          else
            match l.option command flag none [] with
            | .error stop => .error stop
            | .ok (l, _) => l.cluster command cs rest

/-- A long option, with the value behind an equals sign if there is one. -/
def Level.long (l : Level) (command : Option CommandName) (body : List Char)
    (rest : List String) : Except Stop (Level × List String) :=
  let name := body.takeWhile (· ≠ '=')
  let attached := match body.dropWhile (· ≠ '=') with
    | _ :: value => some (String.ofList value)
    | [] => none
  match Flag.ofLong? (String.ofList name) with
  | none => .error .misuse
  | some flag => l.option command flag attached rest

/-- What was read before the command and behind it. -/
structure Reading where
  outer : Level := {}
  command : Option CommandName := none
  inner : Level := {}

/-- Records a word that is no option: the command, or a positional argument of it. -/
def Reading.word (r : Reading) (argument : String) : Except Stop Reading :=
  match r.command with
  | some command => (r.inner.positional command argument).map ({ r with inner := · })
  | none =>
      match CommandName.ofString? argument with
      | some command => .ok { r with command := some command }
      | none => if argument = "help" then .error .help else .error .misuse

/-- Words behind a double dash, which are no options. -/
def Reading.words (r : Reading) : List String → Except Stop Reading
  | [] => .ok r
  | argument :: rest =>
      match r.command with
      | none => .error .misuse
      | some command =>
          match r.inner.positional command argument with
          | .error stop => .error stop
          | .ok inner => { r with inner }.words rest

/-- Reads the arguments in turn; an option takes up to two of them. -/
def Reading.all : Nat → Reading → List String → Except Stop Reading
  | 0, r, _ => .ok r
  | _ + 1, r, [] => .ok r
  | fuel + 1, r, argument :: rest =>
      let level := if r.command.isSome then r.inner else r.outer
      let continue' (answer : Except Stop (Level × List String)) : Except Stop Reading :=
        match answer with
        | .error stop => .error stop
        | .ok (level, rest) =>
            Reading.all fuel
              (if r.command.isSome then { r with inner := level } else { r with outer := level })
              rest
      match argument.toList with
      | ['-', '-'] => r.words rest
      | '-' :: '-' :: body => continue' (level.long r.command body rest)
      | '-' :: c :: cs => continue' (level.cluster r.command (c :: cs) rest)
      | _ =>
          match r.word argument with
          | .error stop => .error stop
          | .ok r => Reading.all fuel r rest

/-- The request that a reading amounts to; a command line without a command is misused. -/
def Reading.request (r : Reading) : Request :=
  let format := r.inner.format.getD .text
  let command : Option Command :=
    match r.command, r.inner.input with
    | some .parse, some input => some (.parse input r.inner.noPositions format)
    | some .lex, some input => some (.lex input r.inner.allChannels format)
    | some .schema, _ => some .schema
    | _, _ => none
  match command with
  | none => .misuse
  | some command =>
      .run ⟨r.inner.config.or r.outer.config, r.inner.verbose || r.outer.verbose, command⟩

/-- Reads the arguments of the program. -/
def Request.ofArguments (arguments : List String) : Request :=
  match Reading.all (arguments.length + 1) {} arguments with
  | .error .version => .version
  | .error .help => .help
  | .error .misuse => .misuse
  | .ok r => r.request

end Arbor.Cli
