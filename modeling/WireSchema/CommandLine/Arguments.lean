import WireSchema.Files.Tree
import WireSchema.Text.Numeral
/-!
# Arguments of the command line

A command's options may stand anywhere after its name, up to `--`. A value
follows its option, as the next argument or behind an equals sign, or right
behind the letter of a short option. Of an option given twice the last value
counts.
-/

namespace WireSchema.CommandLine

/-- The options of a conversion. -/
inductive OptionName where
  | output
  | config
  | workers
  | logLevel
deriving DecidableEq

/-- What was given to a command. -/
structure Given where
  positional : List Text := []
  values : List (OptionName × Text) := []
  asksForHelp : Bool := false

/-- The arguments of a conversion. -/
structure Conversion where
  pattern : Text
  output : Text := "typespec"
  config : Option Text := none
  /-- How many units are converted at a time, which changes nothing in the result. -/
  workers : Nat := 1
  logLevel : Text := "WARNING"

/-- A command with its arguments. -/
inductive Command where
  | help
  | version
  | convert (c : Conversion)
  | schema (path : Text)

/-- The levels of the log. -/
def logLevels : List Text := ["DEBUG", "INFO", "WARNING", "ERROR"]

/-- Arguments that make no command. -/
inductive UsageError where
  | noCommand
  | unknownCommand
  | unknownOption
  | missingValue
  | unwantedValue
  | missingArgument
  | extraArgument
  | invalidValue (o : OptionName)
  /-- There is no such level of the log. -/
  | noLevel (given : Text)
deriving DecidableEq

def OptionName.label : OptionName → Text
  | .output => "--output"
  | .config => "--config"
  | .workers => "--workers"
  | .logLevel => "--log-level"

def UsageError.message : UsageError → Text
  | .noCommand => "missing command"
  | .unknownCommand => "no such command"
  | .unknownOption => "no such option"
  | .missingValue => "an option requires an argument"
  | .unwantedValue => "an option takes no value"
  | .missingArgument => "missing argument"
  | .extraArgument => "unexpected extra argument"
  | .invalidValue o => "invalid value for " ++ o.label
  | .noLevel given => given ++ " is not one of " ++ Text.join ", " logLevels

/-- The option with a long name. -/
def long? (name : Text) : Option OptionName :=
  [OptionName.output, .config, .workers, .logLevel].find? (·.label == name)

/-- The given arguments with a value of an option before the others. -/
def Given.put (g : Given) (o : OptionName) (value : Text) : Given :=
  { g with values := (o, value) :: g.values }

/-- Reads arguments by the options that a command has. `pending` is an option
whose value comes next. -/
def scan (options : Text → Option OptionName) (pending : Option OptionName) :
    List Text → Except UsageError Given
  | [] => if pending.isSome then .error .missingValue else .ok {}
  | arg :: rest =>
    match pending with
    | some o => do return (← scan options none rest).put o arg
    | none =>
      if arg == "--" then .ok { positional := rest }
      else if Text.startsWith arg "-" && arg != "-" then
        let (name, value) := Text.splitFirst '=' arg
        let hasValue := arg.contains '='
        if name == "--help" then
          if hasValue then .error .unwantedValue
          else do return { (← scan options none rest) with asksForHelp := true }
        else
          match options name, if Text.startsWith arg "-o" then options "--output" else none with
          | some o, _ =>
            if hasValue then do return (← scan options none rest).put o value
            else scan options (some o) rest
          | none, some o =>
            if (arg.drop 2).isEmpty then scan options (some o) rest
            else do return (← scan options none rest).put o (arg.drop 2)
          | none, none => .error .unknownOption
      else do
        let given ← scan options none rest
        return { given with positional := arg :: given.positional }

/-- The last value of an option. -/
def Given.value? (g : Given) (o : OptionName) : Option Text :=
  (g.values.reverse.find? (·.1 == o)).map (·.2)

/-- The only argument that is no option. -/
def Given.only (g : Given) : Except UsageError Text :=
  match g.positional with
  | [] => .error .missingArgument
  | [arg] => .ok arg
  | _ => .error .extraArgument

/-- A number of workers, which is at least one. -/
def workers (t : Text) : Except UsageError Nat :=
  match Text.integerValue? 10 t with
  | some n => if 1 ≤ n then .ok n.toNat else .error (.invalidValue .workers)
  | none => .error (.invalidValue .workers)

/-- The conversion that arguments ask for. A configuration has to be a file. -/
def conversion (t : FileTree) (g : Given) : Except UsageError Conversion := do
  let pattern ← g.only
  let config ←
    match g.value? .config with
    | none => pure none
    | some path =>
      if t.hasFile path then pure (some (Path.plain path)) else .error (.invalidValue .config)
  let workers ← match g.value? .workers with
    | none => pure 1
    | some n => workers n
  let output := Path.plain ((g.value? .output).getD "typespec")
  return { pattern, output, config, workers, logLevel := (g.value? .logLevel).getD "WARNING" }

/-- The command that the arguments make. -/
def parse (t : FileTree) (args : List Text) : Except UsageError Command :=
  match if args.head? == some "--" then args.drop 1 else args with
  | [] => .error .noCommand
  | name :: rest => do
    if name == "--help" then return .help
    else if name == "version" then
      let g ← scan (fun _ => none) none rest
      if g.asksForHelp then return .help
      else if g.positional.isEmpty then return .version
      else .error .extraArgument
    else if name == "convert" then
      let g ← scan long? none rest
      if g.asksForHelp then return .help
      else return .convert (← conversion t g)
    else if name == "config-schema" then
      let g ← scan (fun _ => none) none rest
      if g.asksForHelp then return .help
      else return .schema (Path.plain (← g.only))
    else .error .unknownCommand

end WireSchema.CommandLine
