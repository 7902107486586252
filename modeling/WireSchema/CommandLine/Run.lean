import WireSchema.CommandLine.Arguments
import WireSchema.CommandLine.Markup
import WireSchema.Config.File
import WireSchema.Config.Schema
import WireSchema.Document.Output
import WireSchema.Document.Sources
import WireSchema.Files.Search
import WireSchema.Version
/-!
# Running a command

A command works on a tree of files and gives it back together with what came of
it. A message ends a command that fails for a reason the user can mend: the
configuration, the files or the TypeScript in them. Any other failure is handed
on. How arguments are read, what the console makes of markup and how files hold
mappings is up to the shell that a command runs in.
-/

namespace WireSchema.CommandLine

/-- A failure that is no message to the user. -/
inductive Failure where
  | config (e : Config.FileError)
  | unit (e : UnitError)
  | depth
  | encoding
  | markup
  | path (e : PathError)
deriving DecidableEq

/-- What came of a command. -/
inductive Result where
  /-- The command is done and prints a text. -/
  | done (output : Text)
  /-- The command gives up and prints a text. -/
  | refused (output : Text)
  | usage (e : UsageError)
  | failed (f : Failure)
deriving DecidableEq

/-- The status of the process. -/
def Result.status : Result → Nat
  | .done _ => 0
  | .refused _ => 1
  | .usage _ => 2
  | .failed _ => 1

/-- What is printed. -/
def Result.output : Result → Text
  | .done output => output
  | .refused output => output
  | _ => []

def Failure.message : Failure → Text
  | .config _ => "the configuration file cannot be used"
  | .unit (.duplicate name) => UnitError.duplicateMessage name
  | .unit (.rejected e) => e.message
  | .unit (.unreadable _) => "a literal in a source cannot be read"
  | .depth => "types are nested too deep"
  | .encoding => "the document holds a surrogate"
  | .markup => "a path closes a tag that is not open"
  | .path e => e.message

/-- What the user is told apart from the output. -/
def Result.complaint : Result → Text
  | .usage e => "Error: " ++ e.message ++ "\n"
  | .failed f => "Error: " ++ f.message ++ "\n"
  | _ => []

/-- What a command runs in. -/
structure Shell where
  /-- The command that the arguments make among files. -/
  parse : FileTree → List Text → Except UsageError Command
  /-- Markup that stands for a text. -/
  escape : Text → Text
  /-- What the console prints for markup. -/
  print : Text → Except Markup.Fault Text
  codec : Config.Format → Config.Codec

/-- Why there is no configuration. -/
inductive ConfigFault where
  | reading (e : FileTree.ReadError)
  | loading (path : Text) (e : Config.FileError)

/-- The configuration that a conversion names. -/
def loadConfig (codec : Config.Format → Config.Codec) (t : FileTree) : Option Text → Except ConfigFault Config
  | none => .ok {}
  | some path => do
    let content ← (t.read path).mapError .reading
    ((codec (.ofPath path)).load content).mapError (.loading path)

/-- A capital letter for a small one; the small letter without a dot has one too. -/
def upper (c : CodePoint) : CodePoint :=
  if c.isBetween 'a' 'z' then (CodePoint.ofNat? (c.val - 0x20)).getD c
  else if c = 'ı' then 'I' else c

/-- The name of a level of the log, in letters of either case. -/
def isLogLevel (name : Text) : Bool := logLevels.contains (name.map upper)

/-- The markup that tells how many files went into a document. -/
def convertedMessage (count : Nat) (path : Text) : Text :=
  "[bold green]Converted " ++ Text.ofNat count ++ " files:[/] " ++ path

/-- How the commands are called. -/
def helpText : Text :=
  Text.unrows
    ["version", "convert PATTERN [--output DIR] [--config FILE] [--workers N] [--log-level LEVEL]",
     "config-schema PATH", ""]

namespace Shell

variable (sh : Shell)

/-- Prints markup. -/
def line (markup : Text) (result : Text → Result) : Result :=
  match sh.print markup with
  | .ok text => result text
  | .error _ => .failed .markup

/-- A message in bold red. -/
def refuse (markup : Text) : Result := sh.line ("[bold red]" ++ markup ++ "[/]") .refused

/-- What comes of a conversion without a configuration. -/
def refuseConfig : ConfigFault → Result
  | .reading (.decoding e) => sh.refuse (sh.escape e.message)
  | .reading (.path e) => .failed (.path e)
  | .loading path e => if e.isReported then sh.refuse (sh.escape (e.message path)) else .failed (.config e)

/-- The message about files that cannot be converted. -/
def refuseFiles (message : Text) : Result := sh.refuse ("Failed to convert: " ++ sh.escape message)

/-- What comes of a conversion whose sources give no document. -/
def refuseSources : SourcesError → Result
  | .reading (.path e) => sh.refuseFiles e.message
  | .reading (.decoding e) => sh.refuseFiles e.message
  | .unit (.rejected e) => sh.refuseFiles e.message
  | .unit e => .failed (.unit e)
  | .depth => .failed .depth

/-- What comes of a conversion whose document cannot be written. -/
def refuseOutput : OutputError → Result
  | .path e => sh.refuseFiles e.message
  | .encoding => .failed .encoding

/-- Converts the files of a pattern into a document in the output directory. -/
def convert (t : FileTree) (c : Conversion) : FileTree × Result :=
  if !isLogLevel c.logLevel then (t, .usage (.noLevel c.logLevel))
  else
    match loadConfig sh.codec t c.config with
    | .error e => (t, sh.refuseConfig e)
    | .ok config =>
      match t.inputs c.pattern with
      | [] => (t, sh.refuse ("No files match " ++ sh.escape c.pattern))
      | paths =>
        match Document.ofFiles t config paths with
        | .error e => (t, sh.refuseSources e)
        | .ok text =>
          match Document.write t c.output config.outputName text with
          | (t, .error e) => (t, sh.refuseOutput e)
          | (t, .ok path) => (t, sh.line (convertedMessage paths.length path) .done)

/-- Writes the schema of configurations to a path, whose directory is made if it
is missing. -/
def writeSchema (t : FileTree) (path : Text) : FileTree × Result :=
  match t.makeDirectories (Path.parent path) with
  | (t, some e) => (t, .failed (.path e))
  | (t, none) =>
    match t.write path ((Utf8.encode? (Datum.Json.render Config.schema)).getD []) with
    | .error e => (t, .failed (.path e))
    | .ok t => (t, sh.line ("[bold green]Schema written:[/] " ++ path) .done)

/-- Runs a command on the files it was called among. -/
def run (t : FileTree) (args : List Text) : FileTree × Result :=
  match sh.parse t args with
  | .error e => (t, .usage e)
  | .ok .help => (t, .done helpText)
  | .ok .version => (t, .done (version ++ "\n"))
  | .ok (.convert c) => sh.convert t c
  | .ok (.schema path) => sh.writeSchema t path

/-- A shell whose console has no colours. -/
def plain : Shell where
  parse := CommandLine.parse
  escape := Markup.escape
  print markup := (Markup.read markup).map (· ++ "\n")
  codec := Config.Format.codec

end Shell

/-- Runs a command in a shell without colours. -/
def run (t : FileTree) (args : List Text) : FileTree × Result := Shell.plain.run t args

end WireSchema.CommandLine
