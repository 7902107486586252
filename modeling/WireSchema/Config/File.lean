import WireSchema.Config.Check
import WireSchema.Datum.JsonReader
import WireSchema.Datum.JsonWriter
import WireSchema.Files.Path
import WireSchema.Yaml.Reader
import WireSchema.Yaml.Writer
/-!
# Configuration files

A file whose name ends in `.yaml` or `.yml` is YAML, any other is JSON. It
holds a mapping, or nothing for the defaults.
-/

namespace WireSchema.Config

/-- How a file is written. -/
inductive Format where
  | json
  | yaml
deriving DecidableEq

/-- The format of the file at a path. -/
def Format.ofPath (path : Text) : Format :=
  let ending := Path.suffix path
  if ending == ".yaml" || ending == ".yml" then .yaml else .json

/-- Why a file gives no configuration. -/
inductive FileError where
  /-- The text is not of the file's format. -/
  | unreadable
  /-- What the file holds is no mapping but a value of this kind. -/
  | notMapping (kind : Text)
  /-- Fields with problems. -/
  | refused (problems : List FieldProblem)
  /-- A key is no text. -/
  | keyNotText
  /-- A scalar of the file does not fit its tag or is out of range. -/
  | fault (fault : Yaml.Fault)
deriving DecidableEq

/-- The message of an error in the file at a path. -/
def FileError.message (path : Text) : FileError → Text
  | .notMapping kind =>
    "Invalid config " ++ path ++ ": expected a mapping, got " ++ kind
  | _ => "Invalid config " ++ path

/-- The error is about what the file says, not about how its scalars are tagged
or its keys typed. -/
def FileError.isReported : FileError → Bool
  | .unreadable => true
  | .notMapping _ => true
  | .refused _ => true
  | .keyNotText => false
  | .fault _ => false

/-- The configuration that a value describes. -/
def ofDatum : Datum → Except FileError Config
  | .null => .ok {}
  | .mapping entries =>
    if entries.all (·.1.isWord) then (check entries).mapError .refused else .error .keyNotText
  | d => .error (.notMapping d.kind)

/-- How mappings are written into a text, and what a text is read as. -/
structure Codec where
  write : List (Text × Datum) → Text
  read : Text → Except FileError Datum

/-- The configuration in a text. -/
def Codec.load (codec : Codec) (content : Text) : Except FileError Config := do
  ofDatum (← codec.read content)

/-- The text of a configuration. -/
def Codec.save (codec : Codec) (c : Config) : Text := codec.write c.entries

/-- The writer and the reader of a format. -/
def Format.codec : Format → Codec
  | .json =>
    { write := fun entries => Datum.Json.render (.record entries)
      read := fun content =>
        match Datum.Json.parse? content with
        | some d => .ok d
        | none => .error .unreadable }
  | .yaml =>
    { write := Yaml.render
      read := fun content =>
        match Yaml.parse content with
        | .ok d => .ok d
        | .error .malformed => .error .unreadable
        | .error fault => .error (.fault fault) }

/-- The configuration in a text of a format. -/
def load (format : Format) (content : Text) : Except FileError Config := format.codec.load content

/-- The text of a configuration in a format. -/
def save (format : Format) (c : Config) : Text := format.codec.save c

end WireSchema.Config
