import WireSchema.Config.Check
/-!
# The schema of configurations

A JSON schema for editors: the fields with their defaults and types.
-/

namespace WireSchema.Config

/-- The words of a name, each beginning with a capital letter. -/
def title (name : Text) : Text :=
  Text.join " " ((Text.splitOn '_' name).map capital)
where
  capital : Text → Text
    | [] => []
    | c :: rest =>
      (if c.isBetween 'a' 'z' then (CodePoint.ofNat? (c.val - 0x20)).getD c else c) :: rest

/-- The schema of a field with its default. -/
def fieldSchema (name : Text) (default : Datum) : Text × Datum :=
  let (limits, type) : List (Text × Datum) × Text :=
    match default with
    | .int _ => ([("exclusiveMinimum", .int 0)], "integer")
    | _ =>
      if name == "record_style" then
        ([("enum", .list ([.value, .keyValue].map fun s => .text (recordStyleName s)))], "string")
      else ([], "string")
  let first : List (Text × Datum) := [("default", default)]
  let last : List (Text × Datum) := [("title", .text (title name)), ("type", .text type)]
  (name, Datum.record (first ++ limits ++ last))

/-- The schema of configurations. -/
def schema : Datum :=
  Datum.record
    [("additionalProperties", .bool false),
     ("description", .text "Knobs for tag conventions and output policies."),
     ("properties", Datum.record (({} : Config).entries.map fun (name, d) => fieldSchema name d)),
     ("title", .text "ConverterConfig"), ("type", .text "object")]

end WireSchema.Config
