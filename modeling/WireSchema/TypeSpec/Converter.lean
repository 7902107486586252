import WireSchema.Registry
import WireSchema.TypeSpec.Decorator
import WireSchema.TypeSpec.FieldName
/-!
# Writing types in TypeSpec

`convert` describes the TypeSpec of a type in full, `reference` names the model
of a type where it has one. A type that is met again inside itself, and a type
of a shape that TypeSpec lacks, is written as it stands in the source.

`path` lists the types that are being written, so it never repeats one. Strings,
numbers, booleans and templates do not enter it; a template that is made of
itself has no finite text. The number that `convertIn` recurses on bounds how
deep types are written one inside the other, and there is no answer where it is
reached.
-/

namespace WireSchema.TypeSpec

/-- What a conversion goes by. -/
structure Setting where
  project : Project := {}
  registry : Registry
  config : Config := {}
  /-- How deep types are written one inside the other, if that is settled. -/
  depth : Option Nat := none

/-- A step that resolves types, or has no answer. -/
abbrev Converting := StateT Store Option

instance : MonadLift Resolving Converting := ⟨fun step s => some (step s)⟩

/-- Writes a type inside of those of the path. -/
abbrev Writer := List TypeId → TypeId → Converting Layout

/-- The type as it stands in the source. -/
def verbatim (type : TypeId) (reason : VerbatimReason) : Converting Layout := do
  let node ← Resolving.node type
  Resolving.report (.verbatim node.shape.label reason node.text)
  return .text node.text

section

variable (setting : Setting) (write : Writer) (path : List TypeId)

/-- The model's name, or else the type in full. -/
def reference (type : TypeId) : Converting Layout :=
  match setting.registry.find? type with
  | some model => return .text model.displayName
  | none => write path type

/-- Several types with a separator between them. -/
def references (types : List TypeId) : Converting (List Layout) :=
  types.mapM (reference setting write path)

/-- A part of a template literal. -/
def span : Span TypeId → Converting (List Layout)
  | .chunk t => return [.text (Text.literalInside t)]
  | .hole type => do
    return [.text Text.interpolation, ← reference setting write path type, "\x7d"]

/-- A template literal, as a string with interpolations. -/
def template (spans : List (Span TypeId)) : Converting Layout := do
  let parts ← spans.mapM (span setting write path)
  return .concat ([.text "\""] ++ parts.flatten ++ [.text "\""])

/-- An array; a union without a name goes into parentheses. -/
def arrayOf (element : TypeId) : Converting Layout := do
  let written ← reference setting write path element
  let node ← Resolving.node element
  if node.isUnion && (setting.registry.find? element).isNone then
    return .concat ["(", written, ")[]"]
  else
    return .concat [written, "[]"]

/-- A name with type arguments. -/
def application (name : Text) (arguments : List TypeId) : Converting Layout := do
  let written ← references setting write path arguments
  return .concat [.text name, "<", .join ", " written, ">"]

/-- A generic type with arguments. Arrays have brackets, and records may go
without their key type. -/
def instantiation (type : TypeId) (symbol : Option Text) (arguments : List TypeId) :
    Converting Layout :=
  match symbol with
  | none => verbatim type .unnamed
  | some name =>
    match arguments with
    | [] => application setting write path name []
    | first :: rest =>
      if name = "Array" then arrayOf setting write path first
      else if name = "Record" ∧ setting.config.recordStyle = .value then
        application setting write path name [(first :: rest).getLastD first]
      else application setting write path name (first :: rest)

/-- A field with its decorators. -/
def field (id : PropertyId) : Converting Layout := do
  match (← get).property? id with
  | none => return .lines []
  | some property =>
    let type ← setting.project.propertyType id
    let written ← reference setting write path type
    let mark : Text := if property.isOptional then "?" else []
    let declared : Layout := .concat [.text (fieldName property.name), .text mark, ": ", written]
    return .lines (decorators setting.config property.docs ++ [declared])

/-- Fields between braces. -/
def body (ids : List PropertyId) : Converting Layout := do
  if ids.isEmpty then return .text "\x7b\x7d"
  else
    let fields ← ids.mapM (field setting write path)
    return .braced (.statements fields)

end

/-- The properties of an intersection's members; the first one of a name counts. -/
def mergedProperties (setting : Setting) (text : Text) (members : List TypeId) :
    Converting (List PropertyId) := do
  let found ← members.mapM fun member => do
    let ids ← setting.project.properties member
    if ids.isEmpty then
      let node ← Resolving.node member
      Resolving.report (.droppedMember node.shape.label text node.text)
    return ids
  return Project.withNewNames (← get) [] found.flatten

/-- A type in full, what it is made of being written by `write`. -/
def convertWith (setting : Setting) (write : Writer) : Writer := fun path type => do
  let node ← Resolving.node type
  let enter (step : List TypeId → Converting Layout) : Converting Layout :=
    if path.contains type then verbatim type .recursive else step (type :: path)
  match node.shape with
  | .string => return .text "string"
  | .number => return .text setting.config.numberType
  | .boolean => return .text "boolean"
  | .template spans => template setting write path spans
  | .array (some element) => enter fun path => arrayOf setting write path element
  | .tuple elements =>
    enter fun path => do
      return .concat ["[", .join ", " (← references setting write path elements), "]"]
  | .instantiation arguments =>
    enter fun path => instantiation setting write path type node.symbol arguments
  | .object =>
    enter fun path => do body setting write path (← setting.project.properties type)
  | .union members =>
    enter fun path => do return .union (← references setting write path members)
  | .intersection members =>
    enter fun path => do
      body setting write path (← mergedProperties setting node.text members)
  | .array none => enter fun _ => verbatim type .unsupported
  | .other => enter fun _ => verbatim type .unsupported

/-- A type in full, written at most so deep. -/
def convertIn (setting : Setting) : Nat → Writer
  | 0, _, _ => failure
  | depth + 1, path, type => convertWith setting (convertIn setting depth) path type

/-- How many types a declaration is made of. -/
def declarationWeight (d : Declaration) : Nat :=
  match d.body with
  | .interface _ bases members => bases.length + TypeExpr.sizeMembers members + 1
  | .typeAlias _ type => type.size
  | .enumeration members => members.length + 1

/-- How deep types can be written one inside the other, if none is a template
made of itself. -/
def depthBound (setting : Setting) (s : Store) : Nat :=
  let declarations := setting.project.units.flatMap (·.declarations)
  let most := 4 * (s.weight + Store.total declarationWeight declarations + 1)
  most * most

/-- How deep a conversion writes types, as its setting says or as is enough for
the store. -/
def depth (setting : Setting) : Converting Nat := do
  return setting.depth.getD (depthBound setting (← get))

/-- A type in full. -/
def convert (setting : Setting) (type : TypeId) : Converting Layout := do
  convertIn setting (← depth setting) [] type

/-- The name of a type's model, or else the type in full. -/
def refer (setting : Setting) (type : TypeId) : Converting Layout := do
  reference setting (convertIn setting (← depth setting)) [] type

/-- The type is written between braces with at least one field. -/
def isModelLike (p : Project) (type : TypeId) : Resolving Bool := do
  match (← Resolving.node type).shape with
  | .object => return !(← p.properties type).isEmpty
  | .intersection members => anyProperties members
  | _ => return false
where
  /-- One of the types has properties. -/
  anyProperties : List TypeId → Resolving Bool
    | [] => return false
    | member :: rest => do
      if (← p.properties member).isEmpty then anyProperties rest else return true

/-- The placeholders of a generic model's parameters. -/
def placeholders (count : Int) : Text :=
  if count ≤ 0 then []
  else if count = 1 then "<T>"
  else
    let names : List Text := (List.range count.toNat).map fun i => "T" ++ Text.ofNat (i + 1)
    "<" ++ Text.join ", " names ++ ">"

/-- The statement of a model, after its decorators. -/
def convertModel (setting : Setting) (model : Model) : Converting Layout := do
  let head := model.displayName ++ placeholders model.parameterCount
  let written ← convert setting model.type
  let statement : Layout :=
    if ← isModelLike setting.project model.type then
      .template "model " [(.text head, " "), (written, ";")]
    else
      .template "alias " [(.text head, " = "), (written, ";")]
  return .lines (decorators setting.config model.docs ++ [statement])

end WireSchema.TypeSpec
