import WireSchema.TypeSpec.Converter
/-!
# Documents

Units are converted one by one into sections, and the sections that came out
make up the document, under the `using` directives that any of them needs.
-/

namespace WireSchema

/-- What became of a unit. -/
inductive Section where
  | converted (unit text : Text) (usings : List Text)
  /-- The project has no such unit. -/
  | missing (unit : Text)
deriving DecidableEq

namespace Document

open TypeSpec

/-- The section of a unit: its models with a blank row between them. -/
def convertUnit (setting : Setting) (name : Text) : Converting Section := do
  match setting.project.findUnit? name with
  | none =>
    Resolving.report (.skipped name)
    return .missing name
  | some place =>
    let layout := Layout.stanzas
      (← (setting.registry.modelsIn place).mapM (convertModel setting))
    Resolving.report (.converted (setting.registry.modelsIn place).length name)
    return .converted name layout.render (layout.attach {}).usings

/-- The sections of several units. The registry covers the whole project. -/
def convertUnits (project : Project) (config : Config) (names : List Text) :
    Converting (List Section) := do
  let registry ← Registry.build project config
  let setting : Setting := { project, registry, config }
  let depth := depthBound setting (← get)
  names.mapM (convertUnit { setting with depth })

/-- A section under the name of its unit. -/
def sectionText (unit text : Text) : Text :=
  if text.isEmpty then "// " ++ unit else "// " ++ unit ++ "\n" ++ text

/-- The texts of the sections that came out. -/
def sectionTexts : List Section → List Text
  | [] => []
  | .converted unit text _ :: rest => sectionText unit text :: sectionTexts rest
  | .missing _ :: rest => sectionTexts rest

/-- The directives that sections need, in ascending order. -/
def usings (sections : List Section) : List Text :=
  sections.foldl (fun all s =>
    match s with
    | .converted _ _ needed => needed.foldl (fun all u => Scope.insertSorted u all) all
    | .missing _ => all) []

/-- The document of several sections. -/
def render (sections : List Section) : Text :=
  let directives : List Text := (usings sections).map fun u => "using " ++ u ++ ";"
  let head := if directives.isEmpty then [] else [Text.unrows directives]
  Text.join "\n\n" (head ++ sectionTexts sections)

end Document

end WireSchema
