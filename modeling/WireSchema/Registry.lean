import WireSchema.Config.Basic
import WireSchema.Project.Resolve
/-!
# The registry of models

A declaration is exported if its documentation has the export tag. The first
word of the tag's text, or else the declaration's name, is the name it is
displayed by. The registry lists the exported declarations as models, in order;
the model of a type is the first one whose type is that very type.
-/

namespace WireSchema

/-- An exported declaration. -/
structure Model where
  displayName : Text
  type : TypeId
  /-- How many type parameters it has. -/
  parameterCount : Nat
  docs : DocComment
  origin : DeclarationId

/-- The models of a project. -/
structure Registry where
  models : List Model := []

namespace Registry

/-- The name an exported declaration is displayed by. -/
def exportName? (config : Config) (d : Declaration) : Option Text :=
  match d.docs.tagsNamed config.exportTag with
  | [] => none
  | tag :: _ => some ((Text.words tag.text).headD d.name)

/-- The model of an exported declaration. -/
def modelOf? (p : Project) (config : Config) (id : DeclarationId) : Resolving (Option Model) := do
  match p.declaration? id with
  | none => return none
  | some d =>
    match exportName? config d with
    | none => return none
    | some displayName =>
      let type ← p.declarationType id
      return some
        { displayName, type, parameterCount := d.parameters.length, docs := d.docs, origin := id }

/-- The registry of a project. -/
def build (p : Project) (config : Config) : Resolving Registry := do
  let models := (← p.declarationIds.mapM (modelOf? p config)).filterMap id
  Resolving.report (.registered models.length)
  return { models }

/-- The model of a type. -/
def find? (r : Registry) (type : TypeId) : Option Model := r.models.find? (·.type == type)

/-- The models that were declared in the unit at a place. -/
def modelsIn (r : Registry) (place : Nat) : List Model :=
  r.models.filter (·.origin.unit == place)

end Registry

end WireSchema
