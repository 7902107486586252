import WireSchema.Declaration.Grammar
import WireSchema.Files.Path
/-!
# Projects

A project is a list of units with different names, in the order they were
added. A name is looked up in the unit where it is used first, then in all
units in order; the first declaration of the name counts.
-/

namespace WireSchema

/-- A source file with its declarations. -/
structure SourceUnit where
  name : Text
  declarations : List Declaration

/-- Which declaration it is: the unit by its place in the project, the
declaration by its place in the unit. -/
structure DeclarationId where
  unit : Nat
  index : Nat
deriving DecidableEq

/-- A list of units. -/
structure Project where
  units : List SourceUnit := []

/-- Why a unit cannot be added. -/
inductive UnitError where
  /-- There is a unit of this name. -/
  | duplicate (name : Text)
  /-- The source is rejected. -/
  | rejected (error : Source.SourceError)
  /-- The source cannot be read for another fault. -/
  | unreadable (fault : Source.Fault)
deriving DecidableEq

namespace UnitError

/-- That a unit is there already, in words. -/
def duplicateMessage (name : Text) : Text :=
  "Source unit " ++ Text.display name ++ " already exists in project"

end UnitError

namespace Project

/-- The declarations of a source under the name of a unit. -/
def readUnit (name source : Text) : Except UnitError SourceUnit :=
  match Declaration.parse source with
  | .ok declarations => .ok { name, declarations }
  | .error (.rejected cause offset) => .error (.rejected (.at_ name source cause offset))
  | .error fault => .error (.unreadable fault)

/-- The project with one more unit. -/
def add (p : Project) (name source : Text) : Except UnitError Project :=
  if p.units.any (·.name == name) then .error (.duplicate name)
  else do
    let unit ← readUnit name source
    return { p with units := p.units ++ [unit] }

/-- The unit at a place. -/
def unit? (p : Project) (place : Nat) : Option SourceUnit := p.units[place]?

/-- The name of the unit at a place. -/
def unitName (p : Project) (place : Nat) : Text := ((p.unit? place).map (·.name)).getD []

/-- The place of a unit: the one with this very name, else the first whose name
is the same path. -/
def findUnit? (p : Project) (name : Text) : Option Nat :=
  match p.units.findIdx? (·.name == name) with
  | some place => some place
  | none => p.units.findIdx? (Path.normalize ·.name == Path.normalize name)

/-- The declaration of an identity. -/
def declaration? (p : Project) (id : DeclarationId) : Option Declaration := do
  (← p.unit? id.unit).declarations[id.index]?

/-- What the declaration of an identity declares. -/
def body? (p : Project) (id : DeclarationId) : Option DeclarationBody :=
  (p.declaration? id).map (·.body)

/-- The first declaration of a name in the unit at a place. -/
def findIn? (p : Project) (place : Nat) (name : Text) : Option DeclarationId := do
  let unit ← p.unit? place
  let index ← unit.declarations.findIdx? (·.name == name)
  return { unit := place, index }

/-- The identities of all declarations, in order. -/
def declarationIds (p : Project) : List DeclarationId :=
  (p.units.zipIdx).flatMap fun (unit, place) =>
    (List.range unit.declarations.length).map fun index => { unit := place, index }

/-- What a name means in the unit at a place. -/
def lookup? (p : Project) (place : Nat) (name : Text) : Option DeclarationId :=
  match p.findIn? place name with
  | some id => some id
  | none => (List.range p.units.length).findSome? (p.findIn? · name)

/-- The identities of the declarations that satisfy `f`. -/
def idsWhere (p : Project) (f : Declaration → Bool) : List DeclarationId :=
  p.declarationIds.filter fun id => ((p.declaration? id).map f).getD false

/-- The type aliases. -/
def aliases (p : Project) : List DeclarationId := p.idsWhere (·.isAlias)

/-- The interfaces. -/
def interfaces (p : Project) : List DeclarationId := p.idsWhere (·.isInterface)

end Project

end WireSchema
