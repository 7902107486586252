import WireSchema.Event
import WireSchema.Graph.Basic
import WireSchema.Project.Basic
/-!
# The store of resolved types

Nodes and properties are numbered as they are made. The properties of an object
and the type of a property are found when they are first asked for, and kept;
until then the store holds what they are to be found from. The store also keeps
the events, latest first.
-/

namespace WireSchema

/-- Where a type expression stands: the unit, and the type parameters in force. -/
structure Context where
  unit : Nat
  parameters : List Text := []
deriving DecidableEq

/-- The properties of a type, or what they are found from. -/
inductive PropertyList where
  | listed (ids : List PropertyId)
  | ofMembers (context : Context) (members : List (Property TypeExpr))
  | ofInterface (id : DeclarationId)

/-- The type of a property, or what it is found from. -/
inductive Resolution where
  | done (type : TypeId)
  | pending (context : Context) (type : TypeExpr)

/-- How many types the properties are made of that are still to be found. -/
def PropertyList.weight : PropertyList → Nat
  | listed _ => 0
  | ofMembers _ members => TypeExpr.sizeMembers members
  | ofInterface _ => 0

/-- How many types the type is made of if it is still to be found. -/
def Resolution.weight : Resolution → Nat
  | done _ => 0
  | pending _ type => type.size

/-- A node with its properties. -/
structure TypeCell where
  node : TypeNode
  properties : PropertyList := .listed []

/-- The resolved types and properties, the types of the declarations that have
been asked for, and the events. -/
structure Store where
  types : Array TypeCell := #[]
  properties : Array (Property Resolution) := #[]
  declared : List (DeclarationId × TypeId) := []
  events : List Event := []

namespace Store

instance : Inhabited TypeCell := ⟨{ node := default }⟩

/-- The cell of a type. -/
def cell (s : Store) (id : TypeId) : TypeCell := s.types.getD id.index default

/-- The node of a type. -/
def node (s : Store) (id : TypeId) : TypeNode := (s.cell id).node

/-- The property of an identity. -/
def property? (s : Store) (id : PropertyId) : Option (Property Resolution) :=
  s.properties[id.index]?

/-- What is known of the type of a property. -/
def resolution? (s : Store) (id : PropertyId) : Option Resolution := (s.property? id).map (·.type)

/-- The name of a property. -/
def propertyName (s : Store) (id : PropertyId) : Text := ((s.property? id).map (·.name)).getD []

/-- The weights of several things together. -/
def total {α : Type} (weight : α → Nat) (as : List α) : Nat := as.foldr (weight · + ·) 0

theorem total_append {α : Type} (weight : α → Nat) (as bs : List α) :
    total weight (as ++ bs) = total weight as + total weight bs := by
  induction as with
  | nil => exact (Nat.zero_add _).symm
  | cons a as ih =>
    show weight a + total weight (as ++ bs) = weight a + total weight as + total weight bs
    rw [ih, Nat.add_assoc]

/-- How many types there are, those of expressions that are still to be resolved
among them. -/
def weight (s : Store) : Nat :=
  s.types.size + total (·.properties.weight) s.types.toList + total (·.type.weight) s.properties.toList

/-- The type of a declaration, if it has been asked for. -/
def declared? (s : Store) (id : DeclarationId) : Option TypeId := s.declared.lookup id

end Store

/-- A step that looks types up and may resolve some. -/
abbrev Resolving := StateM Store

namespace Resolving

/-- Makes a type. -/
def addCell (cell : TypeCell) : Resolving TypeId := fun s =>
  (⟨s.types.size⟩, { s with types := s.types.push cell })

/-- Makes a type without properties. -/
def addNode (shape : Shape) (text : Text) (symbol : Option Text := none) : Resolving TypeId :=
  addCell { node := { shape, text, symbol } }

/-- Makes a property. -/
def addProperty (property : Property Resolution) : Resolving PropertyId := fun s =>
  (⟨s.properties.size⟩, { s with properties := s.properties.push property })

/-- Keeps the properties of a type. -/
def setProperties (id : TypeId) (ids : List PropertyId) : Resolving Unit :=
  modify fun s =>
    { s with types := s.types.modify id.index fun cell => { cell with properties := .listed ids } }

/-- Keeps the type of a property. -/
def setType (id : PropertyId) (type : TypeId) : Resolving Unit :=
  modify fun s =>
    { s with properties := s.properties.modify id.index fun p => { p with type := .done type } }

/-- Keeps the type of a declaration. -/
def setDeclared (id : DeclarationId) (type : TypeId) : Resolving Unit :=
  modify fun s => { s with declared := (id, type) :: s.declared }

/-- Reports an event. -/
def report (event : Event) : Resolving Unit :=
  modify fun s => { s with events := event :: s.events }

/-- The node of a type. -/
def node (id : TypeId) : Resolving TypeNode := do return (← get).node id

/-- The nodes of several types. -/
def nodes (ids : List TypeId) : Resolving (List TypeNode) := do return ids.map (← get).node

end Resolving

end WireSchema
