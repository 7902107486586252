import WireSchema.Declaration.TypeExpr
/-!
# Resolved types

Resolved types are the nodes of a graph and refer to each other by identity:
two types are the same only if they are the same node, however alike they are.
-/

namespace WireSchema

/-- The identity of a resolved type. -/
structure TypeId where
  index : Nat
deriving DecidableEq

/-- The identity of a resolved property. -/
structure PropertyId where
  index : Nat
deriving DecidableEq

/-- What kind of type a node is, with the types it is made of. -/
inductive Shape where
  | string
  | number
  | boolean
  | template (spans : List (Span TypeId))
  | array (element : Option TypeId)
  | tuple (elements : List TypeId)
  /-- A generic type with arguments. -/
  | instantiation (arguments : List TypeId)
  /-- A type that is given by its properties alone. -/
  | object
  | union (members : List TypeId)
  | intersection (members : List TypeId)
  /-- A type that is written as it stands. -/
  | other

/-- The kind in words. -/
def Shape.label : Shape → Text
  | string => "string"
  | number => "number"
  | boolean => "boolean"
  | template _ => "template-literal"
  | array _ => "array"
  | tuple _ => "tuple"
  | instantiation _ => "generic-instantiation"
  | object => "object"
  | union _ => "union"
  | intersection _ => "intersection"
  | other => "other"

/-- A resolved type: its kind, its text in the source, and the name it has been
declared or referred to by. -/
structure TypeNode where
  shape : Shape
  text : Text
  symbol : Option Text := none

namespace TypeNode

instance : Inhabited TypeNode := ⟨{ shape := .other, text := [] }⟩

/-- The node is a union. -/
def isUnion (n : TypeNode) : Bool :=
  match n.shape with
  | .union _ => true
  | _ => false

end TypeNode

end WireSchema
