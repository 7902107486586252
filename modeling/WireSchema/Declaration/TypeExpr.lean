import WireSchema.Doc.Comment
/-!
# Type expressions

A type as it is written. Shapes that are not looked into (functions,
conditional types and the like) are kept as text with the reason. Every
expression has a text, the run of its tokens with one space for each gap;
literals have a canonical one.
-/

namespace WireSchema

/-- A part of a template: text, or something interpolated. -/
inductive Span (α : Type) where
  | chunk (text : Text)
  | hole (inner : α)

/-- A named member of an object shape. -/
structure Property (α : Type) where
  name : Text
  isOptional : Bool
  type : α
  docs : DocComment

/-- Why the inside of a type is not looked into. -/
inductive Unmodelled where
  | function
  | constructor
  | typePredicate
  | conditional
  | infer
  | indexedAccess
  | mapped
  | typeQuery
  | importType
  /-- One of the operators `keyof`, `unique` and `readonly`. -/
  | operator (word : Text)
deriving DecidableEq

/-- The reason in words. -/
def Unmodelled.label : Unmodelled → Text
  | function => "function"
  | constructor => "constructor"
  | typePredicate => "type predicate"
  | conditional => "conditional"
  | infer => "infer"
  | indexedAccess => "indexed access"
  | mapped => "mapped"
  | typeQuery => "typeof"
  | importType => "import"
  | operator word => word

/-- A type as it is written. -/
inductive TypeExpr where
  | keyword (name : Text)
  | literal (text : Text)
  | template (spans : List (Span TypeExpr)) (text : Text)
  | array (element : TypeExpr) (text : Text)
  /-- A tuple; it is variadic if some element is optional or a rest. -/
  | tuple (elements : List TypeExpr) (text : Text) (variadic : Bool)
  | object (members : List (Property TypeExpr)) (text : Text)
  | union (members : List TypeExpr) (text : Text)
  | intersection (members : List TypeExpr) (text : Text)
  | reference (name : Text) (arguments : List TypeExpr) (text : Text)
  | verbatim (text : Text) (reason : Unmodelled)

namespace TypeExpr

/-- The text of the expression. -/
def text : TypeExpr → Text
  | keyword name => name
  | literal text => text
  | template _ text => text
  | array _ text => text
  | tuple _ text _ => text
  | object _ text => text
  | union _ text => text
  | intersection _ text => text
  | reference _ _ text => text
  | verbatim text _ => text

instance : Inhabited TypeExpr := ⟨keyword []⟩

mutual

/-- How many types the expression is made of, itself among them. -/
def size : TypeExpr → Nat
  | keyword _ => 1
  | literal _ => 1
  | template spans _ => sizeSpans spans + 1
  | array element _ => size element + 1
  | tuple elements _ _ => sizeAll elements + 1
  | object members _ => sizeMembers members + 1
  | union members _ => sizeAll members + 1
  | intersection members _ => sizeAll members + 1
  | reference _ arguments _ => sizeAll arguments + 1
  | verbatim _ _ => 1

/-- How many types several expressions are made of. -/
def sizeAll : List TypeExpr → Nat
  | [] => 0
  | e :: rest => size e + sizeAll rest

/-- How many types the types of members are made of. -/
def sizeMembers : List (Property TypeExpr) → Nat
  | [] => 0
  | ⟨_, _, type, _⟩ :: rest => size type + sizeMembers rest

/-- How many types the holes of a template are made of. -/
def sizeSpans : List (Span TypeExpr) → Nat
  | [] => 0
  | .chunk _ :: rest => sizeSpans rest
  | .hole e :: rest => size e + sizeSpans rest

end

theorem size_pos (e : TypeExpr) : 0 < e.size := by
  cases e <;> simp [size]

end TypeExpr

end WireSchema
