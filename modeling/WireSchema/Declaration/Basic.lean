import WireSchema.Declaration.TypeExpr
/-!
# Declarations

The statements of a unit that declare a type: interfaces, type aliases and
enumerations. All other statements are skipped.
-/

namespace WireSchema

/-- A type that an interface extends: a name with type arguments. -/
structure Base where
  name : Text
  arguments : List TypeExpr
  text : Text

/-- A member of an enumeration, with its canonical literal text if its value is
a constant. -/
structure EnumMember where
  name : Text
  value : Option Text
deriving DecidableEq

/-- What a declaration declares. -/
inductive DeclarationBody where
  | interface (parameters : List Text) (bases : List Base) (members : List (Property TypeExpr))
  | typeAlias (parameters : List Text) (type : TypeExpr)
  | enumeration (members : List EnumMember)

/-- A declaration of a unit. -/
structure Declaration where
  name : Text
  docs : DocComment
  body : DeclarationBody

namespace Declaration

/-- The names of the type parameters. -/
def parameters (d : Declaration) : List Text :=
  match d.body with
  | .interface parameters _ _ => parameters
  | .typeAlias parameters _ => parameters
  | .enumeration _ => []

/-- The kind of the declaration, as the keyword that introduces it. -/
def keyword (d : Declaration) : Text :=
  match d.body with
  | .interface .. => "interface"
  | .typeAlias .. => "type"
  | .enumeration _ => "enum"

/-- The declaration is a type alias. -/
def isAlias (d : Declaration) : Bool :=
  match d.body with
  | .typeAlias .. => true
  | _ => false

/-- The declaration is an interface. -/
def isInterface (d : Declaration) : Bool :=
  match d.body with
  | .interface .. => true
  | _ => false

end Declaration

end WireSchema
