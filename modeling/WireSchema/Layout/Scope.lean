import WireSchema.Text.Basic
/-!
# Scopes

A scope is a namespace of the generated document with the `using` directives it
needs. The directives form a set, kept in ascending order without repetition.
-/

namespace WireSchema

/-- A namespace and the directives it needs. -/
structure Scope where
  path : List Text := []
  usings : List Text := []
deriving DecidableEq

namespace Scope

/-- Puts a text into an ascending list, where it stands at most once. -/
def insertSorted (t : Text) : List Text → List Text
  | [] => [t]
  | u :: rest =>
    if t = u then u :: rest
    else if Text.le t u then t :: u :: rest
    else u :: insertSorted t rest

/-- The namespace's name, with dots. -/
def name (s : Scope) : Text := Text.join "." s.path

/-- Asks for a directive. A namespace needs none for itself, and no text at all
is no namespace. -/
def requireUsing (s : Scope) (target : Text) : Scope :=
  if target.isEmpty || target == s.name then s
  else { s with usings := insertSorted target s.usings }

/-- The scope of a namespace inside this one. The directives are the same. -/
def child (s : Scope) (name : Text) : Scope := { s with path := s.path ++ [name] }

end Scope

end WireSchema
