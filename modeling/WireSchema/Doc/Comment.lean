import WireSchema.Text.Basic
/-!
# Documentation

The documentation of a declaration or a property: free text, then tags in the
order they were written.
-/

namespace WireSchema

/-- A tag of a documentation comment, without its `@`. -/
structure DocTag where
  name : Text
  text : Text
deriving DecidableEq

/-- A documentation comment. -/
structure DocComment where
  description : Text := []
  tags : List DocTag := []
deriving DecidableEq

namespace DocComment

/-- The tags of a name, in order. -/
def tagsNamed (doc : DocComment) (name : Text) : List DocTag :=
  doc.tags.filter (·.name == name)

/-- Some tag has the name. -/
def hasTag (doc : DocComment) (name : Text) : Bool := doc.tags.any (·.name == name)

end DocComment

end WireSchema
