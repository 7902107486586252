import WireSchema.Yaml.Cursor
/-!
# Tokens of YAML

Where a mapping is written without brackets, the tokens `blockMapping`, `key`
and `blockEnd` stand for what the columns say.
-/

namespace WireSchema.Yaml

/-- A token. -/
inductive Token where
  /-- A directive with the main version of YAML. -/
  | version (major : Nat)
  /-- A directive that gives a tag handle a meaning. -/
  | handle (handle meaning : Text)
  | otherDirective
  | documentStart
  | documentEnd
  | blockSequence
  | blockMapping
  | blockEnd
  | listOpen
  | listClose
  | mappingOpen
  | mappingClose
  /-- The dash before an item. -/
  | item
  | comma
  | key
  | value
  | reference (name : Text)
  | anchor (name : Text)
  /-- A tag; one without a handle is written out. -/
  | tag (handle : Option Text) (suffix : Text)
  | scalar (text : Text) (isPlain : Bool)
  /-- The text cannot be read any further. -/
  | fault (fault : Fault)
deriving DecidableEq

end WireSchema.Yaml
