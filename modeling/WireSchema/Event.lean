import WireSchema.Text.Display
import WireSchema.Text.Numeral
/-!
# Events

What a conversion reports while it works, in the order it happens.
-/

namespace WireSchema

/-- Why a type is written as it stands in the source. -/
inductive VerbatimReason where
  | recursive
  | unsupported
  | unnamed
deriving DecidableEq

/-- The reason in words. -/
def VerbatimReason.label : VerbatimReason → Text
  | recursive => "recursive type"
  | unsupported => "unsupported shape"
  | unnamed => "generic without symbol"

/-- The part of the library that reports. -/
inductive Reporter where
  | project
  | registry
  | converter
  | document
deriving DecidableEq

/-- How much an event matters. -/
inductive Severity where
  | detail
  | warning
deriving DecidableEq

/-- Something worth reporting. -/
inductive Event where
  | circularAlias (name unit : Text)
  | unresolvedBase (name unit : Text)
  | unresolvedReference (name unit : Text)
  | variadicTuple (text : Text)
  | verbatim (kind : Text) (reason : VerbatimReason) (text : Text)
  | droppedMember (kind whole member : Text)
  | registered (count : Nat)
  | converted (count : Nat) (unit : Text)
  | skipped (unit : Text)
deriving DecidableEq

namespace Event

/-- Who reports the event. -/
def reporter : Event → Reporter
  | circularAlias .. | unresolvedBase .. | unresolvedReference .. | variadicTuple _ => .project
  | verbatim .. | droppedMember .. => .converter
  | registered _ => .registry
  | converted .. | skipped _ => .document

/-- Only a unit that is left out is worth a warning. -/
def severity : Event → Severity
  | skipped _ => .warning
  | _ => .detail

/-- That a unit is not part of the project, in words. -/
def unitNotFound (unit : Text) : Text :=
  "Source unit " ++ Text.display unit ++ " not found in project"

/-- The event in words. -/
def message : Event → Text
  | circularAlias name unit => "Circular type alias " ++ name ++ " in " ++ unit
  | unresolvedBase name unit => "Unresolved base type " ++ name ++ " in " ++ unit
  | unresolvedReference name unit => "Unresolved type reference " ++ name ++ " in " ++ unit
  | variadicTuple text => "Tuple with optional or rest elements kept opaque: " ++ text
  | verbatim kind reason text =>
    "Rendering " ++ kind ++ " type verbatim (" ++ reason.label ++ "): " ++ text
  | droppedMember kind whole member =>
    "Dropping " ++ kind ++ " member without properties from intersection " ++ whole ++ ": " ++
      member
  | registered count => "Registered " ++ Text.ofNat count ++ " exported models"
  | converted count unit => "Converted " ++ Text.ofNat count ++ " models from " ++ unit
  | skipped unit => unitNotFound unit ++ "; skipping"

end Event

end WireSchema
