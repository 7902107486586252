import WireSchema.Source.Position
import WireSchema.Text.Display
import WireSchema.Text.Escape
/-!
# What can be wrong with a source

A source is rejected at an offset, for a cause. Three more faults do not blame
the TypeScript of a source: an escape whose number cannot be read, a digit that
begins no number, and a window that reaches past the end of the source. The
last fault is that types nest deeper than a reader was told to go.
-/

namespace WireSchema.Source

/-- Why a source is rejected. A `found` text is the token read, empty at the end
of the input. -/
inductive Rejection where
  | unterminatedComment
  | unexpectedCharacter (c : CodePoint)
  | unterminatedString
  | unterminatedHole
  | unterminatedTemplate
  | expected (wanted found : Text)
  | expectedIdentifier (found : Text)
  | unbalancedBrackets
  | extendsUnnamed
  | expectedEnumMember
  | unterminatedObject
  | unexpectedInObject (found : Text)
  | expectedParameters
  | unexpectedInType (found : Text)
  | endOfInputInType
  | trailingInHole
  | trailingAfterType
deriving DecidableEq

namespace Rejection

/-- A found token as a message shows it. -/
def showFound (found : Text) : Text :=
  Text.display (if found.isEmpty then "end of input" else found)

/-- The cause in words. -/
def message : Rejection → Text
  | unterminatedComment => "unterminated comment"
  | unexpectedCharacter c => "unexpected character " ++ Text.display [c]
  | unterminatedString => "unterminated string literal"
  | unterminatedHole => "unterminated template literal hole"
  | unterminatedTemplate => "unterminated template literal"
  | expected wanted found =>
    "expected " ++ Text.display wanted ++ " but found " ++ showFound found
  | expectedIdentifier found => "expected identifier but found " ++ showFound found
  | unbalancedBrackets => "unbalanced brackets"
  | extendsUnnamed => "interfaces can only extend named types"
  | expectedEnumMember => "expected enum member name"
  | unterminatedObject => "unterminated object type"
  | unexpectedInObject found => "unexpected " ++ Text.display found ++ " in object type"
  | expectedParameters => "expected parameter list"
  | unexpectedInType found => "unexpected " ++ Text.display found ++ " in type"
  | endOfInputInType => "unexpected end of input in type"
  | trailingInHole => "unexpected tokens in template literal hole"
  | trailingAfterType => "unexpected tokens after type"

end Rejection

/-- What stops the reading of a source. -/
inductive Fault where
  /-- The source is rejected at an offset. -/
  | rejected (cause : Rejection) (offset : Nat)
  /-- An escape of a string or template literal cannot be read. -/
  | escape (error : EscapeError)
  /-- A digit that is not decimal stands where a number would begin. -/
  | numeral
  /-- The window to read reaches past the end of the source. -/
  | pastEnd
  /-- Types nest deeper than the reader was told to go. -/
  | depth
deriving DecidableEq

/-- A rejected source: the unit, the position and the cause. -/
structure SourceError where
  unit : Text
  position : Position
  cause : Rejection
deriving DecidableEq

namespace SourceError

/-- The rejection of a unit's source at an offset. -/
def at_ (unit source : Text) (cause : Rejection) (offset : Nat) : SourceError :=
  { unit, position := Position.ofOffset source offset, cause }

/-- Unit, line, column and cause, with colons between them. -/
def message (e : SourceError) : Text :=
  e.unit ++ ":" ++ Text.ofNat e.position.line ++ ":" ++ Text.ofNat e.position.column ++ ": " ++
    e.cause.message

end SourceError

end WireSchema.Source
