import WireSchema.Text.Alphanumeric
import WireSchema.Text.Basic
/-!
# Names in TypeSpec

A plain name stands for itself; any other is put between backquotes, with
backslashes before backquotes and backslashes. The placeholders of generic
models are `T`, or `T1`, `T2` and so on.
-/

namespace WireSchema.TypeSpec

/-- May begin a plain name. -/
def beginsPlain (c : CodePoint) : Bool := c.isLetter || c == '_' || c == '$'

/-- May go on with a plain name. -/
def continuesPlain (c : CodePoint) : Bool := beginsPlain c || c.isBetween '0' '9'

/-- The name needs no backquotes: ASCII letters, digits, `_` and `$`, no digit
first, and perhaps one line feed at the very end. -/
def isPlainName (name : Text) : Bool :=
  match name with
  | [] => false
  | c :: rest =>
    beginsPlain c && (rest.all continuesPlain ||
      (rest.getLast? == some (CodePoint.ofChar '\n') && rest.dropLast.all continuesPlain))

/-- A code point between backquotes. -/
def backquote (c : CodePoint) : Text :=
  if c = '\\' ∨ c = '`' then [CodePoint.ofChar '\\', c] else [c]

/-- The name of a field. -/
def fieldName (name : Text) : Text :=
  if isPlainName name then name else "`" ++ name.flatMap backquote ++ "`"

end WireSchema.TypeSpec
