import WireSchema.Datum.Basic
import WireSchema.Text.Numeral
import WireSchema.Text.Quoted
/-!
# Writing JSON

Values are written on lines of their own, two spaces further in for each level.
Strings are ASCII: everything else is escaped, in pairs of halves beyond
U+FFFF, and so is the slash.
-/

namespace WireSchema.Datum.Json

/-- A code point of a string. -/
def escape (c : CodePoint) : Text :=
  if c = '/' then "\\/"
  else if c.val < 0x80 then Text.quoteCodePoint c
  else if c.val < 0x10000 then "\\u" ++ Text.hex 4 c.val
  else
    let n := c.val - 0x10000
    "\\u" ++ Text.hex 4 (0xD800 + n / 0x400) ++ "\\u" ++ Text.hex 4 (0xDC00 + n % 0x400)

/-- A string. -/
def string (t : Text) : Text := "\"" ++ t.flatMap escape ++ "\""

/-- Parts on lines of their own between brackets. -/
def block (opener closer : Text) (level : Nat) (parts : List Text) : Text :=
  if parts.isEmpty then opener ++ closer
  else
    let inner : Text := "\n" ++ Text.times "  " (level + 1)
    opener ++ inner ++ Text.join ("," ++ inner) parts ++ "\n" ++ Text.times "  " level ++ closer

mutual

/-- A value whose first line stands `level` levels in. Kinds that JSON lacks are
written as null. -/
def write (level : Nat) : Datum → Text
  | .bool b => if b then "true" else "false"
  | .int n => Text.ofInt n
  | .text t => string t
  | .list items => block "[" "]" level (writeItems (level + 1) items)
  | .mapping entries => block "\x7b" "\x7d" level (writeEntries (level + 1) entries)
  | _ => "null"

/-- The items of a list. -/
def writeItems (level : Nat) : List Datum → List Text
  | [] => []
  | item :: rest => write level item :: writeItems level rest

/-- The entries of a mapping. -/
def writeEntries (level : Nat) : List (Datum × Datum) → List Text
  | [] => []
  | (key, value) :: rest =>
    (write level key ++ ": " ++ write level value) :: writeEntries level rest

end

/-- A value as a whole text. -/
def render (d : Datum) : Text := write 0 d

end WireSchema.Datum.Json
