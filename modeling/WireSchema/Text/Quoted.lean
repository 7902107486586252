import WireSchema.Text.Basic
/-!
# Double-quoted literals

`quote` writes a text between double quotes with the escapes of JSON, leaving
everything from the space upwards as it is but for the quote and the backslash.
`literal` is the same for TypeSpec, whose strings interpolate: each
`${` gets a backslash.
-/

namespace WireSchema.Text

/-- The digit of base sixteen with the value `n`, in lower case. -/
def hexDigit (n : Nat) : Char := Nat.digitChar (n % 16)

/-- `n` in base sixteen with exactly `width` digits, in lower case. -/
def hex (width n : Nat) : Text :=
  ((List.range width).map fun i => CodePoint.ofChar (hexDigit (n / Nat.pow 16 i))).reverse

/-- A code point inside a double-quoted literal. -/
def quoteCodePoint (c : CodePoint) : Text :=
  if c = '"' then "\\\""
  else if c = '\\' then "\\\\"
  else if c.val = 0x08 then "\\b"
  else if c.val = 0x0C then "\\f"
  else if c = '\n' then "\\n"
  else if c = '\r' then "\\r"
  else if c = '\t' then "\\t"
  else if c.val < 0x20 then "\\u" ++ hex 4 c.val
  else [c]

/-- The inside of a double-quoted literal. -/
def quoteInside (t : Text) : Text := t.flatMap quoteCodePoint

/-- A double-quoted literal. -/
def quote (t : Text) : Text := "\"" ++ quoteInside t ++ "\""

/-- The start of an interpolation. -/
def interpolation : Text := "$\x7b"

/-- Each start of an interpolation after a backslash. -/
def guardInterpolation (t : Text) : Text := replace interpolation ("\\" ++ interpolation) t

/-- The inside of a TypeSpec string literal. -/
def literalInside (t : Text) : Text := guardInterpolation (quoteInside t)

/-- A TypeSpec string literal. -/
def literal (t : Text) : Text := "\"" ++ literalInside t ++ "\""

end WireSchema.Text
