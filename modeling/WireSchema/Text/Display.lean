import WireSchema.Text.Printable
import WireSchema.Text.Quoted
/-!
# Texts shown in messages

A message shows a text in single quotes, or in double quotes when the text has
a single quote and no double one. The quote in use, the backslash and line feed,
carriage return and tab are escaped, other code points that are not printable
are shown by their number.
-/

namespace WireSchema.Text

/-- A code point of a shown text, in the quotes `mark`. -/
def displayCodePoint (mark c : CodePoint) : Text :=
  if c = mark ∨ c = '\\' then [CodePoint.ofChar '\\', c]
  else if c = '\n' then "\\n"
  else if c = '\r' then "\\r"
  else if c = '\t' then "\\t"
  else if c.isPrintable then [c]
  else if c.val < 0x100 then "\\x" ++ hex 2 c.val
  else if c.val < 0x10000 then "\\u" ++ hex 4 c.val
  else "\\U" ++ hex 8 c.val

/-- The quotes a shown text is put into. -/
def displayMark (t : Text) : CodePoint :=
  if t.contains '\'' && !t.contains '"' then '"' else '\''

/-- A text as a message shows it. -/
def display (t : Text) : Text :=
  let mark := displayMark t
  mark :: t.flatMap (displayCodePoint mark) ++ [mark]

end WireSchema.Text
