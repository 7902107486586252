import WireSchema.Text.Basic
/-!
# White space

Unicode white space, with the separators U+001C to U+001F, and the line breaks
among it. U+FEFF and U+200B are not white space.
-/

namespace WireSchema

/-- White space of any kind. -/
def CodePoint.isBlank (c : CodePoint) : Bool :=
  (0x09 ≤ c.val && c.val ≤ 0x0D) || (0x1C ≤ c.val && c.val ≤ 0x20) || c.val == 0x85 ||
  c.val == 0xA0 || c.val == 0x1680 || (0x2000 ≤ c.val && c.val ≤ 0x200A) ||
  c.val == 0x2028 || c.val == 0x2029 || c.val == 0x202F || c.val == 0x205F || c.val == 0x3000

/-- A space or a tab, which indent a line. -/
def CodePoint.isIndent (c : CodePoint) : Bool := c == ' ' || c == '\t'

/-- A code point that ends a line of a program's printed output. A carriage
return followed by a line feed is one line break. -/
def CodePoint.isLineBreak (c : CodePoint) : Bool :=
  (0x0A ≤ c.val && c.val ≤ 0x0D) || (0x1C ≤ c.val && c.val ≤ 0x1E) || c.val == 0x85 ||
  c.val == 0x2028 || c.val == 0x2029

namespace Text

/-- The text without white space at either end. -/
def trim (t : Text) : Text := trimWhile CodePoint.isBlank t

/-- The text without white space at its end. -/
def trimEnd (t : Text) : Text := dropEndWhile CodePoint.isBlank t

/-- Nothing but white space. -/
def isBlank (t : Text) : Bool := t.all CodePoint.isBlank

/-- The runs of code points that are not white space. -/
def words (t : Text) : List Text :=
  go [] t
where
  /-- `word` is what was read of the present word, last code point first. -/
  go (word : Text) : Text → List Text
    | [] => if word.isEmpty then [] else [word.reverse]
    | c :: rest =>
      if c.isBlank then
        if word.isEmpty then go [] rest else word.reverse :: go [] rest
      else
        go (c :: word) rest

/-- The lines of a program's printed output, without their line breaks. A line
break at the very end starts no line. -/
def outputLines (t : Text) : List Text :=
  go [] t
where
  /-- `line` is what was read of the present line, last code point first. -/
  go (line : Text) : Text → List Text
    | [] => if line.isEmpty then [] else [line.reverse]
    | [c] => if c.isLineBreak then [line.reverse] else [(c :: line).reverse]
    | c :: d :: rest =>
      if c = '\r' ∧ d = '\n' then line.reverse :: go [] rest
      else if c.isLineBreak then line.reverse :: go [] (d :: rest)
      else go (c :: line) (d :: rest)

end Text

end WireSchema
