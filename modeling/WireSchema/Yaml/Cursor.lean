import WireSchema.Text.Basic
/-!
# A cursor over a YAML text

YAML 1.1 looks at columns, so a cursor counts them. A line ends at a line feed,
at U+0085, U+2028 or U+2029; carriage returns are gone when a file has been
read. A byte order mark takes no column.
-/

namespace WireSchema.Yaml

/-- Why a text gives no datum. -/
inductive Fault where
  /-- The text breaks a rule of YAML, or a scalar a rule of its tag. -/
  | malformed
  /-- The number of an escape is beyond thirty-two bits. -/
  | overflow
  /-- A tagged number has no digits. -/
  | noDigits
  /-- A tagged boolean is none of the words for one. -/
  | noBoolean
  /-- A tagged moment is not written as one. -/
  | noMoment
deriving DecidableEq

/-! ## Code points -/

/-- The code point is one of those in `set`. -/
def isOneOf (set : Text) (c : CodePoint) : Bool := set.contains c

/-- A space or a tab. -/
def isBlank (c : CodePoint) : Bool := c == ' ' || c == '\t'

/-- A code point that ends a line. -/
def isBreak (c : CodePoint) : Bool :=
  c == '\n' || c.val == 0x85 || c.val == 0x2028 || c.val == 0x2029

def isNotBreak (c : CodePoint) : Bool := !isBreak c

/-- A space, a tab, a line's end or the end of the text. -/
def isGap : Option CodePoint → Bool
  | none => true
  | some c => isBlank c || isBreak c

/-- A space, a line's end or the end of the text. -/
def isGapWithoutTab : Option CodePoint → Bool
  | none => true
  | some c => c == ' ' || isBreak c

/-- An ASCII letter or digit, `-` or `_`. -/
def isNameCharacter (c : CodePoint) : Bool :=
  c.isBetween '0' '9' || c.isBetween 'A' 'Z' || c.isBetween 'a' 'z' || c == '-' || c == '_'

/-- A digit of base sixteen. -/
def isHexDigit (c : CodePoint) : Bool :=
  c.isBetween '0' '9' || c.isBetween 'A' 'F' || c.isBetween 'a' 'f'

/-- A code point that a YAML text may hold. -/
def isAllowed (c : CodePoint) : Bool :=
  c == '\t' || c == '\n' || c == '\r' || (0x20 ≤ c.val && c.val ≤ 0x7E) || c.val == 0x85 ||
  (0xA0 ≤ c.val && c.val ≤ 0xD7FF) || (0xE000 ≤ c.val && c.val ≤ 0xFFFD) || 0x10000 ≤ c.val

/-! ## Cursors -/

/-- What is left of a text, and where that stands. Lines and columns count from zero. -/
structure Cursor where
  rest : Text
  index : Nat := 0
  line : Nat := 0
  column : Nat := 0

namespace Cursor

/-- The code point `ahead` places on. -/
def peek (c : Cursor) (ahead : Nat := 0) : Option CodePoint := c.rest[ahead]?

/-- The present code point is one of those in `set`. -/
def sees (c : Cursor) (set : Text) : Bool := c.peek.any (isOneOf set)

/-- The cursor one code point on. -/
def next (c : Cursor) : Cursor :=
  match c.rest with
  | [] => c
  | x :: rest =>
    if isBreak x then { rest, index := c.index + 1, line := c.line + 1, column := 0 }
    else if x.val = 0xFEFF then { c with rest, index := c.index + 1 }
    else { c with rest, index := c.index + 1, column := c.column + 1 }

/-- The cursor `n` code points on. -/
def skip (c : Cursor) : Nat → Cursor
  | 0 => c
  | n + 1 => c.next.skip n

/-- The longest run of code points that satisfy `p`, and the cursor behind it. -/
def span (p : CodePoint → Bool) (c : Cursor) : Text × Cursor :=
  let run := c.rest.takeWhile p
  (run, c.skip run.length)

/-- The cursor behind the longest run of code points that satisfy `p`. -/
def skipWhile (p : CodePoint → Bool) (c : Cursor) : Cursor := (c.span p).2

def skipSpaces (c : Cursor) : Cursor := c.skipWhile (· == CodePoint.ofChar ' ')

/-- The line break that stands here, and the cursor behind it. All but U+2028
and U+2029 count as line feeds. -/
def lineBreak? (c : Cursor) : Option (CodePoint × Cursor) :=
  match c.rest with
  | [] => none
  | x :: _ =>
    if x == '\n' || x.val == 0x85 then some ('\n', c.next)
    else if isBreak x then some (x, c.next)
    else none

/-- The mark of a document's start or end stands here. -/
def seesDocumentMark (c : Cursor) : Bool :=
  (Text.startsWith c.rest "---" || Text.startsWith c.rest "...") && isGap (c.peek 3)

/-- The cursor behind spaces, a comment and a line's end, which nothing else may
come before. -/
def skipLineEnd (c : Cursor) : Except Fault Cursor :=
  let c := c.skipSpaces
  let c := if c.sees "#" then c.skipWhile isNotBreak else c
  match c.lineBreak? with
  | some (_, c) => .ok c
  | none => if c.rest.isEmpty then .ok c else .error .malformed

end Cursor

/-- What line breaks between two rows of a scalar stand for: one line feed for a
space, any line feed followed by others for those others. -/
def foldBreaks (first : CodePoint) (others : Text) : Text :=
  if first != '\n' then first :: others else if others.isEmpty then " " else others

end WireSchema.Yaml
