import WireSchema.Yaml.Cursor
/-!
# Plain scalars

A plain scalar has no quotes. It ends at a colon before a gap, at a comment, at
a line that is indented less and, inside brackets, at a bracket, a comma or a
question mark. Its line breaks are folded.
-/

namespace WireSchema.Yaml.Plain

/-- The signs of lists and mappings in brackets. -/
def bracketSigns : Text := ",[]\x7b\x7d"

/-- A plain scalar may begin here. -/
def canStart (inBrackets : Bool) (c : Cursor) : Bool :=
  match c.rest with
  | [] => false
  | x :: rest =>
    if isOneOf "-?:" x then
      !isGap rest.head? && (x == '-' || !inBrackets)
    else !isGap (some x) && !isOneOf ",[]\x7b\x7d#&*!|>'\"%@\x60" x

/-- The longest start of a text that belongs to one row of a plain scalar
without white space. -/
def word (inBrackets : Bool) : Text → Text
  | [] => []
  | x :: rest =>
    let endsHere :=
      isGap (some x) ||
      (x == ':' && (isGap rest.head? || (inBrackets && rest.head?.any (isOneOf bracketSigns)))) ||
      (inBrackets && (x == '?' || isOneOf bracketSigns x))
    if endsHere then [] else x :: word inBrackets rest

/-- The line breaks from here on with the spaces between them; none if a
document mark ends the scalar. -/
def breaks : Nat → Cursor → Option Text × Cursor
  | 0, c => (none, c)
  | fuel + 1, c =>
    if c.seesDocumentMark then (none, c)
    else
      let c := c.skipSpaces
      match c.lineBreak? with
      | none => (some [], c)
      | some (b, c) =>
        let (others, c) := breaks fuel c
        (others.map (b :: ·), c)

/-- White space inside a plain scalar. -/
structure Gap where
  /-- What it stands for; nothing if the scalar ends there. -/
  text : Text
  hasBreak : Bool
  cursor : Cursor

/-- The white space that begins here. -/
def gap (c : Cursor) : Gap :=
  let (spaces, c) := c.span (· == CodePoint.ofChar ' ')
  match c.lineBreak? with
  | none => { text := spaces, hasBreak := false, cursor := c }
  | some (b, c) =>
    let (others, c) := breaks (c.rest.length + 1) c
    { text := (others.map (foldBreaks b)).getD [], hasBreak := true, cursor := c }

/-- The text of the scalar from a word on, and the gap behind it. `least` is the
column from which on its further rows may start. -/
def words (inBrackets : Bool) (least : Nat) : Nat → Gap → Text × Gap
  | 0, before => ([], before)
  | fuel + 1, before =>
    match word inBrackets before.cursor.rest with
    | [] => ([], before)
    | x :: rest =>
      let after := gap (before.cursor.skip (rest.length + 1))
      let text := before.text ++ x :: rest
      if after.text.isEmpty || after.cursor.sees "#" ||
          (!inBrackets && after.cursor.column < least) then (text, after)
      else
        let (more, last) := words inBrackets least fuel after
        (text ++ more, last)

/-- The text of the plain scalar that begins here, whether white space with a
line break follows it, and the cursor behind that. -/
def scan (inBrackets : Bool) (least : Nat) (c : Cursor) : Text × Bool × Cursor :=
  let (text, last) :=
    words inBrackets least (c.rest.length + 1) { text := [], hasBreak := false, cursor := c }
  (text, last.hasBreak, last.cursor)

end WireSchema.Yaml.Plain
