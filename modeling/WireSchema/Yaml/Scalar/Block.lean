import WireSchema.Yaml.Cursor
/-!
# Block scalars

A block scalar is a run of rows that are indented alike. `|` keeps its line
breaks and `>` folds those between two rows that begin with no white space. A
sign keeps or strips the line breaks at the end, and a digit says how far the
rows are indented, which the first row says otherwise.
-/

namespace WireSchema.Yaml.Block

/-- What is done with the line breaks at the end. -/
inductive Ending where
  | strip
  | clip
  | keep
deriving DecidableEq

/-- The signs after `|` or `>`. -/
structure Header where
  ending : Ending := .clip
  /-- How much further than the collection around it the scalar is indented. -/
  increment : Option Nat := none

/-- The ending a sign stands for. -/
def ending? (c : CodePoint) : Option Ending :=
  if c = '+' then some .keep else if c = '-' then some .strip else none

/-- The increment a digit stands for; zero is refused. -/
def increment? (c : CodePoint) : Option (Except Fault Nat) :=
  if c = '0' then some (.error .malformed)
  else if c.isBetween '1' '9' then some (.ok (c.val - '0'.toNat))
  else none

/-- The header of a scalar whose style sign has been passed. The sign and the
digit come in either order. -/
def header (c : Cursor) : Except Fault (Header × Cursor) := do
  let (h, c) ←
    match c.peek.bind ending? with
    | some ending =>
      match c.next.peek.bind increment? with
      | some n => do pure (({ ending, increment := some (← n) } : Header), c.skip 2)
      | none => .ok ({ ending }, c.next)
    | none =>
      match c.peek.bind increment? with
      | none => .ok ({}, c)
      | some n => do
        match c.next.peek.bind ending? with
        | some ending => pure ({ ending, increment := some (← n) }, c.skip 2)
        | none => pure ({ increment := some (← n) }, c.next)
  if isGapWithoutTab c.peek then return (h, ← c.skipLineEnd) else .error .malformed

/-- The cursor behind spaces, not further than the column `indent`. -/
def skipIndent (indent : Nat) (c : Cursor) : Cursor :=
  c.skip (min (indent - c.column) (c.rest.takeWhile (· == CodePoint.ofChar ' ')).length)

/-- The line breaks of empty rows and the cursor at the next row's text. -/
def emptyRows (indent : Nat) : Nat → Cursor → Text × Cursor
  | 0, c => ([], c)
  | fuel + 1, c =>
    let c := skipIndent indent c
    match c.lineBreak? with
    | none => ([], c)
    | some (b, c) =>
      let (others, c) := emptyRows indent fuel c
      (b :: others, c)

/-- The line breaks of rows of spaces, the furthest column these rows and the
next one reach with spaces, and the cursor behind them. -/
def leadingRows : Nat → Cursor → Text × Nat × Cursor
  | 0, c => ([], 0, c)
  | fuel + 1, c =>
    let c := c.skipSpaces
    match c.lineBreak? with
    | none => ([], c.column, c)
    | some (b, after) =>
      let (others, furthest, last) := leadingRows fuel after
      (b :: others, max c.column furthest, last)

/-- Rows that have been read. -/
structure Rows where
  text : Text := []
  /-- The line break after the last row. -/
  lastBreak : Text := []
  /-- The line breaks of the empty rows after that. -/
  emptyRows : Text := []
  cursor : Cursor

/-- The rows from here on. -/
def rows (isFolded : Bool) (indent : Nat) : Nat → Cursor → Rows
  | 0, c => { cursor := c }
  | fuel + 1, c =>
    let startsBlank := c.peek.any isBlank
    let (row, c) := c.span isNotBreak
    let (lastBreak, c) : Text × Cursor :=
      match c.lineBreak? with
      | some (b, c) => ([b], c)
      | none => ([], c)
    let (emptyRows, c) := emptyRows indent (c.rest.length + 1) c
    if c.column = indent ∧ !c.rest.isEmpty then
      let isJoined := isFolded && lastBreak == "\n" && !startsBlank && !c.peek.any isBlank
      let joint : Text :=
        if !isJoined then lastBreak else if emptyRows.isEmpty then " " else []
      let others := rows isFolded indent fuel c
      { others with text := row ++ joint ++ emptyRows ++ others.text }
    else { text := row, lastBreak, emptyRows, cursor := c }

/-- The text of the block scalar that begins here. `least` is the column from
which on its rows may start. -/
def scan (least : Nat) (c : Cursor) : Except Fault (Text × Cursor) := do
  let isFolded := c.sees ">"
  let (h, c) ← header c.next
  let least := max 1 least
  let fuel := c.rest.length + 1
  let (leading, indent, c) :=
    match h.increment with
    | some n =>
      let indent := least + n - 1
      let (breaks, c) := emptyRows indent fuel c
      (breaks, indent, c)
    | none =>
      let (breaks, furthest, c) := leadingRows fuel c
      (breaks, max least furthest, c)
  let found : Rows :=
    if c.column = indent ∧ !c.rest.isEmpty then
      let found := rows isFolded indent fuel c
      { found with text := leading ++ found.text }
    else { emptyRows := leading, cursor := c }
  let tail :=
    match h.ending with
    | .strip => []
    | .clip => found.lastBreak
    | .keep => found.lastBreak ++ found.emptyRows
  return (found.text ++ tail, found.cursor)

end WireSchema.Yaml.Block
