import WireSchema.Text.Numeral
/-!
# Positions in a text

Lines and columns count from one, and a line ends at a line feed only.
`Position.ofOffset` finds the position of an offset by counting, `LineTable`
by a binary search in the offsets at which lines start.
-/

namespace WireSchema

/-- A line and a column, both from one. -/
structure Position where
  line : Nat
  column : Nat
deriving DecidableEq, Repr

namespace Position

/-- The position of an offset: one line more than there are line feeds before
it, one column more than there are code points since the last of them. -/
def ofOffset (source : Text) (offset : Nat) : Position :=
  let before := source.take offset
  let sinceBreak := (before.reverse.takeWhile (· ≠ CodePoint.ofChar '\n')).length
  { line := before.count (CodePoint.ofChar '\n') + 1
    column := offset - (before.length - sinceBreak) + 1 }

end Position

/-- The offsets at which lines start. -/
abbrev LineTable := Array Int

/-- Why an offset has no place in a line table. -/
inductive LineTableError where
  /-- The offset is below zero. -/
  | negative (offset : Int)
  /-- The table is empty. -/
  | noLines
deriving DecidableEq

namespace LineTableError

/-- What is wrong, in words. -/
def message : LineTableError → Text
  | .negative offset => "Position must be non-negative, got " ++ Text.ofInt offset
  | .noLines => "No line starts"

end LineTableError

namespace LineTable

/-- The offsets after the line feeds of `source`, which starts at `offset`. -/
def startsFrom (offset : Nat) : Text → List Int
  | [] => []
  | c :: rest =>
    if c = '\n' then (offset + 1 : Int) :: startsFrom (offset + 1) rest
    else startsFrom (offset + 1) rest

/-- The offsets at which the lines of a text start. -/
def ofText (source : Text) : LineTable := (0 :: startsFrom 0 source).toArray

/-- How many entries of the table, between the indices `low` and `high`, lie
before the first one above `offset`; exact if the entries ascend. -/
def search (starts : LineTable) (offset : Int) (low high : Nat) : Nat :=
  if low < high then
    let middle := (low + high) / 2
    if offset < starts.getD middle 0 then search starts offset low middle
    else search starts offset (middle + 1) high
  else low
termination_by high - low

/-- The line and the column of an offset. An offset before the first start is on
line zero and is measured from the last start. -/
def locate (starts : LineTable) (offset : Int) : Except LineTableError (Nat × Int) :=
  if offset < 0 then .error (.negative offset)
  else
    let line := search starts offset 0 starts.size
    match starts[if line = 0 then starts.size - 1 else line - 1]? with
    | some start => .ok (line, offset - start + 1)
    | none => .error .noLines

end LineTable

end WireSchema
