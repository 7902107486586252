import WireSchema.Text.Blank
/-!
# Indentation

`indent` moves the rows that are not empty to the right. `dedent` takes the
indentation that all rows which are not blank share off each of them, empties
the blank ones and drops empty rows at both ends. Only spaces and tabs count as
indentation, while a row is blank if it holds white space of any kind.
-/

namespace WireSchema.Text

/-- The spaces and tabs a text starts with. -/
def margin (t : Text) : Text := t.takeWhile CodePoint.isIndent

/-- `lead` before a row, unless the row is empty. -/
def leadRow (lead row : Text) : Text := if row.isEmpty then row else lead ++ row

/-- Each row that is not empty after two spaces for each level. -/
def indent (level : Nat) (t : Text) : Text :=
  unrows ((rows t).map (leadRow (times "  " level)))

/-- Each row that is not empty, other than the first, after `lead`. -/
def hang (lead t : Text) : Text :=
  match rows t with
  | [] => []
  | first :: others => unrows (first :: others.map (leadRow lead))

/-- The width of the indentation that the rows which are not blank share. -/
def commonMargin (parts : List Text) : Option Nat :=
  ((parts.filter (!isBlank ·)).map (List.length ∘ margin)).min?

/-- The rows without empty ones at either end. -/
def dropEmptyEnds (parts : List Text) : List Text :=
  ((parts.dropWhile List.isEmpty).reverse.dropWhile List.isEmpty).reverse

/-- The text without the indentation its rows share and without blank rows at
either end. -/
def dedent (t : Text) : Text :=
  match commonMargin (rows t) with
  | none => []
  | some width =>
    unrows (dropEmptyEnds ((rows t).map fun row => if isBlank row then [] else row.drop width))

end WireSchema.Text
