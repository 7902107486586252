import WireSchema.Doc.Comment
import WireSchema.Text.Blank
/-!
# Reading documentation blocks

A block stands between `/**` and `*/`. Each of its rows may start with a star,
which is dropped with one space after it. A row whose first code point other
than white space is `@`, with something after it, starts a tag; the rows up to
the next tag belong to it. The rows before the first tag are the description.
-/

namespace WireSchema.DocComment

/-- A row of a block without its star and the white space around it. The
indentation behind the star stays. -/
def blockRow (row : Text) : Text :=
  let row := Text.trim row
  Text.trimEnd <|
    if Text.startsWith row "* " then row.drop 2
    else if Text.startsWith row "*" then row.drop 1
    else row

/-- The rows of a block without its opening and closing marks. -/
def blockRows (block : Text) : List Text :=
  let body := Text.trim block
  let body := if Text.startsWith body "/**" then body.drop 3 else body
  let body := if Text.endsWith body "*/" then body.take (body.length - 2) else body
  (Text.rows body).map blockRow

/-- The name and the first line of the tag that a row starts. -/
def tagRow? (row : Text) : Option (Text × Text) :=
  match Text.trim row with
  | mark :: c :: rest =>
    if mark = '@' then
      let (name, line) := Text.splitFirst ' ' (c :: rest)
      some (Text.trim name, Text.trim line)
    else none
  | _ => none

/-- The rows before the first tag, then each tag with its rows. -/
def groupRows : List Text → List Text × List (Text × List Text)
  | [] => ([], [])
  | row :: rest =>
    let (lines, tags) := groupRows rest
    match tagRow? row with
    | none => (row :: lines, tags)
    | some (name, line) => ([], (name, line :: lines) :: tags)

/-- The rows without blank ones at either end. -/
def dropBlankEnds (rows : List Text) : List Text :=
  ((rows.dropWhile Text.isBlank).reverse.dropWhile Text.isBlank).reverse

/-- The documentation a block holds. -/
def ofBlock (block : Text) : DocComment :=
  let (lines, tags) := groupRows (blockRows block)
  { description := Text.unrows (dropBlankEnds lines)
    tags := tags.map fun (name, rows) => ⟨name, Text.trim (Text.unrows rows)⟩ }

/-- The documentation of several blocks: the descriptions that are not empty
with a blank row between them, and all tags in order. -/
def ofBlocks (blocks : List Text) : DocComment :=
  let docs := blocks.map ofBlock
  { description := Text.join "\n\n" ((docs.map (·.description)).filter (!·.isEmpty))
    tags := docs.flatMap (·.tags) }

end WireSchema.DocComment
