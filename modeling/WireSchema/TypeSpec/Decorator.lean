import WireSchema.Config.Basic
import WireSchema.Doc.Comment
import WireSchema.Layout.Basic
import WireSchema.Text.Quoted
/-!
# Decorators

Documentation becomes decorators: the description an `@doc`, and each tag made
for it a decorator of its own.
-/

namespace WireSchema.TypeSpec

/-- Three quotes, which open and close a literal of several rows. -/
def tripleQuote : Text := "\"\"\""

/-- The inside of a literal of several rows: the text without its indentation,
with backslashes before backslashes, before three quotes and before the start
of an interpolation. -/
def blockInside (t : Text) : Text :=
  Text.guardInterpolation <|
    Text.replace tripleQuote ("\\" ++ tripleQuote) <|
      Text.replace "\\" "\\\\" (Text.dedent t)

/-- A description as a literal: on one line if it has no line feed and the
literal keeps to the limit, otherwise over several rows. -/
def docValue (config : Config) (description : Text) : Text :=
  let literal := Text.literal description
  if !description.contains '\n' && literal.length ≤ config.docLineLimit then literal
  else tripleQuote ++ "\n" ++ blockInside description ++ "\n" ++ tripleQuote

/-- The decorators of a documentation comment: its description, unless it is
blank, then the tags for decorators that have a text. -/
def decorators (config : Config) (doc : DocComment) : List Layout :=
  let description : List Layout :=
    if Text.isBlank doc.description then []
    else [.template "@doc(" [(.text (docValue config doc.description), ")")]]
  let tags := (doc.tagsNamed config.decoratorTag).filter (!·.text.isEmpty)
  description ++ tags.map fun tag => Layout.concat [.text "@", .text tag.text]

end WireSchema.TypeSpec
