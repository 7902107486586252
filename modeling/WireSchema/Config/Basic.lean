import WireSchema.Text.CodePoint
/-!
# Configuration

The conventions for tags and the choices for the output.
-/

namespace WireSchema

/-- Whether a record type is written with its value type only or with its key
type before it. -/
inductive RecordStyle where
  | value
  | keyValue
deriving DecidableEq

/-- The choices a conversion depends on. -/
structure Config where
  /-- The tag of a declaration that is to be converted. -/
  exportTag : Text := "model"
  /-- The tag whose text is a decorator. -/
  decoratorTag : Text := "decorator"
  /-- The length up to which documentation is written as a literal on one line. -/
  docLineLimit : Nat := 80
  /-- What numbers are written as. -/
  numberType : Text := "float64"
  recordStyle : RecordStyle := .value
  /-- The name of the generated file. -/
  outputName : Text := "main.tsp"
deriving DecidableEq

end WireSchema
