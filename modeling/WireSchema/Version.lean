import WireSchema.Text.CodePoint
/-! # The version of the package -/

namespace WireSchema

/-- The version, as the command line prints it. -/
def version : Text := "0.1.0"

end WireSchema
