import WireSchema.Source.Position
import WireSchema.Text.Alphanumeric
import WireSchema.Text.Blank
/-!
# Diagnostics of the TypeSpec compiler

The compiler prints one diagnostic to a row, with or without the place it is
about: `file:line:column - severity code: message` or `severity code: message`.
A file's name ends at the first colon after which the row goes on in this form.
-/

namespace WireSchema

/-- Where in a file something is. -/
structure Diagnostic.Place where
  file : Text
  line : Nat
  column : Int
deriving DecidableEq

/-- A diagnostic. -/
structure Diagnostic where
  severity : Text
  code : Text
  message : Text
  place : Option Diagnostic.Place := none
deriving DecidableEq

namespace Diagnostic

/-- The diagnostic is an error. -/
def isError (d : Diagnostic) : Bool := d.severity == "error"

/-- The message, and the place behind it if there is one. -/
def format (d : Diagnostic) : Text :=
  match d.place with
  | none => d.message
  | some p =>
    d.message ++ " @ " ++ p.file ++ ":" ++ Text.ofNat p.line ++ ":" ++ Text.ofInt p.column

/-- The diagnostic of an offset of a text. -/
def ofOffset (source : Text) (offset : Int) (message file code severity : Text) :
    Except LineTableError Diagnostic := do
  let (line, column) ← (LineTable.ofText source).locate offset
  return { severity, code, message, place := some { file, line, column } }

/-- What comes after the given start of a text. -/
def after? (start t : Text) : Option Text :=
  if Text.startsWith t start then some (t.drop start.length) else none

/-- The number at the start of a text and what comes after it. -/
def leadingNumber? (t : Text) : Option (Nat × Text) := do
  let n ← Text.decimalValue? (t.takeWhile CodePoint.isDecimal)
  return (n, t.dropWhile CodePoint.isDecimal)

/-- May be part of a diagnostic's code. -/
def isCodePart (c : CodePoint) : Bool :=
  c.isWord || c == '/' || c == '@' || c == '.' || c == '-'

/-- Severity, code and message. -/
def readBody? (t : Text) : Option Diagnostic := do
  let (severity, rest) ←
    match after? "error " t with
    | some rest => some (("error" : Text), rest)
    | none => (after? "warning " t).map fun rest => (("warning" : Text), rest)
  let code := rest.takeWhile isCodePart
  guard (!code.isEmpty)
  let message ← after? ": " (rest.dropWhile isCodePart)
  return { severity, code, message }

/-- What comes after the file's name: line, column and body. -/
def readPlaced? (file t : Text) : Option Diagnostic := do
  let (line, rest) ← leadingNumber? (← after? ":" t)
  let (column, rest) ← leadingNumber? (← after? ":" rest)
  let d ← readBody? (← after? " - " rest)
  return { d with place := some { file, line, column } }

/-- A diagnostic whose file's name goes on with `t`; `file` is what was read of
it, last code point first. -/
def readLocated? (file : Text) : Text → Option Diagnostic
  | [] => none
  | c :: rest =>
    match (if file.isEmpty then none else readPlaced? file.reverse (c :: rest)) with
    | some d => some d
    | none => readLocated? (c :: file) rest

/-- The diagnostic of a row. -/
def readRow? (row : Text) : Option Diagnostic :=
  let row := Text.trim row
  match readLocated? [] row with
  | some d => some d
  | none => readBody? row

/-- The diagnostics in the output of the compiler. -/
def readOutput (output : Text) : List Diagnostic := (Text.outputLines output).filterMap readRow?

end Diagnostic

end WireSchema
