import WireSchema.Compiler.Diagnostic
import WireSchema.Datum.JsonWriter
/-!
# Running the TypeSpec compiler

A document is checked in a directory of its own, beside a manifest that names
the compiler. A run that fails without saying why counts as one error. A
document is valid if no diagnostic is an error.
-/

namespace WireSchema.Compiler

/-- The manifest beside the document. -/
def manifest : Datum :=
  Datum.record
    [("name", .text "ts-to-typespec-validation"), ("version", .text "0.0.0"),
     ("private", .bool true), ("main", .text "main.tsp"),
     ("dependencies", Datum.record [("@typespec/compiler", .text "*")])]

/-- The command that is run unless another one is given. -/
def defaultCommand : List Text := ["tsp"]

/-- The time a run may take, in seconds, unless another one is given. -/
def defaultTimeout : Nat := 300

/-- The arguments of a run, the command first. -/
def arguments (command : List Text) : List Text :=
  command ++ (["compile", "main.tsp", "--no-emit"] : List Text)

/-- The files of a run with their texts. -/
def files (document : Text) : List (Text × Text) :=
  [("main.tsp", document), ("package.json", Datum.Json.render manifest)]

/-- What a run came to. -/
structure Outcome where
  output : Text := []
  errors : Text := []
  status : Int := 0

/-- Why a run failed that printed no error. -/
def failureMessage (o : Outcome) : Text :=
  match Text.trim (if o.errors.isEmpty then o.output else o.errors) with
  | [] => "exit status " ++ Text.ofInt o.status
  | message => message

/-- The diagnostics of a run. -/
def diagnostics (o : Outcome) : List Diagnostic :=
  let found := Diagnostic.readOutput (o.output ++ "\n" ++ o.errors)
  if o.status ≠ 0 ∧ !found.any (·.isError) then
    found ++ [{ severity := "error", code := "compiler-failure", message := failureMessage o }]
  else found

/-- The diagnostics of a run without errors, or else the texts of the errors. -/
def validate (o : Outcome) : Except (List Text) (List Diagnostic) :=
  match ((diagnostics o).filter (·.isError)).map Diagnostic.format with
  | [] => .ok (diagnostics o)
  | errors => .error errors

/-- That a document is not valid, in words. -/
def rejectionMessage (errors : List Text) : Text :=
  "TypeSpec compilation failed with errors:\n" ++ Text.unrows errors

/-- Declarations and the document made of them, one under the other. -/
def snapshot (declarations document : Text) : Text :=
  "<<<<<<<<<<< typescript <<<<<<<<<<<<\n" ++ Text.trim declarations ++
  "\n===================================\n" ++ Text.trim document ++
  "\n>>>>>>>>>>> typespec >>>>>>>>>>>>>>"

end WireSchema.Compiler
