import WireSchema.Config.Basic
import WireSchema.Datum.Basic
import WireSchema.Files.Path
import WireSchema.Text.Numeral
import WireSchema.Text.Utf8
/-!
# Checking configurations

`Config.check` makes a configuration from the entries of a mapping. Entries
that are missing have their defaults. A mapping with problems is refused with
all of them: those of the known fields in their order, then the unknown fields
as they come.

A limit may also be given as a boolean, as a floating-point number without a
fraction or as a numeral, which may have a sign, single underscores between its
digits and a fraction of zeros.
-/

namespace WireSchema

/-- What is wrong with the value of a field. -/
inductive ConfigProblem where
  | notText
  /-- Bytes that are not UTF-8. -/
  | notUtf8
  /-- Nothing a whole number can be made of. -/
  | notInteger
  /-- A text that is no numeral. -/
  | notNumeral
  /-- A floating-point number with a fraction. -/
  | fractional
  /-- An infinite floating-point number, or none at all. -/
  | infinite
  | notPositive
  /-- None of the words to choose from. -/
  | notChoice
  /-- No field of this name. -/
  | unknownField
  /-- A text that the field does not take. -/
  | refused
deriving DecidableEq

/-- A field with a problem. -/
structure FieldProblem where
  field : Text
  problem : ConfigProblem
deriving DecidableEq

namespace Config

/-! ## Whole numbers -/

/-- The number of ASCII digits with single underscores between them. -/
def groupedDigits? (t : Text) : Option Nat :=
  if t.all fun c => c.isBetween '0' '9' || c == '_' then Text.digitsValue? 10 false 0 t else none

/-- The text before a fraction of zeros, if it has one. -/
def dropZeroFraction (t : Text) : Text :=
  let (whole, fraction) := Text.splitFirst '.' t
  if t.contains '.' && fraction.all (· == CodePoint.ofChar '0') then whole else t

/-- A numeral without a sign. Among zeros in front underscores stand freely. -/
def unsignedNumeral? (t : Text) : Option Nat :=
  let isLeading (c : CodePoint) : Bool := c == '0' || c == '_'
  match t with
  | [] => none
  | c :: _ =>
    if c = '0' then
      let leading := t.takeWhile isLeading
      match t.dropWhile isLeading with
      | [] => if leading.getLast? = some (CodePoint.ofChar '0') then some 0 else none
      | d :: rest =>
        if d = '.' then
          if leading.getLast? = some (CodePoint.ofChar '0') then
            groupedDigits? (dropZeroFraction (CodePoint.ofChar '0' :: d :: rest))
          else none
        else groupedDigits? (dropZeroFraction (d :: rest))
    else groupedDigits? (dropZeroFraction t)

/-- The whole number a text spells. -/
def numeral? (t : Text) : Option Int :=
  match Text.trimWhile Text.isNumeralBlank t with
  | [] => none
  | c :: rest =>
    if c = '-' then (groupedDigits? (dropZeroFraction rest)).map fun n => -(n : Int)
    else if c = '+' then (unsignedNumeral? rest).map Int.ofNat
    else (unsignedNumeral? (c :: rest)).map Int.ofNat

/-- The whole number that equals a floating-point number. -/
def wholeFloat (x : Float) : Except ConfigProblem Int :=
  let bits := x.toBits.toNat
  let exponent := bits / Nat.pow 2 52 % Nat.pow 2 11
  let fraction := bits % Nat.pow 2 52
  if exponent = 2047 then .error .infinite
  else
    -- the size is `m * 2 ^ (e - 1075)`
    let m := if exponent = 0 then fraction else fraction + Nat.pow 2 52
    let e := if exponent = 0 then 1 else exponent
    let size := m * Nat.pow 2 (e - 1075)
    let unit := Nat.pow 2 (1075 - e)
    if size % unit = 0 then
      .ok (if bits / Nat.pow 2 63 = 1 then -(size / unit : Nat) else (size / unit : Nat))
    else .error .fractional

/-- The whole number that a value gives. -/
def wholeNumber : Datum → Except ConfigProblem Int
  | .bool b => .ok (if b then 1 else 0)
  | .int n => .ok n
  | .float x => wholeFloat x
  | .text t =>
    match numeral? t with
    | some n => .ok n
    | none => .error .notNumeral
  | .bytes bytes =>
    match (Utf8.decode? bytes).bind numeral? with
    | some n => .ok n
    | none => .error .notNumeral
  | _ => .error .notInteger

/-! ## Fields -/

/-- A text, which may be given as its bytes. -/
def textValue : Datum → Except ConfigProblem Text
  | .text t => .ok t
  | .bytes bytes =>
    match Utf8.decode? bytes with
    | some t => .ok t
    | none => .error .notUtf8
  | _ => .error .notText

/-- A tag's name without the white space around it and the `@` before it, which
may not be empty. -/
def tagValue (d : Datum) : Except ConfigProblem Text := do
  let name := (Text.trim (← textValue d)).dropWhile (· == CodePoint.ofChar '@')
  if name.isEmpty then .error .refused else return name

/-- A number above zero. -/
def limitValue (d : Datum) : Except ConfigProblem Nat := do
  let n ← wholeNumber d
  if n ≤ 0 then .error .notPositive else return n.toNat

/-- The name of a file in the output directory: read as a path, the text is its own
last component. -/
def isFileName (t : Text) : Bool := !t.isEmpty && Path.name t == t

def fileNameValue (d : Datum) : Except ConfigProblem Text := do
  let name ← textValue d
  if isFileName name then return name else .error .refused

/-- The word for a record style. -/
def recordStyleName : RecordStyle → Text
  | .value => "value"
  | .keyValue => "key-value"

def recordStyleValue : Datum → Except ConfigProblem RecordStyle
  | .text t =>
    if t = recordStyleName .value then .ok .value
    else if t = recordStyleName .keyValue then .ok .keyValue
    else .error .notChoice
  | _ => .error .notChoice

/-- The names of the fields, in their order. -/
def fieldNames : List Text :=
  ["export_tag", "decorator_tag", "doc_line_limit", "number_type", "record_style", "output_name"]

/-- The value of a field, its default if it is missing, and its problems. -/
def readField (entries : List (Datum × Datum)) (name : Text) (default : α)
    (read : Datum → Except ConfigProblem α) : α × List FieldProblem :=
  match Datum.get? entries name with
  | none => (default, [])
  | some d =>
    match read d with
    | .ok value => (value, [])
    | .error problem => (default, [⟨name, problem⟩])

/-- The problems of keys that name no field. -/
def unknownFields : List (Datum × Datum) → List FieldProblem
  | [] => []
  | (.text key, _) :: rest =>
    if fieldNames.contains key then unknownFields rest
    else ⟨key, .unknownField⟩ :: unknownFields rest
  | _ :: rest => unknownFields rest

/-- The configuration with the given entries. -/
def check (entries : List (Datum × Datum)) : Except (List FieldProblem) Config :=
  let (exportTag, p₁) := readField entries "export_tag" ({} : Config).exportTag tagValue
  let (decoratorTag, p₂) := readField entries "decorator_tag" ({} : Config).decoratorTag tagValue
  let (docLineLimit, p₃) := readField entries "doc_line_limit" ({} : Config).docLineLimit limitValue
  let (numberType, p₄) := readField entries "number_type" ({} : Config).numberType textValue
  let (recordStyle, p₅) :=
    readField entries "record_style" ({} : Config).recordStyle recordStyleValue
  let (outputName, p₆) := readField entries "output_name" ({} : Config).outputName fileNameValue
  match p₁ ++ p₂ ++ p₃ ++ p₄ ++ p₅ ++ p₆ ++ unknownFields entries with
  | [] => .ok { exportTag, decoratorTag, docLineLimit, numberType, recordStyle, outputName }
  | problems => .error problems

/-- The entries of a configuration, in the order of the fields. -/
def entries (c : Config) : List (Text × Datum) :=
  [("export_tag", .text c.exportTag), ("decorator_tag", .text c.decoratorTag),
   ("doc_line_limit", .int c.docLineLimit), ("number_type", .text c.numberType),
   ("record_style", .text (recordStyleName c.recordStyle)), ("output_name", .text c.outputName)]

/-- The mapping of a configuration. -/
def toDatum (c : Config) : Datum := Datum.record c.entries

end Config

end WireSchema
