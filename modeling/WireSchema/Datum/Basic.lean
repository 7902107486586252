import WireSchema.Text.Basic
/-!
# Data of configuration files

What a JSON or YAML document holds. Mappings keep the order in which their keys
were first written.
-/

namespace WireSchema

/-- A value of a document. -/
inductive Datum where
  | null
  | bool (b : Bool)
  | int (n : Int)
  | float (x : Float)
  | text (t : Text)
  | list (items : List Datum)
  | mapping (entries : List (Datum × Datum))
  /-- A set, as YAML has them. -/
  | set (items : List Datum)
  /-- Bytes, which YAML writes in base 64. -/
  | bytes (bytes : List UInt8)
  /-- A day of the calendar. -/
  | date
  /-- A moment of time. -/
  | dateTime

namespace Datum

instance : Inhabited Datum := ⟨null⟩

/-- The name of the kind of value, as messages call it. -/
def kind : Datum → Text
  | null => "NoneType"
  | bool _ => "bool"
  | int _ => "int"
  | float _ => "float"
  | text _ => "str"
  | list _ => "list"
  | mapping _ => "dict"
  | set _ => "set"
  | bytes _ => "bytes"
  | date => "date"
  | dateTime => "datetime"

/-- The value is a text, and the text is `t`. -/
def isText (t : Text) : Datum → Bool
  | text u => u == t
  | _ => false

/-- The value is a text. -/
def isWord : Datum → Bool
  | text _ => true
  | _ => false

/-- Sets the value of a text key; a key that is there keeps its place. -/
def put (entries : List (Datum × Datum)) (key : Text) (value : Datum) : List (Datum × Datum) :=
  if entries.any (·.1.isText key) then
    entries.map fun entry => if entry.1.isText key then (entry.1, value) else entry
  else entries ++ [(.text key, value)]

/-- The value of a text key. -/
def get? (entries : List (Datum × Datum)) (key : Text) : Option Datum :=
  (entries.find? (·.1.isText key)).map (·.2)

/-- The value may be a key of a mapping: it is no collection. -/
def isKey : Datum → Bool
  | list _ => false
  | mapping _ => false
  | set _ => false
  | _ => true

/-- Entries in order, where a later value of a text key takes the place of an
earlier one. -/
def distinct (entries : List (Datum × Datum)) : List (Datum × Datum) :=
  entries.foldl (fun kept (key, value) =>
    match key with
    | text t => put kept t value
    | _ => kept ++ [(key, value)]) []

/-- A mapping with text keys. -/
def record (fields : List (Text × Datum)) : Datum :=
  mapping (fields.map fun (key, value) => (text key, value))

end Datum

end WireSchema
