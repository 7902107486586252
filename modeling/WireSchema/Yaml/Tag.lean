import WireSchema.Yaml.Cursor
import WireSchema.Yaml.Moment
/-!
# Tags

A tag says what kind of value a node stands for. A plain scalar without a tag
gets one from its form: `Tag.implied` holds the forms of YAML 1.1.
-/

namespace WireSchema.Yaml

/-- The tags of YAML 1.1. -/
inductive Tag where
  | null
  | bool
  | int
  | float
  | moment
  | bytes
  | text
  | list
  | mapping
  | set
  /-- A list of pairs with different keys. -/
  | orderedMapping
  | pairs
  /-- The key `<<`, whose value's entries are taken over. -/
  | merge
  /-- The key `=`. -/
  | value
  /-- A tag that names no kind of value. -/
  | unknown
deriving DecidableEq

namespace Tag

/-- What the tags of YAML begin with. -/
def yamlHandle : Text := "tag:yaml.org,2002:"

/-- The tags by their names. -/
def named : List (Text × Tag) :=
  [("null", null), ("bool", bool), ("int", int), ("float", float), ("timestamp", moment),
   ("binary", bytes), ("str", text), ("seq", list), ("map", mapping), ("set", set),
   ("omap", orderedMapping), ("pairs", pairs), ("merge", merge), ("value", value)]

/-- The tag that is written out in full. -/
def ofText (t : Text) : Tag :=
  ((named.find? fun (name, _) => yamlHandle ++ name == t).map (·.2)).getD unknown

/-! ## Forms of plain scalars -/

def isDigit (c : CodePoint) : Bool := c.isBetween '0' '9'

def isDigitOrLine (c : CodePoint) : Bool := isDigit c || c == '_'

/-- At least one code point, all of which satisfy `p`. -/
def isRun (p : CodePoint → Bool) (t : Text) : Bool := !t.isEmpty && t.all p

/-- A digit from `least` on, then digits and underscores. -/
def isGrouped (least : Char) : Text → Bool
  | [] => false
  | c :: rest => c.isBetween least '9' && rest.all isDigitOrLine

/-- The text without a sign in front. -/
def dropSign : Text → Text
  | [] => []
  | c :: rest => if c = '+' ∨ c = '-' then rest else c :: rest

/-- One or two digits that give a number below sixty. -/
def isSixtieth : Text → Bool
  | [c] => isDigit c
  | [c, d] => c.isBetween '0' '5' && isDigit d
  | _ => false

/-- Numbers with colons between them, all but the first below sixty. -/
def isSexagesimal (least : Char) (t : Text) : Bool :=
  match Text.splitOn ':' t with
  | first :: second :: others => isGrouped least first && (second :: others).all isSixtieth
  | _ => false

/-- The form of an integer: binary, octal, decimal, hexadecimal or sexagesimal. -/
def isInt (t : Text) : Bool :=
  let t := dropSign t
  t == "0" || isGrouped '1' t || isSexagesimal '1' t ||
  (Text.startsWith t "0b" && isRun (isOneOf "01_") (t.drop 2)) ||
  (Text.startsWith t "0x" && isRun (fun c => isHexDigit c || c == '_') (t.drop 2)) ||
  (Text.startsWith t "0" && isRun (fun c => c.isBetween '0' '7' || c == '_') (t.drop 1))

/-- An exponent, which has a sign, or nothing. -/
def isExponent : Text → Bool
  | [] => true
  | mark :: sign :: digits => isOneOf "eE" mark && isOneOf "+-" sign && isRun isDigit digits
  | _ => false

/-- What may follow the point of a floating-point number. -/
def isFraction (t : Text) : Bool := isExponent (t.dropWhile isDigitOrLine)

/-- The words for infinity. -/
def infinityWords : List Text := [".inf", ".Inf", ".INF"]

/-- The words for what is no number. -/
def noNumberWords : List Text := [".nan", ".NaN", ".NAN"]

/-- The form of a floating-point number, which has a point. -/
def isFloat (t : Text) : Bool :=
  let unsigned := dropSign t
  let (whole, fraction) := Text.splitFirst '.' unsigned
  unsigned.contains '.' &&
    ((isGrouped '0' whole && isFraction fraction) ||
     (whole.isEmpty && unsigned == t && isGrouped '0' (fraction.take 1) && isFraction fraction) ||
     (isSexagesimal '0' whole && fraction.all isDigitOrLine) ||
     infinityWords.contains unsigned || noNumberWords.contains t)

/-- The words for yes and no. -/
def booleanWords : List Text :=
  ["yes", "Yes", "YES", "no", "No", "NO", "true", "True", "TRUE", "false", "False", "FALSE",
   "on", "On", "ON", "off", "Off", "OFF"]

/-- The words for nothing. -/
def nullWords : List Text := ["~", "null", "Null", "NULL"]

/-- The form of a day or a moment. A day alone has two digits for the month and
the day of the month. -/
def isMoment (t : Text) : Bool := (Moment.read? t).any fun m => m.time.isSome || m.isPadded

/-- The tag that the form of a plain scalar implies. One line feed at the end
changes no form. -/
def implied (t : Text) : Tag :=
  let form := if Text.endsWith t "\n" then t.dropLast else t
  if t.isEmpty || nullWords.contains form then null
  else if booleanWords.contains form then bool
  else if isFloat form then float
  else if isInt form then int
  else if isMoment form then moment
  else if form == "<<" then merge
  else if form == "=" then value
  else if form == "!" || form == "&" || form == "*" then unknown
  else text

end Tag

end WireSchema.Yaml
