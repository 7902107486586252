import WireSchema.Datum.Basic
import WireSchema.Text.Quoted
import WireSchema.Yaml.Tag
/-!
# Writing YAML

A mapping is written with a line for each entry. A text stands as it is where
it can, between single quotes otherwise, and between double quotes if it holds
anything but printable ASCII and line feeds, or a space next to a line feed.
Lines beyond 80 columns are broken where the text has a space, between double
quotes also behind an escape; what follows is indented by two spaces.
-/

namespace WireSchema.Yaml

/-- How a text is written. -/
inductive Style where
  | plain
  | single
  | double
deriving DecidableEq

namespace Writer

/-- The column behind which a line is broken. -/
def width : Nat := 80

/-- The start of a further line of a scalar. -/
def newLine : Text := "\n  "

/-- The column at the start of a further line. -/
def newColumn : Nat := 2

def isPrintableAscii (c : CodePoint) : Bool := 0x20 ≤ c.val && c.val ≤ 0x7E

/-- The text holds a colon before a space or at its end, or a number sign behind a space. -/
def hasSign : Text → Bool
  | [] => false
  | [c] => c == ':'
  | c :: d :: rest => (c == ':' && d == ' ') || (c == ' ' && d == '#') || hasSign (d :: rest)

/-- The text begins with a sign that means something there. -/
def startsWithSign (t : Text) : Bool :=
  match t with
  | [] => false
  | c :: rest =>
    isOneOf "#,[]\x7b\x7d&*!|>'\"%@\x60" c || Text.startsWith t "---" || Text.startsWith t "..." ||
    (isOneOf "?:-" c && (rest.isEmpty || Text.startsWith rest " "))

/-- The text can be told from everything else without quotes. -/
def standsPlain (t : Text) : Bool :=
  Tag.implied t == .text && t.all isPrintableAscii && !Text.startsWith t " " &&
  !Text.endsWith t " " && !startsWithSign t && !hasSign t

/-- The style of a text. -/
def style (t : Text) : Style :=
  if standsPlain t then .plain
  else if t.all (fun c => isPrintableAscii c || c == '\n') &&
      (Text.indexOf? " \n" t).isNone && (Text.indexOf? "\n " t).isNone then .single
  else .double

/-- A run of equal code points at the start of a text, without the first one,
and the rest behind it. -/
def runOf (c : CodePoint) (t : Text) : Text × Text := t.span (· == c)

/-- The rest of a text between single quotes or without quotes, from a column
on. `isFirst` says that nothing came before. -/
def folded (isQuoted : Bool) : Nat → (isFirst : Bool) → (column : Nat) → Text → Text
  | 0, _, _, _ => []
  | _, _, _, [] => []
  | fuel + 1, isFirst, column, c :: rest =>
    if c = ' ' then
      let (more, after) := runOf ' ' rest
      let isKept := isQuoted && (isFirst || after.isEmpty)
      if more.isEmpty && width < column && !isKept then
        newLine ++ folded isQuoted fuel false newColumn after
      else
        c :: more ++ folded isQuoted fuel false (column + more.length + 1) after
    else if c = '\n' then
      let (more, after) := runOf '\n' rest
      c :: c :: more ++ "  " ++ folded isQuoted fuel false newColumn after
    else if isQuoted && c == '\'' then
      c :: c :: folded isQuoted fuel false (column + 2) rest
    else c :: folded isQuoted fuel false (column + 1) rest

/-- The letter of an escape that has one. -/
def escapeLetter? (c : CodePoint) : Option Char :=
  match c.val with
  | 0x00 => some '0'
  | 0x07 => some 'a'
  | 0x08 => some 'b'
  | 0x09 => some 't'
  | 0x0A => some 'n'
  | 0x0B => some 'v'
  | 0x0C => some 'f'
  | 0x0D => some 'r'
  | 0x1B => some 'e'
  | 0x22 => some '"'
  | 0x5C => some '\\'
  | 0x85 => some 'N'
  | 0xA0 => some '_'
  | 0x2028 => some 'L'
  | 0x2029 => some 'P'
  | _ => none

/-- A digit of base sixteen in upper case. -/
def upperHex (width n : Nat) : Text :=
  (Text.hex width n).map fun c =>
    if c.isBetween 'a' 'f' then (CodePoint.ofNat? (c.val - 0x20)).getD c else c

/-- A code point that is escaped between double quotes. -/
def isEscaped (c : CodePoint) : Bool := c == '"' || c == '\\' || !isPrintableAscii c

/-- A code point's escape. -/
def escape (c : CodePoint) : Text :=
  match escapeLetter? c with
  | some letter => ['\\', letter]
  | none =>
    if c.val ≤ 0xFF then "\\x" ++ upperHex 2 c.val
    else if c.val ≤ 0xFFFF then "\\u" ++ upperHex 4 c.val
    else "\\U" ++ upperHex 8 c.val

/-- The rest of a text between double quotes. `pending` was read and is not
written yet, latest code point first, and goes from `column` on. `isFirst` says
that nothing came before. -/
def escaped (isFirst : Bool) (column : Nat) (pending : Text) : Text → Text
  | [] => pending.reverse
  | c :: rest =>
    let mark (next : Text) : Text := if Text.startsWith next " " then "\\" else []
    if isEscaped c then
      let column := column + pending.length + (escape c).length
      pending.reverse ++ escape c ++
        if !isFirst && !rest.isEmpty && width + 1 < column then
          "\\" ++ newLine ++ mark rest ++ escaped false (newColumn + (mark rest).length) [] rest
        else escaped false column [] rest
    else if !isFirst && !rest.isEmpty && (c == ' ' || pending.isEmpty) &&
        width < column + pending.length then
      pending.reverse ++ "\\" ++ newLine ++ mark [c] ++
        escaped false (newColumn + (mark [c]).length) [c] rest
    else escaped false column (c :: pending) rest

/-- A text behind a key that ends before `column`. -/
def text (column : Nat) (t : Text) : Text :=
  match style t with
  | .plain => " " ++ folded false (t.length + 1) true (column + 1) t
  | .single => " '" ++ folded true (t.length + 1) true (column + 2) t ++ "'"
  | .double => " \"" ++ escaped true (column + 2) [] t ++ "\""

/-- A value behind a key that ends before `column`. Values that are no scalars
are written as null. -/
def value (column : Nat) : Datum → Text
  | .text t => text column t
  | .int n => " " ++ Text.ofInt n
  | .bool b => if b then " true" else " false"
  | _ => " null"

/-- The line or lines of an entry. -/
def entry (key : Text) (d : Datum) : Text := key ++ ":" ++ value (key.length + 1) d ++ "\n"

end Writer

/-- A mapping whose keys are words as a whole text. -/
def render (entries : List (Text × Datum)) : Text :=
  (entries.map fun (key, d) => Writer.entry key d).flatten

end WireSchema.Yaml
