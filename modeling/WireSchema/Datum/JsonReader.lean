import WireSchema.Datum.Basic
import WireSchema.Text.FloatNumeral
/-!
# Reading JSON

JSON with four liberties: numbers may have leading zeros, their whole part may
be missing before a point after a sign, `NaN` and `Infinity` are numbers, and
strings may hold control characters. A number with a point or an exponent is a
floating-point number, any other an integer of any size.
-/

namespace WireSchema.Datum.Json

/-- Space, tab, line feed and carriage return. -/
def isSpace (c : CodePoint) : Bool := c == ' ' || c == '\t' || c == '\n' || c == '\r'

def skipSpace (t : Text) : Text := t.dropWhile isSpace

def isDigit (c : CodePoint) : Bool := c.isBetween '0' '9'

/-- The number that ASCII digits spell. -/
def digitsValue (digits : Text) : Nat :=
  digits.foldl (fun value c => value * 10 + (c.val - '0'.toNat)) 0

/-! ## Numbers -/

/-- The exponent of a number, if one is written, and the rest. -/
def exponent (t : Text) : Int × Text :=
  match t with
  | c :: rest =>
    if c = 'e' ∨ c = 'E' then
      let isNegative := Text.startsWith rest "-"
      let digits := if isNegative || Text.startsWith rest "+" then rest.drop 1 else rest
      match digits.takeWhile isDigit with
      | [] => (0, t)
      | d :: ds =>
        let n := digitsValue (d :: ds)
        (if isNegative then -(n : Int) else n, digits.dropWhile isDigit)
    else (0, t)
  | [] => (0, t)

/-- A number without its sign, and the rest. -/
def unsigned (isNegative : Bool) (t : Text) : Option (Datum × Text) :=
  let whole := t.takeWhile isDigit
  let rest := t.dropWhile isDigit
  let sign (x : Float) : Float := if isNegative then -x else x
  if Text.startsWith rest "." || Text.startsWith rest "e" || Text.startsWith rest "E" then
    let fraction := if Text.startsWith rest "." then (rest.drop 1).takeWhile isDigit else []
    let afterFraction :=
      if Text.startsWith rest "." then (rest.drop 1).dropWhile isDigit else rest
    if whole.isEmpty && fraction.isEmpty then none
    else
      let (e, rest) := exponent afterFraction
      let x := Text.nearestFloat (digitsValue (whole ++ fraction)) (e - fraction.length)
      some (.float (sign x), rest)
  else if whole.isEmpty then
    if Text.startsWith t "Infinity" then some (.float (sign Text.infinity), t.drop 8) else none
  else
    let n := digitsValue whole
    some (.int (if isNegative then -(n : Int) else n), rest)

/-! ## Strings -/

/-- The number of four digits of base sixteen. -/
def hexValue? (t : Text) : Option Nat :=
  if t.length = 4 then
    t.foldlM (fun value c =>
      if c.val < 0x80 then (Text.digitValue? 16 c).map (value * 16 + ·) else none) 0
  else none

/-- The code point that an escape `\u` begins with four digits, a pair of
halves being one code point, and how many code points it takes after the `u`. -/
def unicodeEscape (t : Text) : Option (CodePoint × Nat) := do
  let n ← hexValue? (t.take 4)
  let c ← CodePoint.ofNat? n
  let pair? : Option CodePoint := do
    guard (c.isHighHalf && Text.startsWith (t.drop 4) "\\u")
    let d ← CodePoint.ofNat? (← hexValue? ((t.drop 6).take 4))
    guard d.isLowHalf
    CodePoint.ofNat? (0x10000 + (c.val - 0xD800) * 0x400 + (d.val - 0xDC00))
  match pair? with
  | some p => return (p, 10)
  | none => return (c, 4)

/-- The meaning of a one-letter escape. -/
def simpleEscape? (c : CodePoint) : Option CodePoint :=
  if c = '"' ∨ c = '\\' ∨ c = '/' then some c
  else if c = 'b' then some '\x08'
  else if c = 'f' then some '\x0c'
  else if c = 'n' then some '\n'
  else if c = 'r' then some '\r'
  else if c = 't' then some '\t'
  else none

/-- The text up to the closing quote and the rest behind it. `skip` code points
belong to an escape that was read. -/
def stringBody (skip : Nat) : Text → Option (Text × Text)
  | [] => none
  | c :: rest =>
    match skip with
    | skip + 1 => stringBody skip rest
    | 0 =>
      if c = '"' then some ([], rest)
      else if c = '\\' then
        match rest with
        | [] => none
        | d :: after =>
          if d = 'u' then do
            let (p, taken) ← unicodeEscape after
            let (body, rest) ← stringBody (taken + 1) (d :: after)
            return (p :: body, rest)
          else do
            let p ← simpleEscape? d
            let (body, rest) ← stringBody 1 (d :: after)
            return (p :: body, rest)
      else if c.val = 0 then none
      else do
        let (body, rest) ← stringBody 0 rest
        return (c :: body, rest)

/-! ## Values -/

/-- What may be between the items of a list or a mapping. -/
def afterItem (closer : CodePoint) (t : Text) : Option (Bool × Text) :=
  match skipSpace t with
  | c :: rest =>
    if c = ',' then some (true, rest) else if c = closer then some (false, rest) else none
  | [] => none

mutual

/-- A value and the rest, nested at most so deep. -/
def value : Nat → Text → Option (Datum × Text)
  | 0, _ => none
  | depth + 1, t =>
    match skipSpace t with
    | [] => none
    | c :: rest =>
      if c = '"' then (stringBody 0 rest).map fun (body, rest) => (.text body, rest)
      else if c = '[' then
        match skipSpace rest with
        | d :: after => if d = ']' then some (.list [], after) else items depth [] rest
        | [] => none
      else if c = '\x7b' then
        match skipSpace rest with
        | d :: after => if d = '\x7d' then some (.mapping [], after) else entries depth [] rest
        | [] => none
      else if c = '-' then unsigned true rest
      else if isDigit c ∨ c = 'I' then unsigned false (c :: rest)
      else if Text.startsWith (c :: rest) "NaN" then some (.float (0.0 / 0.0), rest.drop 2)
      else if Text.startsWith (c :: rest) "true" then some (.bool true, rest.drop 3)
      else if Text.startsWith (c :: rest) "false" then some (.bool false, rest.drop 4)
      else if Text.startsWith (c :: rest) "null" then some (.null, rest.drop 3)
      else none

/-- The items of a list, after those found before. -/
def items : Nat → List Datum → Text → Option (Datum × Text)
  | 0, _, _ => none
  | depth + 1, found, t => do
    let (item, rest) ← value depth t
    match ← afterItem ']' rest with
    | (true, rest) => items depth (item :: found) rest
    | (false, rest) => return (.list (item :: found).reverse, rest)

/-- The entries of a mapping, after those found before. -/
def entries : Nat → List (Datum × Datum) → Text → Option (Datum × Text)
  | 0, _, _ => none
  | depth + 1, found, t =>
    match skipSpace t with
    | [] => none
    | c :: rest =>
      if c = '"' then do
        let (key, rest) ← stringBody 0 rest
        match skipSpace rest with
        | [] => none
        | d :: rest =>
          if d = ':' then
            let (item, rest) ← value depth rest
            let found := Datum.put found key item
            match ← afterItem '\x7d' rest with
            | (true, rest) => entries depth found rest
            | (false, rest) => return (.mapping found, rest)
          else none
      else none

end

/-- The value of a whole JSON text. -/
def parse? (t : Text) : Option Datum :=
  match value (2 * t.length + 2) t with
  | some (datum, rest) => if (skipSpace rest).isEmpty then some datum else none
  | none => none

end WireSchema.Datum.Json
