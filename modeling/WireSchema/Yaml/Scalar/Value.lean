import WireSchema.Datum.Basic
import WireSchema.Text.Base64
import WireSchema.Text.FloatNumeral
import WireSchema.Yaml.Tag
/-!
# Values of scalars

Underscores in a number say nothing. Integers are binary behind `0b`,
hexadecimal behind `0x`, octal behind any other zero, and numbers with colons
between them count in sixties.
-/

namespace WireSchema.Yaml.Scalar

/-- Whether a number is negative, and the number without its sign. A number has
to have a first digit or sign. -/
def splitSign (t : Text) : Except Fault (Bool × Text) :=
  match t.filter (· != CodePoint.ofChar '_') with
  | [] => .error .noDigits
  | c :: rest =>
    if c = '-' then .ok (true, rest)
    else if c = '+' then .ok (false, rest)
    else .ok (false, c :: rest)

/-- The number whose digits in base sixty are given, the largest unit first. -/
def sixties (digits : List Int) : Int := digits.foldl (fun value digit => value * 60 + digit) 0

/-- A result, or a fault in the text. -/
def orMalformed : Option α → Except Fault α
  | some a => .ok a
  | none => .error .malformed

/-- The integer that a text spells. -/
def intValue (t : Text) : Except Fault Int := do
  let (isNegative, t) ← splitSign t
  let size ←
    if Text.startsWith t "0b" then orMalformed (Text.integerValue? 2 (t.drop 2))
    else if Text.startsWith t "0x" then orMalformed (Text.integerValue? 16 (t.drop 2))
    else
      match t with
      | [] => .error .noDigits
      | c :: _ =>
        if c = '0' then orMalformed (Text.integerValue? 8 t)
        else do
          let digits ← orMalformed ((Text.splitOn ':' t).mapM (Text.integerValue? 10))
          pure (sixties digits)
  return if isNegative then -size else size

/-- The number whose digits in base sixty are given, the smallest unit first,
added to `value`. The first digit counts `unit`. -/
def floatSixties (unit value : Float) : List Float → Float
  | [] => value
  | digit :: rest => floatSixties (unit * 60) (value + digit * unit) rest

/-- The floating-point number that a text spells. -/
def floatValue (t : Text) : Except Fault Float := do
  let (isNegative, t) ← splitSign (t.map Text.lowerAscii)
  let size ←
    if t == ".inf" then .ok Text.infinity
    else if t == ".nan" then .ok (0.0 / 0.0)
    else
      match Text.splitOn ':' t with
      | [_] => orMalformed (Text.floatValue? t)
      | parts => do
        let digits ← orMalformed (parts.mapM Text.floatValue?)
        pure (floatSixties 1.0 0.0 digits.reverse)
  return if isNegative then -size else size

/-- The boolean that a word stands for. -/
def boolValue (t : Text) : Except Fault Bool :=
  let word := t.map Text.lowerAscii
  if word == "yes" || word == "true" || word == "on" then .ok true
  else if word == "no" || word == "false" || word == "off" then .ok false
  else .error .noBoolean

/-- The day or moment that a text spells, which has to exist. -/
def momentValue (t : Text) : Except Fault Datum :=
  match Moment.read? (if Text.endsWith t "\n" then t.dropLast else t) with
  | none => .error .noMoment
  | some m =>
    if m.isReal then .ok (if m.time.isSome then .dateTime else .date) else .error .malformed

/-- The value of a scalar. -/
def value (tag : Tag) (t : Text) : Except Fault Datum :=
  match tag with
  | .null => .ok .null
  | .bool => (boolValue t).map .bool
  | .int => (intValue t).map .int
  | .float => (floatValue t).map .float
  | .moment => momentValue t
  | .bytes =>
    if t.all (·.val < 0x80) then (orMalformed (Base64.decode? t)).map .bytes else .error .malformed
  | .text => .ok (.text t)
  | _ => .error .malformed

end WireSchema.Yaml.Scalar
