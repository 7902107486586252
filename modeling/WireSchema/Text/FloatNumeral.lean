import WireSchema.Text.Numeral
/-!
# Numerals of floating-point numbers

Decimal digits with an exponent of ten give the double nearest to them.
-/

namespace WireSchema.Text

/-- Beyond every finite number. -/
def infinity : Float := 1.0 / 0.0

/-- The double nearest to `digits * 10 ^ e`. All doubles above zero lie between
`10 ^ (-324)` and `10 ^ 309`. -/
def nearestFloat (digits : Nat) (e : Int) : Float :=
  if digits = 0 then 0.0
  else if 309 < e then infinity
  else if e + (digits.log2 + 1 : Nat) < -324 then 0.0
  else if e < 0 then Float.ofScientific digits true e.natAbs
  else Float.ofScientific digits false e.natAbs

/-- An ASCII letter in lower case. -/
def lowerAscii (c : CodePoint) : CodePoint :=
  if c.isBetween 'A' 'Z' then (CodePoint.ofNat? (c.val + 0x20)).getD c else c

/-- The exponent that is written behind a mark, zero if none is. -/
def exponentValue? : Text → Option Int
  | [] => some 0
  | mark :: rest =>
    if mark = 'e' ∨ mark = 'E' then
      match rest with
      | [] => none
      | c :: digits =>
        if c = '-' then (decimalValue? digits).map fun n => -(n : Int)
        else if c = '+' then (decimalValue? digits).map Int.ofNat
        else (decimalValue? (c :: digits)).map Int.ofNat
    else none

/-- The number that a numeral without a sign spells: digits with a point before,
between or behind them and an exponent, or a word for infinity or for no number. -/
def positiveFloat? (t : Text) : Option Float :=
  let word := t.map lowerAscii
  if word == "inf" || word == "infinity" then some infinity
  else if word == "nan" then some (0.0 / 0.0)
  else
    let whole := t.takeWhile CodePoint.isDecimal
    let rest := t.dropWhile CodePoint.isDecimal
    let (fraction, rest) :=
      if startsWith rest "." then (rest.drop 1).span CodePoint.isDecimal else ([], rest)
    match decimalValue? (whole ++ fraction), exponentValue? rest with
    | some digits, some e => some (nearestFloat digits (e - fraction.length))
    | _, _ => none

/-- The floating-point number that a numeral spells, which may have a sign and
white space around it. -/
def floatValue? (t : Text) : Option Float :=
  match trimWhile isNumeralBlank t with
  | [] => none
  | c :: rest =>
    if c = '-' then (positiveFloat? rest).map (- ·)
    else if c = '+' then positiveFloat? rest
    else positiveFloat? (c :: rest)

end WireSchema.Text
