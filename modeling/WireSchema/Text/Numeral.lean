import WireSchema.Text.Blank
import WireSchema.Text.Digit
/-!
# Integer numerals

Integers are written in decimal without leading zeros. They are read more
freely: digits of any script count, single underscores may stand between
digits, a sign may come first, and white space may surround the whole. The
digits may follow a mark of their base, `0b`, `0o` or `0x`, and one underscore
may follow that.
-/

namespace WireSchema.Text

/-- A natural number in decimal. -/
def ofNat (n : Nat) : Text := (Nat.toDigits 10 n).map CodePoint.ofChar

/-- An integer in decimal. -/
def ofInt : Int → Text
  | .ofNat n => ofNat n
  | .negSucc n => CodePoint.ofChar '-' :: ofNat (n + 1)

/-- The number that decimal digits spell, if there are some and nothing else. -/
def decimalValue? (t : Text) : Option Nat :=
  if t.isEmpty then none
  else t.foldlM (fun value c => c.decimal?.map (value * 10 + ·)) 0

/-- The value of a digit of a base up to sixteen. -/
def digitValue? (base : Nat) (c : CodePoint) : Option Nat :=
  let value? :=
    match c.decimal? with
    | some d => some d
    | none =>
      if c.isBetween 'a' 'f' then some (c.val - 'a'.toNat + 10)
      else if c.isBetween 'A' 'F' then some (c.val - 'A'.toNat + 10)
      else none
  value?.filter (· < base)

/-- The number that digits with single underscores between them spell.
`afterDigit` says that a digit came last, so that an underscore may follow and
the numeral may end. -/
def digitsValue? (base : Nat) (afterDigit : Bool) (value : Nat) : Text → Option Nat
  | [] => if afterDigit then some value else none
  | c :: rest =>
    if c = '_' then
      if afterDigit then digitsValue? base false value rest else none
    else
      match digitValue? base c with
      | some d => digitsValue? base true (value * base + d) rest
      | none => none

/-- White space that may surround a numeral: all but U+001C to U+001F. -/
def isNumeralBlank (c : CodePoint) : Bool :=
  c.isBlank && !(0x1C ≤ c.val && c.val ≤ 0x1F)

/-- The code point is the letter that marks a base, after a zero. -/
def isBaseMark (base : Nat) (c : CodePoint) : Bool :=
  match base with
  | 2 => c == 'b' || c == 'B'
  | 8 => c == 'o' || c == 'O'
  | 16 => c == 'x' || c == 'X'
  | _ => false

/-- The digits of a numeral, without the mark of the base. -/
def dropBaseMark (base : Nat) : Text → Text
  | z :: x :: rest =>
    if z.decimal? = some 0 ∧ isBaseMark base x then
      match rest with
      | [] => []
      | c :: rest' => if c = '_' then rest' else c :: rest'
    else z :: x :: rest
  | t => t

/-- A numeral without a sign. -/
def naturalValue? (base : Nat) (t : Text) : Option Nat :=
  digitsValue? base false 0 (dropBaseMark base t)

/-- The integer that a numeral of the base spells. -/
def integerValue? (base : Nat) (t : Text) : Option Int :=
  match trimWhile isNumeralBlank t with
  | [] => none
  | c :: rest =>
    if c = '-' then (naturalValue? base rest).map fun n => -(n : Int)
    else if c = '+' then (naturalValue? base rest).map Int.ofNat
    else (naturalValue? base (c :: rest)).map Int.ofNat

end WireSchema.Text
