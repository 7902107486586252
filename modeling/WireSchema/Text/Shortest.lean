import WireSchema.Text.Numeral
/-!
# Shortest decimal text of a floating-point number

A double stands for an interval of reals that round to it. Its text has the
fewest digits of which some number lies in that interval, and of those the
number nearest to the double. Digits are tried in order of their count, on the
two points of the decimal grid next to the value.

The text is positional for decimal exponents from -4 to 15 and has an exponent
of at least two digits otherwise; a whole number keeps `.0`.
-/

namespace WireSchema.Text.Shortest

/-- A positive double as an exact fraction, with the ends of the interval of
numbers that round to it. All three have the denominator `den`. -/
structure Interval where
  value : Nat
  low : Nat
  high : Nat
  den : Nat
  /-- The ends belong to the interval. -/
  closed : Bool

/-- The interval of the double with the exponent bits `exponent` and the
fraction bits `fraction`. -/
def Interval.ofParts (exponent fraction : Nat) : Interval :=
  let m := if exponent = 0 then fraction else fraction + Nat.pow 2 52
  let e := if exponent = 0 then 1 else exponent
  let below := if fraction = 0 && 1 < exponent then 1 else 2
  -- the value is `4 * m * 2 ^ (e - 1077)`
  let up := Nat.pow 2 (e - 1077)
  let down := Nat.pow 2 (1077 - e)
  { value := 4 * m * up, low := (4 * m - below) * up, high := (4 * m + 2) * up, den := down,
    closed := m % 2 == 0 }

/-- The number `n / d` lies in the interval. -/
def Interval.contains (i : Interval) (n d : Nat) : Bool :=
  let x := n * i.den
  let low := i.low * d
  let high := i.high * d
  if i.closed then low ≤ x && x ≤ high else low < x && x < high

/-- The distance of `n / d` from the value, up to a common factor. -/
def Interval.distance (i : Interval) (n d : Nat) : Nat :=
  let x := n * i.den
  let v := i.value * d
  if x ≤ v then v - x else x - v

/-- The least `k` from `start` on with `n * 10 ^ k ≥ d`, looking `fuel` steps ahead. -/
def raise (n d : Nat) : Nat → Nat → Nat
  | 0, k => k
  | fuel + 1, k => if d ≤ n * Nat.pow 10 k then k else raise n d fuel (k + 1)

/-- The decimal exponent of the first digit of the value. -/
def Interval.exponent (i : Interval) : Int :=
  if i.den ≤ i.value then ((Nat.toDigits 10 (i.value / i.den)).length : Int) - 1
  else -(raise i.value i.den 400 1 : Int)

/-- The point of the grid of the multiples of `10 ^ unit` that lies in the
interval, next to the value and nearest to it; a tie goes to the even one. -/
def Interval.gridPoint? (i : Interval) (unit : Int) : Option Nat :=
  let scaleUp := Nat.pow 10 unit.toNat
  let scaleDown := Nat.pow 10 (-unit).toNat
  let below := i.value * scaleDown / (i.den * scaleUp)
  let above := below + 1
  let inside (n : Nat) := i.contains (n * scaleUp) scaleDown
  let far (n : Nat) := i.distance (n * scaleUp) scaleDown
  match inside below, inside above with
  | true, true =>
    if far below < far above || (far below == far above && below % 2 == 0) then some below
    else some above
  | true, false => some below
  | false, true => some above
  | false, false => none

/-- The shortest digits of the value, trying `count` digits and then up to
`fuel` more, with the decimal exponent of the first digit. -/
def Interval.digits (i : Interval) : Nat → Nat → List Char × Int
  | 0, _ => (['0'], 0)
  | fuel + 1, count =>
    let e := i.exponent
    match i.gridPoint? (e - count + 1) with
    | some n =>
      let ds := Nat.toDigits 10 n
      let kept := (ds.reverse.dropWhile (· == '0')).reverse
      (kept, e + (ds.length - count))
    | none => digits i fuel (count + 1)

/-- Digits and the exponent of the first one as text. -/
def layOut (ds : List Char) (e : Int) : List Char :=
  if -4 ≤ e && e < 16 then
    if e < 0 then
      '0' :: '.' :: List.replicate (-e - 1).toNat '0' ++ ds
    else
      let whole := e.toNat + 1
      if ds.length ≤ whole then ds ++ List.replicate (whole - ds.length) '0' ++ ['.', '0']
      else ds.take whole ++ '.' :: ds.drop whole
  else
    let mark := if e < 0 then '-' else '+'
    let size := Nat.toDigits 10 e.natAbs
    let size := if size.length < 2 then '0' :: size else size
    match ds with
    | [] => []
    | [d] => d :: 'e' :: mark :: size
    | d :: more => d :: '.' :: more ++ 'e' :: mark :: size

end Shortest

/-- The shortest decimal text that reads back as the same double. -/
def ofFloat (x : Float) : Text :=
  let bits := x.toBits.toNat
  let exponent := bits / Nat.pow 2 52 % Nat.pow 2 11
  let fraction := bits % Nat.pow 2 52
  let minus : Text := if bits / Nat.pow 2 63 = 1 then "-" else []
  if exponent = 2047 then
    if fraction = 0 then minus ++ "inf" else "nan"
  else if exponent = 0 && fraction = 0 then
    minus ++ "0.0"
  else
    let (ds, e) := (Shortest.Interval.ofParts exponent fraction).digits 17 1
    minus ++ (Shortest.layOut ds e).map CodePoint.ofChar

end WireSchema.Text
