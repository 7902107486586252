import WireSchema.Text.Numeral
import WireSchema.Yaml.Cursor
/-!
# Days and moments

A day is written `2001-12-14`. A time of day may follow, and a distance from
universal time. A written moment need not exist.
-/

namespace WireSchema.Yaml

/-- The time of day of a moment. -/
structure TimeOfDay where
  hour : Nat
  minute : Nat
  second : Nat
  /-- The distance from universal time in minutes, up to its sign. -/
  offset : Nat := 0

/-- A day or a moment of time. -/
structure Moment where
  year : Nat
  month : Nat
  day : Nat
  time : Option TimeOfDay := none
  /-- The month and the day have two digits each. -/
  isPadded : Bool

namespace Moment

/-- A number of at least `least` and at most `most` ASCII digits, how many there
are, and the rest. -/
def number (least most : Nat) (t : Text) : Option (Nat × Nat × Text) :=
  let digits := (t.take most).takeWhile (·.isBetween '0' '9')
  if digits.length < least then none
  else (Text.decimalValue? digits).map fun n => (n, digits.length, t.drop digits.length)

/-- What follows a sign. -/
def after? (sign : CodePoint) : Text → Option Text
  | [] => none
  | c :: rest => if c = sign then some rest else none

/-- The distance from universal time that a whole text gives. -/
def offset? (t : Text) : Option Nat :=
  match t with
  | [] => some 0
  | _ =>
    match t.dropWhile isBlank with
    | [] => none
    | c :: rest =>
      if c = 'Z' then if rest.isEmpty then some 0 else none
      else if c = '+' ∨ c = '-' then do
        let (hours, _, rest) ← number 1 2 rest
        match rest with
        | [] => return hours * 60
        | _ => do
          let (minutes, _, rest) ← number 2 2 (← after? ':' rest)
          if rest.isEmpty then return hours * 60 + minutes else none
      else none

/-- The time of day that a whole text gives. -/
def time? (t : Text) : Option TimeOfDay := do
  let (hour, _, t) ← number 1 2 t
  let (minute, _, t) ← number 2 2 (← after? ':' t)
  let (second, _, t) ← number 2 2 (← after? ':' t)
  let t := if Text.startsWith t "." then (t.drop 1).dropWhile (·.isBetween '0' '9') else t
  return { hour, minute, second, offset := ← offset? t }

/-- What follows the mark or the white space between a day and a time. -/
def afterDay? : Text → Option Text
  | [] => none
  | c :: rest =>
    if c = 'T' ∨ c = 't' then some rest
    else if isBlank c then some (rest.dropWhile isBlank)
    else none

/-- The day or moment that a whole text gives. -/
def read? (t : Text) : Option Moment := do
  let (year, _, t) ← number 4 4 t
  let (month, m, t) ← number 1 2 (← after? '-' t)
  let (day, d, t) ← number 1 2 (← after? '-' t)
  let found : Moment := { year, month, day, isPadded := m == 2 && d == 2 }
  if t.isEmpty then return found
  else return { found with time := ← time? (← afterDay? t) }

/-- The length of a month. -/
def monthLength (year month : Nat) : Nat :=
  if month = 2 then
    if year % 4 = 0 ∧ (year % 100 ≠ 0 ∨ year % 400 = 0) then 29 else 28
  else if month = 4 ∨ month = 6 ∨ month = 9 ∨ month = 11 then 30
  else 31

/-- The time of day exists and is less than a day away from universal time. -/
def isTime (t : TimeOfDay) : Bool :=
  t.hour < 24 && t.minute < 60 && t.second < 60 && t.offset < 24 * 60

/-- The moment exists. -/
def isReal (m : Moment) : Bool :=
  1 ≤ m.year && 1 ≤ m.month && m.month ≤ 12 && 1 ≤ m.day && m.day ≤ monthLength m.year m.month &&
  m.time.all isTime

end Moment

end WireSchema.Yaml
