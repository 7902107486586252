import WireSchema.Text.Numeral
/-!
# Escapes of TypeScript string literals

`unescape` reads the text between the quotes of a string literal or between the
holes of a template literal. A backslash followed by a line feed stands for
nothing, a backslash at the very end for itself, and a backslash before any
code point without a meaning of its own for that code point. The numerals of
`\x`, `\u` and `\u{…}` are read as `Text.integerValue?` reads base sixteen, and
are cut short where the text ends.
-/

namespace WireSchema

/-- Why an escape cannot be read. -/
inductive EscapeError where
  /-- The digits of the escape are no numeral. -/
  | digits
  /-- No brace closes `\u{`. -/
  | unclosed
  /-- The number is below zero or above the last code point. -/
  | range
  /-- The number is beyond thirty-two bits. -/
  | overflow
deriving DecidableEq

namespace Text

/-- The code point with the number that `digits` spell in base sixteen. -/
def escapedCodePoint (digits : Text) : Except EscapeError CodePoint :=
  match integerValue? 16 digits with
  | none => .error .digits
  | some n =>
    if n < -0x80000000 ∨ 0x80000000 ≤ n then .error .overflow
    else if n < 0 then .error .range
    else
      match CodePoint.ofNat? n.toNat with
      | some c => .ok c
      | none => .error .range

/-- The meaning of a one-letter escape. -/
def simpleEscape? (c : CodePoint) : Option CodePoint :=
  if c = 'n' then some '\n'
  else if c = 't' then some '\t'
  else if c = 'r' then some '\r'
  else if c = 'b' then some '\x08'
  else if c = 'f' then some '\x0c'
  else if c = 'v' then some '\x0b'
  else if c = '0' then some '\x00'
  else none

/-- What the escape stands for whose first code point after the backslash is `c`
and which goes on with `rest`, and how many code points of `rest` belong to it. -/
def readEscape (c : CodePoint) (rest : Text) : Except EscapeError (Text × Nat) :=
  match simpleEscape? c with
  | some meaning => .ok ([meaning], 0)
  | none =>
    if c = 'x' ∧ 2 ≤ rest.length then
      (escapedCodePoint (rest.take 2)).map fun d => ([d], 2)
    else if c = 'u' ∧ rest.head? = some (CodePoint.ofChar '\x7b') then
      match indexOf? "\x7d" (rest.drop 1) with
      | none => .error .unclosed
      | some n => (escapedCodePoint ((rest.drop 1).take n)).map fun d => ([d], n + 2)
    else if c = 'u' then
      (escapedCodePoint (rest.take 4)).map fun d => ([d], 4)
    else if c = '\n' then .ok ([], 0)
    else .ok ([c], 0)

/-- The text that the inside of a literal stands for. -/
def unescape (t : Text) : Except EscapeError Text :=
  go 0 t
where
  /-- Goes on after `skip` code points that belong to an escape. -/
  go (skip : Nat) : Text → Except EscapeError Text
    | [] => .ok []
    | c :: rest =>
      match skip with
      | skip + 1 => go skip rest
      | 0 =>
        if c = '\\' then
          match rest with
          | [] => .ok [c]
          | d :: after => do
            let (meaning, more) ← readEscape d after
            let others ← go (more + 1) (d :: after)
            return meaning ++ others
        else do
          let others ← go 0 rest
          return c :: others

end Text

end WireSchema
