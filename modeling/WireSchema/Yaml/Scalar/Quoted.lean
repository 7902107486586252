import WireSchema.Yaml.Cursor
import WireSchema.Text.Numeral
/-!
# Quoted scalars

Between single quotes only the quote itself is written differently, as two.
Between double quotes a backslash escapes. In both, white space around a line
break is dropped and the line break folded.
-/

namespace WireSchema.Yaml.Quoted

/-- The meaning of an escape of one code point. -/
def escapeMeaning? (c : CodePoint) : Option CodePoint :=
  if c = '0' then some '\x00'
  else if c = 'a' then some '\x07'
  else if c = 'b' then some '\x08'
  else if c = 't' ∨ c = '\t' then some '\t'
  else if c = 'n' then some '\n'
  else if c = 'v' then some '\x0b'
  else if c = 'f' then some '\x0c'
  else if c = 'r' then some '\r'
  else if c = 'e' then some '\x1b'
  else if c = ' ' ∨ c = '"' ∨ c = '\\' ∨ c = '/' then some c
  else if c = 'N' then some '\x85'
  else if c = '_' then some '\xa0'
  else if c = 'L' then some '\u2028'
  else if c = 'P' then some '\u2029'
  else none

/-- How many digits follow the letter of a numeric escape. -/
def escapeWidth? (c : CodePoint) : Option Nat :=
  if c = 'x' then some 2 else if c = 'u' then some 4 else if c = 'U' then some 8 else none

/-- The code point of a numeric escape with exactly `width` digits. -/
def numericEscape (width : Nat) (digits : Text) : Except Fault CodePoint :=
  if digits.length = width ∧ digits.all isHexDigit then
    match Text.digitsValue? 16 false 0 digits with
    | none => .error .malformed
    | some n =>
      match CodePoint.ofNat? n with
      | some c => .ok c
      | none => .error (if n < 0x80000000 then .malformed else .overflow)
  else .error .malformed

/-- The line breaks from here on, with the white space before and between them. -/
def breaks : Nat → Cursor → Except Fault (Text × Cursor)
  | 0, _ => .error .malformed
  | fuel + 1, c =>
    if c.seesDocumentMark then .error .malformed
    else
      let c := c.skipWhile isBlank
      match c.lineBreak? with
      | none => .ok ([], c)
      | some (b, c) => do
        let (others, c) ← breaks fuel c
        return (b :: others, c)

/-- What an escape stands for whose backslash has been passed. -/
def escape (c : Cursor) : Except Fault (Text × Cursor) :=
  match c.rest with
  | [] => .error .malformed
  | x :: rest =>
    match escapeMeaning? x, escapeWidth? x with
    | some meaning, _ => .ok ([meaning], c.next)
    | none, some width => do
      return ([← numericEscape width (rest.take width)], c.skip (width + 1))
    | none, none =>
      match c.lineBreak? with
      | some (_, c) => breaks (c.rest.length + 1) c
      | none => .error .malformed

/-- What white space stands for: itself, or what its line breaks fold to. -/
def gap (c : Cursor) : Except Fault (Text × Cursor) :=
  let (blanks, c) := c.span isBlank
  match c.lineBreak? with
  | none => .ok (blanks, c)
  | some (b, c) => do
    let (others, c) ← breaks (c.rest.length + 1) c
    return (foldBreaks b others, c)

/-- The text up to the closing quote, and the cursor behind it. -/
def inside (quote : CodePoint) : Nat → Cursor → Except Fault (Text × Cursor)
  | 0, _ => .error .malformed
  | fuel + 1, c =>
    match c.rest with
    | [] => .error .malformed
    | x :: rest =>
      let isDouble := quote == '"'
      if x = quote ∧ (isDouble ∨ rest.head? ≠ some quote) then .ok ([], c.next)
      else do
        let (t, c) ←
          if x = quote then .ok ([quote], c.skip 2)
          else if isGap x then gap c
          else if isDouble && x == '\\' then escape c.next
          else .ok ([x], c.next)
        let (more, c) ← inside quote fuel c
        return (t ++ more, c)

/-- The text of the quoted scalar that begins here. -/
def scan (c : Cursor) : Except Fault (Text × Cursor) :=
  match c.rest with
  | [] => .error .malformed
  | quote :: _ => inside quote (c.rest.length + 1) c.next

end WireSchema.Yaml.Quoted
