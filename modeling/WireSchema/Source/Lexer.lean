import WireSchema.Source.Fault
import WireSchema.Source.Token
import WireSchema.Text.Alphanumeric
/-!
# Reading tokens

`tokenize source start stop` reads the tokens that begin in a window of the
source. A token that begins in the window may end behind it where only its own
code points tell its end: a word, a number, an arrow. Strings, templates and
comments have to be closed inside the window.

All scanners look at the text from the present offset on. They answer with the
number of code points that they take after the first one, so that reading goes
on strictly later.
-/

namespace WireSchema

namespace CodePoint

/-- May begin a word: an ASCII letter, `_`, `$`, or anything from U+00A0 to U+FFFF. -/
def beginsWord (c : CodePoint) : Bool :=
  c.isLetter || c == '_' || c == '$' || (0xA0 ≤ c.val && c.val ≤ 0xFFFF)

/-- May go on with a word: what may begin one, a letter or a number. -/
def continuesWord (c : CodePoint) : Bool := c.beginsWord || c.isWord

/-- A punctuation mark of its own. -/
def isPunctuation (c : CodePoint) : Bool :=
  (Text.ofString "\x7b\x7d()[]<>,;:?|&=.-+!*@#~^%/").contains c

end CodePoint

namespace Source

/-! ## Numbers -/

/-- How many code points at the start satisfy `p`. -/
def runLength (p : CodePoint → Bool) (t : Text) : Nat := (t.takeWhile p).length

/-- The `n` that ends a number too large for a double. -/
def bigMarkLength (t : Text) : Nat := if Text.startsWith t "n" then 1 else 0

/-- The length of a sign, zero if there is none. -/
def signLength (t : Text) : Nat :=
  match t with
  | s :: _ => if s = '+' ∨ s = '-' then 1 else 0
  | [] => 0

/-- The length of an exponent, zero if there is none. -/
def exponentLength (t : Text) : Nat :=
  match t with
  | c :: rest =>
    if c = 'e' ∨ c = 'E' then
      match runLength CodePoint.isDecimal (rest.drop (signLength rest)) with
      | 0 => 0
      | digits + 1 => 1 + signLength rest + (digits + 1)
    else 0
  | [] => 0

/-- The length of digits that may be parted by underscores, zero if no digit comes first. -/
def digitsLength (t : Text) : Nat :=
  match t with
  | c :: rest => if c.isDecimal then 1 + runLength (fun d => d.isDecimal || d == '_') rest else 0
  | [] => 0

/-- The digits of a number with the mark `x` of its base, if that marks one. -/
def markedDigit? (x : CodePoint) : Option (CodePoint → Bool) :=
  if x = 'x' ∨ x = 'X' then
    some fun c => c.isBetween '0' '9' || c.isBetween 'a' 'f' || c.isBetween 'A' 'F' || c == '_'
  else if x = 'b' ∨ x = 'B' then some fun c => c == '0' || c == '1' || c == '_'
  else if x = 'o' ∨ x = 'O' then some fun c => c.isBetween '0' '7' || c == '_'
  else none

/-- The length of a number with a mark of its base (`0x`, `0b`, `0o`), zero if there is none. -/
def markedNumberLength (t : Text) : Nat :=
  match t with
  | z :: x :: rest =>
    if z = '0' then
      match markedDigit? x with
      | none => 0
      | some isDigit =>
        match runLength isDigit rest with
        | 0 => 0
        | digits + 1 => 2 + (digits + 1) + bigMarkLength (rest.drop (digits + 1))
    else 0
  | _ => 0

/-- The length of a dot and the digits behind it, zero if no dot comes first. -/
def fractionLength (t : Text) : Nat :=
  if Text.startsWith t "." then 1 + runLength (fun d => d.isDecimal || d == '_') (t.drop 1) else 0

/-- The length of a decimal number without an exponent, zero if there is none. -/
def mantissaLength (t : Text) : Nat :=
  match digitsLength t with
  | 0 =>
    if Text.startsWith t "." then
      match digitsLength (t.drop 1) with
      | 0 => 0
      | digits + 1 => 1 + (digits + 1)
    else 0
  | whole + 1 => (whole + 1) + fractionLength (t.drop (whole + 1))

/-- The length of a decimal number, zero if there is none. -/
def decimalNumberLength (t : Text) : Nat :=
  match mantissaLength t with
  | 0 => 0
  | body + 1 =>
    let length := (body + 1) + exponentLength (t.drop (body + 1))
    length + bigMarkLength (t.drop length)

/-- The length of a number at the start of the text, zero if there is none. -/
def numberLength (t : Text) : Nat :=
  match markedNumberLength t with
  | 0 => decimalNumberLength t
  | n + 1 => n + 1

/-! ## Literals -/

/-- The offset, counted from the start of the text, of the quote that closes a
string, if one stands within `room` code points and before a line feed. -/
def closingQuote (mark : CodePoint) : Nat → Text → Except Fault (Option Nat)
  | 0, _ => .ok none
  | _ + 1, [] => .error .pastEnd
  | room + 1, c :: rest =>
    if c = '\\' then
      match rest with
      | [] => if room - 1 = 0 then .ok none else .error .pastEnd
      | _ :: after => do return (← closingQuote mark (room - 1) after).map (· + 2)
    else if c = mark then .ok (some 0)
    else if c = '\n' then .ok none
    else do return (← closingQuote mark room rest).map (· + 1)

/-- The offset of the brace that closes a hole. Quoted text in the hole runs to
the next quote of its kind, `quoted` being the quote and where it stands; `depth`
counts open braces, `at_` is the offset of the text. -/
def holeEnd (stop : Nat) (quoted : Option (CodePoint × Nat)) (depth at_ : Nat) :
    Text → Except Fault Nat
  | [] =>
    match quoted with
    | some (_, opened) => .error (.rejected .unterminatedHole opened)
    | none => if at_ < stop then .error .pastEnd else .error (.rejected .unterminatedHole at_)
  | c :: rest =>
    match quoted with
    | some (mark, opened) =>
      if c = mark then holeEnd stop none depth (at_ + 1) rest
      else holeEnd stop (some (mark, opened)) depth (at_ + 1) rest
    | none =>
      if stop ≤ at_ then .error (.rejected .unterminatedHole at_)
      else if c = '"' ∨ c = '\'' ∨ c = '`' then
        holeEnd stop (some (c, at_)) depth (at_ + 1) rest
      else if c = '\x7b' then holeEnd stop none (depth + 1) (at_ + 1) rest
      else if c = '\x7d' then
        match depth with
        | 0 => .ok at_
        | depth + 1 => holeEnd stop none depth (at_ + 1) rest
      else holeEnd stop none depth (at_ + 1) rest

/-- The parts of a template literal that was opened at `opened`, and the offset
of the mark that closes it. `skip` code points of the text have been dealt with;
`chunk` is what was read of the present chunk, last code point first. -/
def templateParts (opened stop : Nat) (skip at_ : Nat) (chunk : Text) :
    Text → Except Fault (List TemplatePart × Nat)
  | [] =>
    if at_ + skip < stop then .error .pastEnd else .error (.rejected .unterminatedTemplate opened)
  | c :: rest =>
    match skip with
    | skip + 1 => templateParts opened stop skip (at_ + 1) chunk rest
    | 0 =>
      if stop ≤ at_ then .error (.rejected .unterminatedTemplate opened)
      else if c = '\\' then
        templateParts opened stop 1 (at_ + 1) ((rest.take 1) ++ c :: chunk) rest
      else if c = '`' then do
        let text ← (Text.unescape chunk.reverse).mapError .escape
        return ([.chunk text], at_)
      else if c = '$' ∧ rest.head? = some (CodePoint.ofChar '\x7b') then do
        let text ← (Text.unescape chunk.reverse).mapError .escape
        let close ← holeEnd stop none 0 (at_ + 2) (rest.drop 1)
        let (parts, last) ← templateParts opened stop (close - at_) (at_ + 1) [] rest
        return (.chunk text :: .hole (at_ + 2) close :: parts, last)
      else templateParts opened stop 0 (at_ + 1) (c :: chunk) rest

/-! ## Tokens and gaps -/

/-- What stands between two tokens. -/
structure Gap where
  docs : List Text := []
  space : Bool := false
  lineBreak : Bool := false
deriving DecidableEq

/-- What begins at an offset: more of the gap, or a token. The number counts the
code points after the first one. -/
inductive Piece where
  | gap (gap : Gap) (more : Nat)
  | token (lexeme : Lexeme) (more : Nat)

/-- The comment `/* … */` that the text starts with. -/
def blockComment (stop at_ : Nat) (gap : Gap) (text : Text) : Except Fault Piece :=
  match Text.indexOf? "*/" (text.drop 2) with
  | none => .error (.rejected .unterminatedComment at_)
  | some n =>
    if stop < at_ + n + 4 then .error (.rejected .unterminatedComment at_)
    else
      let comment := text.take (n + 4)
      let isDoc := Text.startsWith text "/**" && !Text.startsWith text "/**/"
      .ok (.gap
        { docs := if isDoc then gap.docs ++ [comment] else gap.docs
          space := true
          lineBreak := gap.lineBreak || comment.contains '\n' } (n + 3))

/-- The comment that runs to a line feed, which is not part of it, or else to
the end of the window. -/
def lineComment (stop at_ : Nat) (gap : Gap) (text : Text) : Piece :=
  let length := (text.takeWhile (· ≠ CodePoint.ofChar '\n')).length
  let taken := if length = text.length then stop - at_ else length
  .gap { gap with space := true } (taken - 1)

/-- What begins with the code point `c`, at the offset `at_`, before `rest`. -/
def readPiece (stop at_ : Nat) (gap : Gap) (c : CodePoint) (rest : Text) : Except Fault Piece :=
  let text := c :: rest
  if c.isBlank then
    .ok (.gap { gap with space := true, lineBreak := gap.lineBreak || c == '\n' } 0)
  else if Text.startsWith text "/*" then blockComment stop at_ gap text
  else if Text.startsWith text "//" then .ok (lineComment stop at_ gap text)
  else if c = '"' ∨ c = '\'' then do
    match ← closingQuote c (stop - at_ - 1) rest with
    | none => .error (.rejected .unterminatedString at_)
    | some n =>
      let value ← (Text.unescape (rest.take n)).mapError .escape
      return .token (.string value) (n + 1)
  else if c = '`' then do
    let (parts, last) ← templateParts at_ stop 0 (at_ + 1) [] rest
    return .token (.template parts) (last - at_)
  else if c.isDigit || (c == '.' && (rest.head?.map CodePoint.isDigit).getD false) then
    match numberLength text with
    | 0 => .error .numeral
    | n + 1 => .ok (.token .number n)
  else if c.beginsWord then .ok (.token .word (runLength CodePoint.continuesWord rest))
  else if Text.startsWith text "..." then .ok (.token .mark 2)
  else if Text.startsWith text "=>" then .ok (.token .mark 1)
  else if c.isPunctuation then .ok (.token .mark 0)
  else .error (.rejected (.unexpectedCharacter c) at_)

/-- The tokens that begin before `stop`, then the end of the input. -/
def tokensFrom (stop at_ : Nat) (gap : Gap) (text : Text) : Except Fault (List Token) :=
  if stop ≤ at_ then
    .ok [{ lexeme := .endOfInput, raw := [], start := stop, stop := stop, spaceBefore := gap.space,
           lineBreak := true, docs := gap.docs }]
  else
    match text with
    | [] => .error .pastEnd
    | c :: rest =>
      match readPiece stop at_ gap c rest with
      | .error fault => .error fault
      | .ok (.gap gap more) => tokensFrom stop (at_ + more + 1) gap (rest.drop more)
      | .ok (.token lexeme more) =>
        match tokensFrom stop (at_ + more + 1) {} (rest.drop more) with
        | .error fault => .error fault
        | .ok tokens =>
          .ok ({ lexeme, raw := c :: rest.take more, start := at_, stop := at_ + more + 1,
                 spaceBefore := gap.space, lineBreak := gap.lineBreak, docs := gap.docs } :: tokens)
termination_by text.length
decreasing_by
  all_goals
    rw [List.length_drop, List.length_cons]
    exact Nat.lt_succ_of_le (Nat.sub_le _ _)

/-- The tokens of a window of the source. The last one is the end of the input. -/
def tokenize (source : Text) (start stop : Nat) : Except Fault (List Token) :=
  tokensFrom stop start {} (source.drop start)

end Source

end WireSchema
