import WireSchema.Text.Blank
/-!
# Console markup

Tags in brackets style what the console prints. A backslash before a tag makes
it text, and two backslashes before a tag stand for one. The console has no
colours here, so reading markup leaves its text.
-/

namespace WireSchema.Markup

/-- A closing tag closes nothing. -/
inductive Fault where
  | unopened
deriving DecidableEq

/-- The code point may come first in a tag. -/
def startsTag (c : CodePoint) : Bool := c.isBetween 'a' 'z' || c == '#' || c == '/' || c == '@'

/-- The inside of the tag that a text begins with. -/
def tag? : Text → Option Text
  | bracket :: c :: rest =>
    if bracket = '[' ∧ startsTag c then
      let inside := rest.takeWhile fun d : CodePoint => !(d == '[' || d == ']')
      if Text.startsWith (rest.drop inside.length) "]" then some (c :: inside) else none
    else none
  | _ => none

/-- A piece of markup. -/
inductive Piece where
  | text (t : Text)
  /-- A tag behind backslashes. -/
  | tag (backslashes : Nat) (inside : Text)

/-- The pieces of markup. `backslashes` came last, and `skip` code points belong
to a tag that was read. -/
def pieces (backslashes skip : Nat) : Text → List Piece
  | [] => [.text (Text.times "\\" backslashes)]
  | c :: rest =>
    match skip with
    | skip + 1 => pieces 0 skip rest
    | 0 =>
      if c = '\\' then pieces (backslashes + 1) 0 rest
      else
        match tag? (c :: rest) with
        | some inside => .tag backslashes inside :: pieces 0 (inside.length + 1) rest
        | none =>
          match pieces 0 0 rest with
          | .text t :: more => .text (Text.times "\\" backslashes ++ c :: t) :: more
          | more => .text (Text.times "\\" backslashes ++ [c]) :: more

/-- Markup that stands for a text. -/
def escape (t : Text) : Text :=
  let parts := (pieces 0 0 t).map fun
    | .text t => t
    | .tag n inside => Text.times "\\" (2 * n + 1) ++ "[" ++ inside ++ "]"
  let whole := parts.flatten
  if Text.endsWith whole "\\" && !Text.endsWith whole "\\\\" then whole ++ "\\" else whole

/-- The name of a tag. -/
def tagName (inside : Text) : Text := (Text.trim (Text.splitFirst '=' inside).1).map lower
where
  lower (c : CodePoint) : CodePoint :=
    if c.isBetween 'A' 'Z' then (CodePoint.ofNat? (c.val + 0x20)).getD c else c

/-- The tags that are open behind a tag, latest first. -/
def openTags (opened : List Text) (inside : Text) : Except Fault (List Text) :=
  let name := (Text.splitFirst '=' inside).1
  if Text.startsWith name "/" then
    let closes := tagName (name.drop 1)
    if closes.isEmpty then
      match opened with
      | [] => .error .unopened
      | _ :: others => .ok others
    else if opened.contains closes then .ok (opened.erase closes) else .error .unopened
  else .ok (tagName name :: opened)

/-- Text without the signs that would move the console's cursor. A backslash
before a bracket is dropped. -/
def shown (t : Text) : Text :=
  (Text.replace "\\[" "[" t).filter fun c =>
    !(c.val == 7 || c.val == 8 || (11 ≤ c.val && c.val ≤ 13))

/-- The text of pieces. -/
def readPieces (opened : List Text) : List Piece → Except Fault Text
  | [] => .ok []
  | .text t :: rest => do return shown t ++ (← readPieces opened rest)
  | .tag n inside :: rest => do
    let before := Text.times "\\" (n / 2)
    if n % 2 = 1 then
      return before ++ shown ("[" ++ inside ++ "]") ++ (← readPieces opened rest)
    else return before ++ (← readPieces (← openTags opened inside) rest)

/-- The text that the console prints for markup. -/
def read (markup : Text) : Except Fault Text := readPieces [] (pieces 0 0 markup)

end WireSchema.Markup
