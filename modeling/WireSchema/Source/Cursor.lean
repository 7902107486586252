import WireSchema.Source.Fault
import WireSchema.Source.Token
/-!
# Reading with a cursor

A parser moves a cursor over the tokens of a window and never past the end of
the input. A loop goes round at most once for each token left and once more,
which is enough wherever a round that does not end the loop takes a token; a
loop that would go on is told so by `Fault.depth`.
-/

namespace WireSchema.Source

/-- The tokens that are left, and the end of the input behind them. -/
structure Cursor where
  rest : List Token
  last : Token

namespace Cursor

/-- The cursor before all tokens of a list that closes with the end of the input. -/
def ofTokens (tokens : List Token) : Cursor :=
  { rest := tokens.dropLast
    last := tokens.getLastD
      { lexeme := .endOfInput, raw := [], start := 0, stop := 0, spaceBefore := false,
        lineBreak := true, docs := [] } }

/-- The token `ahead` places on, the end of the input if there are not so many. -/
def peek (c : Cursor) (ahead : Nat := 0) : Token := c.rest.getD ahead c.last

/-- The token `ahead` places on is the word or mark `text`. -/
def sees (c : Cursor) (text : Text) (ahead : Nat := 0) : Bool := (c.peek ahead).is text

/-- The tokens between the cursor `c` and the cursor `later`. -/
def upTo (c later : Cursor) : List Token := c.rest.take (c.rest.length - later.rest.length)

end Cursor

/-- A parser moves the cursor and answers, or finds a fault. -/
abbrev Parser := StateT Cursor (Except Fault)

namespace Parser

/-- Stops with a fault. -/
def fail (fault : Fault) : Parser α := fun _ => .error fault

/-- Rejects the source at a token. -/
def rejectAt (token : Token) (cause : Rejection) : Parser α := fail (.rejected cause token.start)

/-- Rejects the source at the present token. -/
def reject (cause : Rejection) : Parser α := do rejectAt (← get).peek cause

/-- Takes the present token; the end of the input stays. -/
def next : Parser Token := fun c =>
  match c.rest with
  | [] => .ok (c.last, c)
  | t :: rest => .ok (t, { c with rest })

/-- The token `ahead` places on. -/
def peek (ahead : Nat := 0) : Parser Token := do return (← get).peek ahead

/-- The token `ahead` places on is the word or mark `text`. -/
def sees (text : Text) (ahead : Nat := 0) : Parser Bool := do return (← get).sees text ahead

/-- Goes on with the parser if the condition holds. -/
def when (condition : Bool) (p : Parser Unit) : Parser Unit := if condition then p else return ()

/-- Takes the present token and drops it. -/
def skip : Parser Unit := do
  let _ ← next

/-- Takes the present token if it is the word or mark `text`. -/
def accept (text : Text) : Parser Bool := do
  if ← sees text then
    let _ ← next
    return true
  else
    return false

/-- Takes the present token if it is one of two words or marks. -/
def acceptEither (first second : Text) : Parser Bool := do
  if ← accept first then return true else accept second

/-- Takes the word or mark `text`, which has to come. -/
def expect (text : Text) : Parser Unit := do
  if ← accept text then return ()
  else reject (.expected text (← peek).raw)

/-- Takes a word, which has to come. -/
def expectName : Parser Text := do
  let token ← peek
  if token.isWord then
    let _ ← next
    return token.raw
  else reject (.expectedIdentifier token.raw)

/-- The text of the tokens since the cursor `start`. -/
def textSince (start : Cursor) : Parser Text := do return spell (start.upTo (← get))

/-- What a round of a loop comes to. -/
inductive Turn (σ β : Type) where
  | again (state : σ)
  | done (result : β)

/-- Goes round at most so many times. -/
def rounds (round : σ → Parser (Turn σ β)) : Nat → σ → Parser β
  | 0, _ => fail .depth
  | left + 1, state => do
    match ← round state with
    | .again state => rounds round left state
    | .done result => return result

/-- Goes round until a round is the last. -/
def loop (round : σ → Parser (Turn σ β)) (state : σ) : Parser β := do
  rounds round ((← get).rest.length + 1) state

/-- One more item if `separator` comes before it. -/
def separatedRound (separator : Text) (item : Parser α) (items : List α) :
    Parser (Turn (List α) (List α)) := do
  if ← accept separator then
    return .again ((← item) :: items)
  else
    return .done items.reverse

/-- An item, then more of them for as long as `separator` comes before. -/
def separated (separator : Text) (item : Parser α) : Parser (List α) := do
  let first ← item
  loop (separatedRound separator item) [first]

/-- One more item unless `closer` comes; the last one if no comma comes behind it. -/
def listedRound (closer : Text) (item : Parser α) (items : List α) :
    Parser (Turn (List α) (List α)) := do
  if ← sees closer then return .done items.reverse
  else
    let items := (← item) :: items
    if ← accept "," then return .again items
    else return .done items.reverse

/-- Items with commas between them up to the mark `closer`, which is not taken;
one comma may come last. Stops early where no comma comes. -/
def listed (closer : Text) (item : Parser α) : Parser (List α) :=
  loop (listedRound closer item) []

/-! ## Brackets -/

/-- The mark that closes an opening bracket. -/
def closerOf? (opener : Text) : Option Text :=
  if opener = "(" then some ")"
  else if opener = "[" then some "]"
  else if opener = "\x7b" then some "\x7d"
  else if opener = "<" then some ">"
  else none

/-- Takes tokens up to the closer of the first opening bracket. Closers that do
not belong to the bracket that was opened last are passed over. -/
def skipBalanced : Parser Unit :=
  loop (fun (closers : List Text) => do
    let token ← next
    if token.isEnd then rejectAt token .unbalancedBrackets
    else if token.isMark then
      match closerOf? token.raw, closers with
      | some closer, _ => return .again (closer :: closers)
      | none, closer :: outer =>
        if token.raw = closer then
          return if outer.isEmpty then .done () else .again outer
        else return .again closers
      | none, [] => return .again closers
    else return .again closers) []

/-- How many tokens stand before the closer that matches, with `depth` brackets
of this kind open, or before the end. Other brackets do not count. -/
def closerIndex (opener closer : Text) (depth : Nat) : List Token → Nat
  | [] => 0
  | t :: rest =>
    if t.isMark && t.raw == opener then 1 + closerIndex opener closer (depth + 1) rest
    else if t.isMark && t.raw == closer then
      if depth ≤ 1 then 0 else 1 + closerIndex opener closer (depth - 1) rest
    else 1 + closerIndex opener closer depth rest

end Parser

end WireSchema.Source
