import WireSchema.Yaml.Name
import WireSchema.Yaml.Scalar.Block
import WireSchema.Yaml.Scalar.Plain
import WireSchema.Yaml.Scalar.Quoted
/-!
# From YAML text to tokens

A key of a mapping shows itself as one only at the colon behind it. So each
place where a key may begin is kept, one for each pair of brackets around it,
and the token for the key is put there when the colon comes, if that is on the
same line and no more than 1024 code points on.
-/

namespace WireSchema.Yaml

/-- A place where a key may begin. -/
structure KeyPlace where
  /-- How many tokens come before it. -/
  tokenCount : Nat
  /-- Nothing but a key can stand there. -/
  isRequired : Bool
  index : Nat
  line : Nat
  column : Nat

/-- A text that is being cut into tokens. -/
structure Lexer where
  cursor : Cursor
  /-- The tokens so far, latest first. -/
  tokens : List Token := []
  /-- The columns of the collections without brackets that are open, innermost first. -/
  columns : List Nat := []
  /-- A key without a question mark may begin here. -/
  allowsKey : Bool := true
  /-- The place for a key inside the innermost brackets. -/
  place : Option KeyPlace := none
  /-- The places for keys around each pair of brackets, innermost first. -/
  outer : List (Option KeyPlace) := []

/-- A step that reads on, or finds a fault. -/
abbrev Lexing := StateT Lexer (Except Fault)

namespace Lexer

def inBrackets (s : Lexer) : Bool := !s.outer.isEmpty

/-- The least column for what is inside the innermost collection. -/
def least (s : Lexer) : Nat := s.columns.head?.elim 0 (· + 1)

/-- A place for a key is past when the cursor is on another line or far away. -/
def isStale (s : Lexer) (p : KeyPlace) : Bool :=
  p.line != s.cursor.line || 1024 < s.cursor.index - p.index

/-- Puts tokens before all but the first `count` tokens, the last one first. -/
def insert (s : Lexer) (count : Nat) (new : List Token) : Lexer :=
  let after := s.tokens.length - count
  { s with tokens := s.tokens.take after ++ new ++ s.tokens.drop after }

/-- Closes the collections that begin further right than a column. -/
def closeBeyond (column : Nat) : List Nat → List Token → List Nat × List Token
  | [], tokens => ([], tokens)
  | c :: columns, tokens =>
    if column < c then closeBeyond column columns (.blockEnd :: tokens) else (c :: columns, tokens)

end Lexer

namespace Lexing

def fail : Lexing α := fun _ => .error .malformed

def emit (t : Token) : Lexing Unit := modify fun s => { s with tokens := t :: s.tokens }

/-- Takes a sign of `n` code points as a token. -/
def take (n : Nat) (t : Token) : Lexing Unit :=
  modify fun s => { s with tokens := t :: s.tokens, cursor := s.cursor.skip n }

def allowKey (allowsKey : Bool) : Lexing Unit := modify fun s => { s with allowsKey }

/-- Gives up the place for a key inside the innermost brackets. -/
def dropPlace : Lexing Unit := do
  let s ← get
  if s.place.any (·.isRequired) then fail
  else set { s with place := none }

/-- Gives up the places that are past. -/
def dropStale : Lexing Unit := do
  let s ← get
  if (s.place :: s.outer).any fun p => p.any fun p => p.isRequired && s.isStale p then fail
  else
    let fresh (p : Option KeyPlace) : Option KeyPlace := p.filter (!s.isStale ·)
    set { s with place := fresh s.place, outer := s.outer.map fresh }

/-- Keeps the present place for a key, where one may begin. -/
def keepPlace : Lexing Unit := do
  let s ← get
  if s.allowsKey then
    dropPlace
    let place : KeyPlace :=
      { tokenCount := s.tokens.length
        isRequired := !s.inBrackets && s.columns.head? == some s.cursor.column
        index := s.cursor.index, line := s.cursor.line, column := s.cursor.column }
    modify fun s => { s with place := some place }

/-- Closes the collections without brackets that begin further right than the
present column. -/
def closeToColumn : Lexing Unit := modify fun s =>
  if s.inBrackets then s
  else
    let (columns, tokens) := Lexer.closeBeyond s.cursor.column s.columns s.tokens
    { s with columns, tokens }

/-- Closes all collections without brackets, unless brackets are open. -/
def closeAll : Lexing Unit := modify fun s =>
  if s.inBrackets then s
  else
    { s with columns := [], tokens := List.replicate s.columns.length .blockEnd ++ s.tokens }

/-- Opens a collection at a column, if that is further right than the innermost
one. Says whether it did. -/
def openAt (column : Nat) : Lexing Bool := do
  let s ← get
  if s.least ≤ column then
    set { s with columns := column :: s.columns }
    return true
  else
    return false

/-- Passes spaces, comments and line ends. -/
def skipToToken : Nat → Lexing Unit
  | 0 => fail
  | fuel + 1 => do
    let s ← get
    let c := s.cursor.skipSpaces
    let c := if c.sees "#" then c.skipWhile isNotBreak else c
    match c.lineBreak? with
    | none => set { s with cursor := c }
    | some (_, c) =>
      set { s with cursor := c, allowsKey := s.allowsKey || !s.inBrackets }
      skipToToken fuel

/-- Takes a token that closes all collections: a directive or a document's mark. -/
def boundary (scan : Cursor → Except Fault (Token × Cursor)) : Lexing Unit := do
  closeAll
  dropPlace
  allowKey false
  let s ← get
  let (t, cursor) ← scan s.cursor
  set { s with cursor, tokens := t :: s.tokens }

/-- Takes the opening bracket of a collection. -/
def openBracket (t : Token) : Lexing Unit := do
  keepPlace
  modify fun s => { s with outer := s.place :: s.outer, place := none }
  allowKey true
  take 1 t

/-- Takes the closing bracket of a collection. -/
def closeBracket (t : Token) : Lexing Unit := do
  dropPlace
  let s ← get
  match s.outer with
  | [] => fail
  | place :: outer =>
    set { s with place, outer }
    allowKey false
    take 1 t

def comma : Lexing Unit := do
  allowKey true
  dropPlace
  take 1 .comma

/-- Takes the dash before an item. -/
def item : Lexing Unit := do
  let s ← get
  if !s.inBrackets then
    if !s.allowsKey then fail
    if ← openAt s.cursor.column then emit .blockSequence
  allowKey true
  dropPlace
  take 1 .item

/-- Takes a question mark before a key. -/
def key : Lexing Unit := do
  let s ← get
  if !s.inBrackets then
    if !s.allowsKey then fail
    if ← openAt s.cursor.column then emit .blockMapping
  allowKey (!s.inBrackets)
  dropPlace
  take 1 .key

/-- Takes the colon before a value. What stands at the place for a key is a key. -/
def value : Lexing Unit := do
  let s ← get
  match s.place with
  | some p =>
    modify fun s => { s with place := none }
    let opened ← if s.inBrackets then pure false else openAt p.column
    modify (·.insert p.tokenCount (if opened then [.key, .blockMapping] else [.key]))
    allowKey false
  | none =>
    if !s.inBrackets then
      if !s.allowsKey then fail
      if ← openAt s.cursor.column then emit .blockMapping
    allowKey (!s.inBrackets)
  take 1 .value

/-- Takes a part of a node that may begin a key. -/
def nodePart (scan : Cursor → Except Fault (Token × Cursor)) : Lexing Unit := do
  keepPlace
  allowKey false
  let s ← get
  let (t, cursor) ← scan s.cursor
  set { s with cursor, tokens := t :: s.tokens }

def quoted : Lexing Unit :=
  nodePart fun c => do
    let (text, c) ← Quoted.scan c
    return (.scalar text false, c)

def plain : Lexing Unit := do
  keepPlace
  let s ← get
  let (text, hasBreak, cursor) := Plain.scan s.inBrackets s.least s.cursor
  set { s with cursor, tokens := .scalar text true :: s.tokens, allowsKey := hasBreak }

def block : Lexing Unit := do
  allowKey true
  dropPlace
  let s ← get
  let (text, cursor) ← Block.scan s.least s.cursor
  set { s with cursor, tokens := .scalar text false :: s.tokens }

/-- The sign that stands here is followed by a gap; inside brackets it need not be. -/
def isSign (s : Lexer) : Bool := s.inBrackets || isGap (s.cursor.peek 1)

/-- Takes the next token. Says whether there was one. -/
def token : Lexing Bool := do
  skipToToken ((← get).cursor.rest.length + 1)
  dropStale
  closeToColumn
  let s ← get
  let c := s.cursor
  match c.peek with
  | none =>
    closeAll
    dropPlace
    return false
  | some x =>
    if x = '%' ∧ c.column = 0 then boundary scanDirective
    else if c.column = 0 ∧ c.seesDocumentMark then
      boundary fun c =>
        .ok (if x = '-' then .documentStart else .documentEnd, c.skip 3)
    else if x = '[' then openBracket .listOpen
    else if x = '\x7b' then openBracket .mappingOpen
    else if x = ']' then closeBracket .listClose
    else if x = '\x7d' then closeBracket .mappingClose
    else if x = ',' then comma
    else if x = '-' ∧ isGap (c.peek 1) then item
    else if x = '?' ∧ isSign s then key
    else if x = ':' ∧ isSign s then value
    else if x = '*' then
      nodePart fun c => do
        let (name, c) ← scanAnchor c
        return (.reference name, c)
    else if x = '&' then
      nodePart fun c => do
        let (name, c) ← scanAnchor c
        return (.anchor name, c)
    else if x = '!' then nodePart scanTag
    else if (x = '|' ∨ x = '>') ∧ !s.inBrackets then block
    else if x = '\'' ∨ x = '"' then quoted
    else if Plain.canStart s.inBrackets c then plain
    else fail
    return true

/-- The tokens from here on, as far as there are any. -/
def tokens : Nat → Lexer → List Token
  | 0, s => s.tokens.reverse
  | fuel + 1, s =>
    match token.run s with
    | .error fault => (.fault fault :: s.tokens).reverse
    | .ok (true, s) => tokens fuel s
    | .ok (false, s) => s.tokens.reverse

end Lexing

/-- The tokens of a text. A text that cannot be read to its end gives a fault as
its last token. -/
def tokenize (t : Text) : List Token :=
  if t.all isAllowed then
    let start : Cursor :=
      match t with
      | [] => { rest := [] }
      | c :: rest => if c.val = 0xFEFF then { rest, index := 1 } else { rest := t }
    Lexing.tokens (t.length + 1) { cursor := start }
  else [.fault .malformed]

end WireSchema.Yaml
