import WireSchema.Declaration.TypeExpr
import WireSchema.Doc.Block
import WireSchema.Source.Cursor
import WireSchema.Source.Lexer
import WireSchema.Text.Quoted
/-!
# The grammar of types

From the loosest to the tightest: conditional types, unions, intersections,
operators, postfixes, primary types. Each rule is given the parsers for what it
nests, so no rule calls itself; `Rules.upTo` ties the knot for types nested at
most `n` deep. Whatever nests a type takes a token first, so the nesting is
never deeper than the source is long.
-/

namespace WireSchema

open Source Source.Parser

/-- The parsers a rule uses for what it nests. -/
structure Rules where
  /-- A whole type. -/
  type : Parser TypeExpr
  /-- A type without loose operators at its top. -/
  operand : Parser TypeExpr
  /-- The type in the hole of a template that stands between two offsets. -/
  hole : Nat → Nat → Except Fault TypeExpr

namespace TypeGrammar

/-- The names that stand for a type of their own. -/
def keywords : List Text :=
  ["string", "number", "boolean", "any", "unknown", "never", "null", "undefined", "void",
   "object", "bigint", "symbol", "this"]

/-- The words that make an operator of a type before it. -/
def operatorWords : List Text := ["keyof", "unique", "readonly"]

/-- One more name if a dot and a word come. -/
def qualifiedRound (parts : List Text) : Parser (Turn (List Text) (List Text)) := do
  if (← sees ".") && (← peek 1).isWord then
    let _ ← next
    return .again ((← next).raw :: parts)
  else
    return .done parts.reverse

/-- A name, with further names after dots. -/
def qualifiedName : Parser Text := do
  let first ← expectName
  let parts ← loop qualifiedRound [first]
  return Text.join "." parts

/-- A type, or a type predicate: `asserts x`, `x is T`. -/
def returnType (rules : Rules) : Parser TypeExpr := do
  let start ← get
  when ((← sees "asserts") && (← peek 1).isWord) skip
  let type ← rules.type
  if ← accept "is" then
    let _ ← rules.type
    return .verbatim (← textSince start) .typePredicate
  else
    return type

/-- A function type; its parameters are not looked into. -/
def functionType (rules : Rules) : Parser TypeExpr := do
  let start ← get
  when (← sees "<") skipBalanced
  when (!(← sees "(")) (reject .expectedParameters)
  skipBalanced
  expect "=>"
  let _ ← returnType rules
  return .verbatim (← textSince start) .function

/-- A function type begins here: type parameters, or parentheses with an arrow
after the one that closes them. -/
def beginsFunction (c : Cursor) : Bool :=
  c.sees "<" || (c.sees "(" && c.sees "=>" (closerIndex "(" ")" 0 c.rest + 1))

/-- A mapped type begins here: `{ [K in`, with modifiers in between. -/
def beginsMapped (c : Cursor) : Bool :=
  let i := if (c.peek 1).isOneOf ["+", "-"] then 2 else 1
  let i := if c.sees "readonly" i then i + 1 else i
  c.sees "[" i && (c.peek (i + 1)).isWord && c.sees "in" (i + 2)

/-! ## Members of object shapes -/

/-- The word is a modifier of the member here and not its name. -/
def beginsModified (word : Text) (c : Cursor) : Bool :=
  let following := c.peek 1
  c.sees word &&
    (following.isWord || following.isString || following.isNumber || following.isOneOf ["["])

/-- Passes over brackets, an annotation or another token of a signature. -/
def skipPiece (rules : Rules) : Parser Unit := do
  if (← peek).isOneOf ["(", "[", "\x7b", "<"] then skipBalanced
  else if ← acceptEither ":" "=>" then
    let _ ← rules.type
  else skip

/-- One more piece of a signature, unless it ends here. -/
def signatureRound (rules : Rules) (_ : Unit) : Parser (Turn Unit Unit) := do
  let c ← get
  if c.sees ";" || c.sees "," || c.sees "\x7d" || c.peek.isEnd then return .done ()
  else
    skipPiece rules
    return .again ()

/-- Passes over an index, call or construct signature with its annotation. -/
def skipSignature (rules : Rules) : Parser Unit := loop (signatureRound rules) ()

/-- The text of the result of a method, `any` if none is given. -/
def resultText (rules : Rules) : Parser Text := do
  if ← accept ":" then return (← returnType rules).text
  else return "any"

/-- The parameters and the result of a method, as a function type. -/
def methodType (rules : Rules) : Parser TypeExpr := do
  let start ← get
  when (← sees "<") skipBalanced
  skipBalanced
  let parameters ← textSince start
  let result ← resultText rules
  return .verbatim (parameters ++ " => " ++ result) .function

/-- Passes over `readonly` where it modifies the member. -/
def readonlyRound (_ : Unit) : Parser (Turn Unit Unit) := do
  if beginsModified "readonly" (← get) then
    let _ ← next
    return .again ()
  else
    return .done ()

/-- The type of a member behind its name, `any` if none is given. -/
def memberType (rules : Rules) : Parser TypeExpr := do
  let c ← get
  if c.sees "(" || c.sees "<" then methodType rules
  else if ← accept ":" then rules.type
  else return .keyword "any"

/-- A member; a signature without a name is passed over. -/
def member (rules : Rules) : Parser (Option (Property TypeExpr)) := do
  let docs := DocComment.ofBlocks (← peek).docs
  loop readonlyRound ()
  let c ← get
  if c.sees "[" || c.sees "(" || c.sees "<" then
    skipSignature rules
    return none
  else if c.sees "new" && (c.sees "(" 1 || c.sees "<" 1) then
    let _ ← next
    skipSignature rules
    return none
  else if (c.sees "get" || c.sees "set") && ((c.peek 1).isWord || (c.peek 1).isString) then
    skipSignature rules
    return none
  else
    let name ← next
    when (!(name.isWord || name.isString || name.isNumber))
      (rejectAt name (.unexpectedInObject name.raw))
    let isOptional ← accept "?"
    let type ← memberType rules
    return some { name := name.value, isOptional, type, docs }

/-- Passes over a semicolon or a comma. -/
def separatorRound (_ : Unit) : Parser (Turn Unit Unit) := do
  if ← acceptEither ";" "," then return .again () else return .done ()

/-- One more member with the separators behind it, unless a brace comes. -/
def membersRound (rules : Rules) (found : List (Property TypeExpr)) :
    Parser (Turn (List (Property TypeExpr)) (List (Property TypeExpr))) := do
  let c ← get
  if c.sees "\x7d" then return .done found.reverse
  else
    when c.peek.isEnd (reject .unterminatedObject)
    let found := (← member rules).toList ++ found
    loop separatorRound ()
    return .again found

/-- Members between braces, with any number of semicolons and commas after each. -/
def members (rules : Rules) : Parser (List (Property TypeExpr)) := do
  expect "\x7b"
  let found ← loop (membersRound rules) []
  expect "\x7d"
  return found

/-! ## Primary types -/

/-- The name of a tuple element with its colon, if there is one; the answer is
whether it is optional. -/
def elementName : Parser Bool := do
  let c ← get
  if c.peek.isWord && (c.sees ":" 1 || (c.sees "?" 1 && c.sees ":" 2)) then
    let _ ← next
    let isOptional ← accept "?"
    expect ":"
    return isOptional
  else return false

/-- One more element of a tuple unless a bracket comes; the last one if no comma
comes behind it. -/
def tupleRound (rules : Rules) (state : List TypeExpr × Bool) :
    Parser (Turn (List TypeExpr × Bool) (List TypeExpr × Bool)) := do
  let (elements, variadic) := state
  if ← sees "]" then return .done (elements.reverse, variadic)
  else
    let isRest ← accept "..."
    let isNameOptional ← elementName
    let element ← rules.type
    let isOptional ← accept "?"
    let elements := element :: elements
    let variadic := variadic || isRest || isNameOptional || isOptional
    if ← accept "," then return .again (elements, variadic)
    else return .done (elements.reverse, variadic)

/-- A tuple; its elements may have names, which do not matter. -/
def tuple (rules : Rules) : Parser TypeExpr := do
  let start ← get
  expect "["
  let (elements, variadic) ← loop (tupleRound rules) ([], false)
  expect "]"
  return .tuple elements (← textSince start) variadic

/-- Type arguments, which follow a name without a gap. -/
def typeArguments (rules : Rules) : Parser (List TypeExpr) := do
  let c ← get
  if c.sees "<" && !c.peek.spaceBefore then
    skip
    let arguments ← listed ">" rules.type
    expect ">"
    return arguments
  else return []

/-- A reference to a named type. -/
def reference (rules : Rules) : Parser TypeExpr := do
  let start ← get
  let name ← qualifiedName
  let arguments ← typeArguments rules
  return .reference name arguments (← textSince start)

/-- The spans of a template literal, the types in its holes read. -/
def templateSpans (rules : Rules) : List TemplatePart → Except Fault (List (Span TypeExpr))
  | [] => .ok []
  | .chunk text :: rest => do return .chunk text :: (← templateSpans rules rest)
  | .hole start stop :: rest => do
    let type ← rules.hole start stop
    return .hole type :: (← templateSpans rules rest)

/-- A type that begins with a word. -/
def wordType (rules : Rules) (word : Text) : Parser TypeExpr := do
  let start ← get
  if word = "true" ∨ word = "false" then
    let _ ← next
    return .literal word
  else if word = "new" ∨ (word = "abstract" ∧ start.sees "new" 1) then
    loop (fun () => do
      let c ← get
      if c.peek.isEnd || c.sees "(" || c.sees "<" then return .done ()
      else
        let _ ← next
        return .again ()) ()
    let _ ← functionType rules
    return .verbatim (← textSince start) .constructor
  else if word = "typeof" then
    let _ ← next
    let _ ← qualifiedName
    let c ← get
    when (c.sees "<" && !c.peek.spaceBefore) skipBalanced
    return .verbatim (← textSince start) .typeQuery
  else if word = "import" ∧ start.sees "(" 1 then
    let _ ← next
    skipBalanced
    loop (fun () => do
      if ← accept "." then
        let _ ← expectName
        return .again ()
      else
        return .done ()) ()
    when (← sees "<") skipBalanced
    return .verbatim (← textSince start) .importType
  else if keywords.contains word && !start.sees "." 1 then
    let _ ← next
    return .keyword word
  else reference rules

/-- A type that begins with a punctuation mark. -/
def markType (rules : Rules) (token : Token) : Parser TypeExpr := do
  let start ← get
  if beginsFunction start then functionType rules
  else if token.raw = "(" then
    let _ ← next
    let type ← rules.type
    expect ")"
    return type
  else if token.raw = "\x7b" then
    if beginsMapped start then
      skipBalanced
      return .verbatim (← textSince start) .mapped
    else
      let found ← members rules
      return .object found (← textSince start)
  else if token.raw = "[" then tuple rules
  else if token.raw = "-" ∧ (start.peek 1).isNumber then
    let _ ← next
    let _ ← next
    return .literal (← textSince start)
  else reject (.unexpectedInType token.raw)

/-- A type without operators around it. -/
def primary (rules : Rules) : Parser TypeExpr := do
  let token ← peek
  match token.lexeme with
  | .mark => markType rules token
  | .string value =>
    let _ ← next
    return .literal (Text.quote value)
  | .number =>
    let _ ← next
    return .literal token.raw
  | .template parts =>
    let _ ← next
    return .template (← templateSpans rules parts) token.raw
  | .endOfInput => reject .endOfInputInType
  | .word => wordType rules token.raw

/-! ## Operators -/

/-- One more pair of brackets behind a type that began at `start`. -/
def bracketRound (rules : Rules) (start : Cursor) (type : TypeExpr) :
    Parser (Turn TypeExpr TypeExpr) := do
  let c ← get
  if c.sees "[" && !c.peek.lineBreak then
    let _ ← next
    if ← accept "]" then
      return .again (.array type (← textSince start))
    else
      let _ ← rules.type
      expect "]"
      return .again (.verbatim (← textSince start) .indexedAccess)
  else
    return .done type

/-- A primary type with array brackets and indices behind it, on the same line. -/
def postfixed (rules : Rules) : Parser TypeExpr := do
  let start ← get
  let first ← primary rules
  loop (bracketRound rules start) first

/-- A token that may begin the operand of an operator word. -/
def beginsOperand (t : Token) : Bool :=
  t.isWord || t.isString || t.isNumber || t.isTemplate || t.isOneOf ["(", "[", "\x7b", "<", "-"]

/-- The expression is an array or a tuple. -/
def isSequence : TypeExpr → Bool
  | .array .. => true
  | .tuple .. => true
  | _ => false

/-- Passes over the bound of an inferred type, unless it is a condition. -/
def inferBound (rules : Rules) : Parser Unit := do
  let c ← get
  if c.sees "extends" && !c.sees "?" 2 then
    skip
    let _ ← rules.operand
  else return ()

/-- A type with operator words before it. `readonly` says nothing about an array
or a tuple. -/
def operand (rules : Rules) : Parser TypeExpr := do
  let start ← get
  let word := start.peek
  if word.isWord && operatorWords.contains word.raw && beginsOperand (start.peek 1) then
    let _ ← next
    let inner ← rules.operand
    if word.raw == "readonly" && isSequence inner then return inner
    else return .verbatim (← textSince start) (.operator word.raw)
  else if start.sees "infer" && (start.peek 1).isWord then
    skip
    skip
    inferBound rules
    return .verbatim (← textSince start) .infer
  else postfixed rules

/-- Items with `mark` between them, which may come first as well; a single item
stands for itself. -/
def chain (mark : Text) (item : Parser TypeExpr) (build : List TypeExpr → Text → TypeExpr) :
    Parser TypeExpr := do
  let _ ← accept mark
  let start ← get
  match ← separated mark item with
  | [type] => return type
  | types => return build types (← textSince start)

/-- Operands with `&` between them. -/
def intersection (rules : Rules) : Parser TypeExpr := chain "&" (operand rules) .intersection

/-- Intersections with `|` between them. -/
def union (rules : Rules) : Parser TypeExpr := chain "|" (intersection rules) .union

/-- A whole type; a conditional one is not looked into. -/
def type (rules : Rules) : Parser TypeExpr := do
  let start ← get
  let type ← union rules
  if ← accept "extends" then
    let _ ← union rules
    expect "?"
    let _ ← rules.type
    expect ":"
    let _ ← rules.type
    return .verbatim (← textSince start) .conditional
  else
    return type

/-- A whole type, and nothing after it. -/
def only (type : Parser TypeExpr) (trailing : Rejection) : Parser TypeExpr := do
  let found ← type
  if (← peek).isEnd then return found else reject trailing

end TypeGrammar

/-- The rules for types nested at most `depth` deep in the holes and brackets of
the source. -/
def Rules.upTo (source : Text) : Nat → Rules
  | 0 => { type := fail .depth, operand := fail .depth, hole := fun _ _ => .error .depth }
  | depth + 1 =>
    { type := fun c => TypeGrammar.type (upTo source depth) c
      operand := fun c => TypeGrammar.operand (upTo source depth) c
      hole := fun start stop => do
        let tokens ← tokenize source start stop
        let (type, _) ←
          TypeGrammar.only (TypeGrammar.type (upTo source depth)) .trailingInHole
            (Cursor.ofTokens tokens)
        return type }

/-- The rules for all types of a source. -/
def Rules.of (source : Text) : Rules := Rules.upTo source (source.length + 2)

namespace TypeExpr

/-- The type a text is written for. -/
def parse (source : Text) : Except Fault TypeExpr := do
  let tokens ← tokenize source 0 source.length
  let (type, _) ←
    TypeGrammar.only (Rules.of source).type .trailingAfterType (Cursor.ofTokens tokens)
  return type

end TypeExpr

end WireSchema
