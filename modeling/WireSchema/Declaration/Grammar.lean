import WireSchema.Declaration.Basic
import WireSchema.Declaration.TypeGrammar
/-!
# The grammar of declarations

A unit is read statement by statement. Interfaces, type aliases and
enumerations are read, whether exported, declared or neither; a default export
and any other statement is passed over as a run of tokens with balanced brackets.
-/

namespace WireSchema

open Source Source.Parser

namespace DeclarationGrammar

/-- The words that may start a declaration. -/
def startWords : List Text := ["interface", "type", "enum", "export", "declare"]

/-- The words that may stand before the name of a type parameter. -/
def modifiers : List Text := ["in", "out", "const"]

/-- The names of type parameters; bounds and defaults do not matter. -/
def parameters (rules : Rules) : Parser (List Text) := do
  if ← accept "<" then
    let names ← listed ">" do
      loop (fun () => do
        let c ← get
        if (c.peek 1).isWord && modifiers.contains c.peek.value then
          let _ ← next
          return .again ()
        else
          return .done ()) ()
      let name ← expectName
      if ← accept "extends" then
        let _ ← rules.type
      if ← accept "=" then
        let _ ← rules.type
      return name
    expect ">"
    return names
  else
    return []

/-- A type that an interface extends. -/
def base (rules : Rules) : Parser Base := do
  match ← TypeGrammar.primary rules with
  | .reference name arguments text => return { name, arguments, text }
  | _ => reject .extendsUnnamed

/-- The types that an interface extends. -/
def bases (rules : Rules) : Parser (List Base) := do
  if ← accept "extends" then separated "," (base rules) else return []

def interface (rules : Rules) (docs : DocComment) : Parser Declaration := do
  expect "interface"
  let name ← expectName
  let parameters ← parameters rules
  let bases ← bases rules
  let members ← TypeGrammar.members rules
  return { name, docs, body := .interface parameters bases members }

def typeAlias (rules : Rules) (docs : DocComment) : Parser Declaration := do
  expect "type"
  let name ← expectName
  let parameters ← parameters rules
  expect "="
  let type ← rules.type
  let _ ← accept ";"
  return { name, docs, body := .typeAlias parameters type }

/-! ## Enumerations -/

/-- Passes over a value that is no constant, up to a comma or a closing bracket
outside of its brackets. -/
def skipValue : Parser Unit :=
  loop (fun (depth : Nat) => do
    let token ← peek
    if token.isEnd then return .done ()
    else if token.isOneOf ["(", "[", "\x7b"] then
      let _ ← next
      return .again (depth + 1)
    else if token.isOneOf [")", "]", "\x7d"] then
      match depth with
      | 0 => return .done ()
      | depth + 1 =>
        let _ ← next
        return .again depth
    else if token.isOneOf [","] && depth == 0 then return .done ()
    else
      let _ ← next
      return .again depth) 0

/-- The value of a member after `=`, and the value the next member has if it
does not say. Only a decimal integer goes on counting. -/
def value : Parser (Option Text × Option Int) := do
  let isNegative ← accept "-"
  let token ← peek
  let sign : Text := if isNegative then "-" else []
  if (← peek 1).isOneOf [",", "\x7d"] then
    if token.isString && !isNegative then
      let _ ← next
      return (some (Text.quote token.value), none)
    else if token.isNumber then
      let _ ← next
      match Text.decimalValue? token.raw with
      | some n =>
        let n : Int := if isNegative then -(n : Int) else n
        return (some (Text.ofInt n), some (n + 1))
      | none => return (some (sign ++ token.raw), none)
  skipValue
  return (none, none)

/-- The members of an enumeration. A member without a value counts on from the
one before it. -/
def enumMembers : Parser (List EnumMember) :=
  loop (fun (found, counter) => do
    if ← sees "\x7d" then return .done found.reverse
    else
      let name ← next
      if !(name.isWord || name.isString) then rejectAt name .expectedEnumMember
      let (value, counter) ←
        if ← accept "=" then value
        else match counter with
          | some n => pure (some (Text.ofInt n), some (n + 1))
          | none => pure (none, none)
      let found := { name := name.value, value } :: found
      if ← accept "," then return .again (found, counter)
      else return .done found.reverse) (([] : List EnumMember), some (0 : Int))

def enumeration (docs : DocComment) : Parser Declaration := do
  expect "enum"
  let name ← expectName
  expect "\x7b"
  let members ← enumMembers
  expect "\x7d"
  return { name, docs, body := .enumeration members }

/-! ## Statements -/

/-- Passes over a statement: up to a semicolon or a closing brace outside of all
brackets, or before a word at the start of a line that may start a declaration. -/
def skipStatement : Parser Unit :=
  loop (fun (depth, isFirst) => do
    let token ← peek
    if token.isEnd then return .done ()
    else if !isFirst && depth ≤ 0 && token.lineBreak && token.isWord &&
        startWords.contains token.raw then
      return .done ()
    else
      let _ ← next
      if token.isOneOf ["(", "[", "\x7b"] then return .again (depth + 1, false)
      else if token.isOneOf [")", "]", "\x7d"] then
        if depth ≤ 1 && token.isOneOf ["\x7d"] then return .done ()
        else return .again (depth - 1, false)
      else if token.isOneOf [";"] && depth ≤ 0 then return .done ()
      else return .again (depth, false)) ((0 : Int), true)

/-- A statement; one that declares no type is passed over. -/
def statement (rules : Rules) : Parser (Option Declaration) := do
  let docs := DocComment.ofBlocks (← peek).docs
  if ← accept ";" then return none
  else if (← sees "export") && (← sees "default" 1) then
    skipStatement
    return none
  else
    loop (fun () => do
      if ← acceptEither "export" "declare" then return .again () else return .done ()) ()
    let c ← get
    if c.sees "interface" && (c.peek 1).isWord then return some (← interface rules docs)
    else if c.sees "type" && (c.peek 1).isWord then return some (← typeAlias rules docs)
    else
      if c.sees "const" && c.sees "enum" 1 then
        let _ ← next
      let c ← get
      if c.sees "enum" && (c.peek 1).isWord then return some (← enumeration docs)
      else
        skipStatement
        return none

/-- All statements of a unit. -/
def statements (rules : Rules) : Parser (List Declaration) :=
  loop (fun found => do
    if (← peek).isEnd then return .done found.reverse
    else return .again ((← statement rules).toList ++ found)) []

end DeclarationGrammar

namespace Declaration

/-- The declarations of a source. -/
def parse (source : Text) : Except Fault (List Declaration) := do
  let tokens ← tokenize source 0 source.length
  let (declarations, _) ← DeclarationGrammar.statements (Rules.of source) (Cursor.ofTokens tokens)
  return declarations

end Declaration

end WireSchema
