import WireSchema.Text.Numeral
import WireSchema.Text.Utf8
import WireSchema.Yaml.Token
/-!
# Anchors, tags and directives

The parts of a YAML text that carry names. Each function begins at the sign of
its part and gives the token and the cursor behind it.
-/

namespace WireSchema.Yaml

/-- A name, which may not be empty. -/
def scanName (c : Cursor) : Except Fault (Text × Cursor) :=
  match c.span isNameCharacter with
  | ([], _) => .error .malformed
  | found => .ok found

/-- The name of an anchor or an alias, behind its sign. -/
def scanAnchor (c : Cursor) : Except Fault (Text × Cursor) := do
  let (name, c) ← scanName c.next
  if isGap c.peek || c.sees "?:,]\x7d%@\x60" then return (name, c) else .error .malformed

/-! ## Tags -/

/-- A handle: `!`, or a name between two of these. -/
def scanHandle (c : Cursor) : Except Fault (Text × Cursor) :=
  if !c.sees "!" then .error .malformed
  else
    match c.peek 1 with
    | some x =>
      if x = ' ' then .ok ("!", c.next)
      else
        let (name, c) := c.next.span isNameCharacter
        if c.sees "!" then .ok ("!" ++ name ++ "!", c.next) else .error .malformed
    | none => .error .malformed

/-- A code point of a tag's URI. -/
def isUriCharacter (c : CodePoint) : Bool :=
  isNameCharacter c || isOneOf ";/?:@&=+$,_.!~*'()[]%" c

/-- The bytes of a run of escapes, and the rest. -/
def uriBytes : Text → Except Fault (List UInt8 × Text)
  | percent :: high :: low :: rest =>
    if percent = '%' then
      match isHexDigit high && isHexDigit low, Text.digitsValue? 16 false 0 [high, low] with
      | true, some byte => do
        let (bytes, rest) ← uriBytes rest
        return (UInt8.ofNat byte :: bytes, rest)
      | _, _ => .error .malformed
    else .ok ([], percent :: high :: low :: rest)
  | percent :: rest => if percent = '%' then .error .malformed else .ok ([], percent :: rest)
  | [] => .ok ([], [])

/-- The text of a URI; escaped bytes are UTF-8. -/
def uriText : Nat → Text → Except Fault (Text × Text)
  | 0, rest => .ok ([], rest)
  | _, [] => .ok ([], [])
  | fuel + 1, c :: rest =>
    if c = '%' then do
      let (bytes, rest) ← uriBytes (c :: rest)
      match Utf8.decode? bytes with
      | none => .error .malformed
      | some text => do
        let (more, rest) ← uriText fuel rest
        return (text ++ more, rest)
    else if isUriCharacter c then do
      let (more, rest) ← uriText fuel rest
      return (c :: more, rest)
    else .ok ([], c :: rest)

/-- A URI, which may not be empty. -/
def scanUri (c : Cursor) : Except Fault (Text × Cursor) := do
  let (uri, rest) ← uriText c.rest.length c.rest
  let taken := c.rest.length - rest.length
  if taken = 0 then .error .malformed else return (uri, c.skip taken)

/-- A tag: `!<uri>`, `!` alone, or a suffix behind a handle. -/
def scanTag (c : Cursor) : Except Fault (Token × Cursor) := do
  let (token, c) ←
    if c.peek 1 = some (CodePoint.ofChar '<') then do
      let (uri, c) ← scanUri (c.skip 2)
      if c.sees ">" then pure (Token.tag none uri, c.next) else .error .malformed
    else if isGap (c.peek 1) then pure (Token.tag none "!", c.next)
    else
      let body := (c.rest.drop 1).takeWhile fun x => !isGapWithoutTab (some x)
      let (handle, c) ← if body.contains '!' then scanHandle c else .ok ("!", c.next)
      let (suffix, c) ← scanUri c
      pure (Token.tag (some handle) suffix, c)
  if isGapWithoutTab c.peek then return (token, c) else .error .malformed

/-! ## Directives -/

/-- A number of a version. -/
def scanVersionNumber (c : Cursor) : Except Fault (Nat × Cursor) :=
  match c.span (·.isBetween '0' '9') with
  | ([], _) => .error .malformed
  | (digits, c) => .ok ((Text.decimalValue? digits).getD 0, c)

/-- A version of YAML. -/
def scanVersion (c : Cursor) : Except Fault (Token × Cursor) := do
  let (major, c) ← scanVersionNumber c.skipSpaces
  if !c.sees "." then .error .malformed
  else
    let (_, c) ← scanVersionNumber c.next
    if isGapWithoutTab c.peek then return (.version major, c) else .error .malformed

/-- A handle and what it stands for. -/
def scanHandleMeaning (c : Cursor) : Except Fault (Token × Cursor) := do
  let (handle, c) ← scanHandle c.skipSpaces
  if !c.sees " " then .error .malformed
  else
    let (meaning, c) ← scanUri c.skipSpaces
    if isGapWithoutTab c.peek then return (.handle handle meaning, c) else .error .malformed

/-- A directive with its line's end. -/
def scanDirective (c : Cursor) : Except Fault (Token × Cursor) := do
  let (name, c) ← scanName c.next
  if !isGapWithoutTab c.peek then .error .malformed
  else
    let (token, c) ←
      if name == "YAML" then scanVersion c
      else if name == "TAG" then scanHandleMeaning c
      else pure (Token.otherDirective, c.skipWhile isNotBreak)
    return (token, ← c.skipLineEnd)

end WireSchema.Yaml
