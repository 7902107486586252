import WireSchema.Yaml.Lexer
import WireSchema.Yaml.Tag
/-!
# From tokens to a document

A text holds one document at most. A document is a tree in which a name may
stand for a node that is written elsewhere, even for one around the name itself.
An anchor may be given once, and an alias has to come after its anchor.
-/

namespace WireSchema.Yaml

/-! ## Nodes -/

/-- A node. -/
inductive Node where
  | scalar (tag : Tag) (text : Text)
  | sequence (tag : Tag) (items : List Node)
  | mapping (tag : Tag) (entries : List (Node × Node))
  /-- The node with an anchor of this name. -/
  | reference (name : Text)

instance : Inhabited Node := ⟨.scalar .null []⟩

/-- The nodes of a document by their anchors. -/
abbrev Anchors := List (Text × Node)

/-- A document. -/
structure Document where
  root : Node
  anchors : Anchors := []

namespace Node

/-- The node of nothing. -/
def empty : Node := .scalar .null []

/-- The tag of a node; an alias has none of its own. -/
def tag? : Node → Option Tag
  | .scalar tag _ => some tag
  | .sequence tag _ => some tag
  | .mapping tag _ => some tag
  | .reference _ => none

end Node

/-! ## Reading tokens -/

/-- A document that is being read. -/
structure NodeReader where
  tokens : List Token
  /-- What the handles of tags stand for. -/
  handles : List (Text × Text)
  /-- The names of the anchors so far. -/
  names : List Text := []
  /-- The nodes with anchors that are complete. -/
  anchors : Anchors := []

/-- A step that takes tokens, or finds a fault. -/
abbrev Reading := StateT NodeReader (Except Fault)

namespace Reading

/-- Stops because of the present token. -/
def fail : Reading α := fun s =>
  match s.tokens with
  | .fault fault :: _ => .error fault
  | _ => .error .malformed

/-- The present token, if there is one. -/
def peek : Reading (Option Token) := do return (← get).tokens.head?

/-- The present token is one of these. -/
def sees (ts : List Token) : Reading Bool := do return (← peek).any ts.contains

def next : Reading Unit := modify fun s => { s with tokens := s.tokens.drop 1 }

/-- Takes the present token if it is `t`. -/
def accept (t : Token) : Reading Bool := do
  if ← sees [t] then
    next
    return true
  else
    return false

/-- Takes the token `t`, which has to come. -/
def expect (t : Token) : Reading Unit := do
  if ← accept t then return () else fail

/-! ## Properties of nodes -/

/-- An anchor before a node. -/
def anchor? : Reading (Option Text) := do
  match ← peek with
  | some (.anchor name) =>
    next
    return some name
  | _ => return none

/-- A tag before a node, written out in full. -/
def tag? : Reading (Option Text) := do
  match ← peek with
  | some (.tag none suffix) =>
    next
    return some suffix
  | some (.tag (some handle) suffix) =>
    next
    match (← get).handles.lookup handle with
    | some meaning => return some (meaning ++ suffix)
    | none => fail
  | _ => return none

/-- The anchor and the tag before a node, in either order. -/
def properties : Reading (Option Text × Option Text) := do
  match ← anchor? with
  | some name => return (some name, ← tag?)
  | none =>
    match ← tag? with
    | some tag => return (← anchor?, some tag)
    | none => return (none, none)

/-- The tag of a collection. A lone `!` says nothing. -/
def collectionTag (default : Tag) : Option Text → Tag
  | none => default
  | some tag => if tag == "!" then default else .ofText tag

/-- The tag of a scalar. Its form counts if it is plain or has a lone `!`. -/
def scalarTag (text : Text) (isPlain : Bool) : Option Text → Tag
  | none => if isPlain then .implied text else .text
  | some tag => if tag == "!" then .implied text else .ofText tag

/-- Notes the name of an anchor, which may be given once. -/
def declare (name : Option Text) : Reading Unit := do
  match name with
  | none => return ()
  | some name =>
    let s ← get
    if s.names.contains name then fail else set { s with names := name :: s.names }

/-- Keeps a complete node under its anchor. -/
def keep (name : Option Text) (node : Node) : Reading Node := do
  match name with
  | none => return node
  | some name =>
    modify fun s => { s with anchors := (name, node) :: s.anchors }
    return node

/-! ## Nodes -/

/-- What stands around a node says which collections it may be. -/
inductive Place where
  /-- Inside brackets. -/
  | brackets
  /-- Outside of brackets. -/
  | block
  /-- A key or a value outside of brackets, where the items of a list need not
  be indented. -/
  | entry
deriving DecidableEq

mutual

/-- A node. -/
def node (place : Place) : Nat → Reading Node
  | 0 => fail
  | fuel + 1 => do
    match ← peek with
    | some (.reference name) =>
      if (← get).names.contains name then
        next
        return .reference name
      else fail
    | _ =>
      let (name, tag) ← properties
      declare name
      let found ←
        match ← peek with
        | some .item =>
          if place = .entry then
            pure (.sequence (collectionTag .list tag) (← looseItems fuel))
          else if name.isSome || tag.isSome then pure (.scalar (scalarTag [] true tag) [])
          else fail
        | some (.scalar text isPlain) =>
          next
          pure (.scalar (scalarTag text isPlain tag) text)
        | some .listOpen =>
          next
          pure (.sequence (collectionTag .list tag) (← listItems true fuel))
        | some .mappingOpen =>
          next
          pure (.mapping (collectionTag .mapping tag) (← mappingEntries true fuel))
        | t =>
          if t = some .blockSequence ∧ place ≠ .brackets then
            next
            pure (.sequence (collectionTag .list tag) (← blockItems fuel))
          else if t = some .blockMapping ∧ place ≠ .brackets then
            next
            pure (.mapping (collectionTag .mapping tag) (← blockEntries fuel))
          else if name.isSome || tag.isSome then pure (.scalar (scalarTag [] true tag) [])
          else fail
      keep name found

/-- A node, or nothing before one of the tokens `ends`. -/
def nodeOrEmpty (place : Place) (ends : List Token) : Nat → Reading Node
  | 0 => fail
  | fuel + 1 => do
    if ← sees ends then return .empty else node place fuel

/-- The items of a list up to where it is less indented. -/
def blockItems : Nat → Reading (List Node)
  | 0 => fail
  | fuel + 1 => do
    if ← accept .item then
      let found ← nodeOrEmpty .block [.item, .blockEnd] fuel
      return found :: (← blockItems fuel)
    else
      expect .blockEnd
      return []

/-- The items of a list that is not indented. -/
def looseItems : Nat → Reading (List Node)
  | 0 => fail
  | fuel + 1 => do
    if ← accept .item then
      let found ← nodeOrEmpty .block [.item, .key, .value, .blockEnd] fuel
      return found :: (← looseItems fuel)
    else
      return []

/-- The entries of a mapping up to where it is less indented. -/
def blockEntries : Nat → Reading (List (Node × Node))
  | 0 => fail
  | fuel + 1 => do
    if ← accept .key then
      let key ← nodeOrEmpty .entry [.key, .value, .blockEnd] fuel
      let value ←
        if ← accept .value then nodeOrEmpty .entry [.key, .value, .blockEnd] fuel
        else pure .empty
      return (key, value) :: (← blockEntries fuel)
    else
      expect .blockEnd
      return []

/-- The items of a list up to its closing bracket. A pair is a mapping of its own. -/
def listItems (isFirst : Bool) : Nat → Reading (List Node)
  | 0 => fail
  | fuel + 1 => do
    if ← accept .listClose then return []
    else
      if !isFirst then expect .comma
      if ← accept .key then
        let key ← nodeOrEmpty .brackets [.value, .comma, .listClose] fuel
        let value ←
          if ← accept .value then nodeOrEmpty .brackets [.comma, .listClose] fuel
          else pure .empty
        return .mapping .mapping [(key, value)] :: (← listItems false fuel)
      else if ← accept .listClose then return []
      else
        let found ← node .brackets fuel
        return found :: (← listItems false fuel)

/-- The entries of a mapping up to its closing bracket. A node alone is a key. -/
def mappingEntries (isFirst : Bool) : Nat → Reading (List (Node × Node))
  | 0 => fail
  | fuel + 1 => do
    if ← accept .mappingClose then return []
    else
      if !isFirst then expect .comma
      if ← accept .key then
        let key ← nodeOrEmpty .brackets [.value, .comma, .mappingClose] fuel
        let value ←
          if ← accept .value then nodeOrEmpty .brackets [.comma, .mappingClose] fuel
          else pure .empty
        return (key, value) :: (← mappingEntries false fuel)
      else if ← accept .mappingClose then return []
      else
        let key ← node .brackets fuel
        return (key, .empty) :: (← mappingEntries false fuel)

end

/-! ## Documents -/

/-- The meanings of the handles that need no directive. -/
def defaultHandles : List (Text × Text) := [("!", "!"), ("!!", Tag.yamlHandle)]

/-- The directives before a document: one version at most, which is 1, and one
meaning for each handle. -/
def directives (hasVersion : Bool) (handles : List (Text × Text)) : Nat → Reading Unit
  | 0 => fail
  | fuel + 1 => do
    match ← peek with
    | some (.version major) =>
      if hasVersion || major != 1 then fail
      next
      directives true handles fuel
    | some (.handle handle meaning) =>
      if handles.any (·.1 == handle) then fail
      next
      directives hasVersion ((handle, meaning) :: handles) fuel
    | some .otherDirective =>
      next
      directives hasVersion handles fuel
    | _ => modify fun s => { s with handles := handles ++ defaultHandles }

/-- A directive or the end of the text comes. -/
def seesDirectiveOrEnd : Reading Bool := do
  match ← peek with
  | none => return true
  | some (.version _) => return true
  | some (.handle _ _) => return true
  | some .otherDirective => return true
  | _ => return false

/-- The document of the text, if it has one. -/
def document (fuel : Nat) : Reading (Option Node) := do
  if (← peek).isNone then return none
  let root ←
    if (← seesDirectiveOrEnd) || (← sees [.documentStart]) then do
      directives false [] fuel
      expect .documentStart
      if (← seesDirectiveOrEnd) || (← sees [.documentStart, .documentEnd]) then pure .empty
      else node .block fuel
    else node .block fuel
  modify fun s => { s with tokens := s.tokens.dropWhile (· == .documentEnd) }
  if (← peek).isNone then return some root else fail

end Reading

/-- The document of a text, if it has one. -/
def Document.parse (t : Text) : Except Fault (Option Document) := do
  let tokens := tokenize t
  let (root, s) ← (Reading.document (4 * tokens.length + 4)).run
    { tokens, handles := Reading.defaultHandles }
  return root.map fun root => { root, anchors := s.anchors }

end WireSchema.Yaml
