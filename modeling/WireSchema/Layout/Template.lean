import WireSchema.Layout.Basic
import WireSchema.Text.Alphanumeric
import WireSchema.Text.Numeral
/-!
# Templates

In the text of a template, `$name` and `${name}` stand for a value and `$$` for
a dollar sign. Any other dollar sign is an error, and so is a name without a
value; the first error from the left counts.
-/

namespace WireSchema

/-- What is wrong with a template. -/
inductive TemplateError where
  /-- The dollar sign at an offset begins no placeholder. -/
  | placeholder (offset : Nat)
  /-- A name has no value. -/
  | missing (name : Text)
deriving DecidableEq

namespace TemplateError

/-- The error in words. -/
def message : TemplateError → Text
  | placeholder offset => "Invalid placeholder at offset " ++ Text.ofNat offset ++ " in template"
  | missing name => "No value for " ++ name

end TemplateError

namespace Layout

/-- What a dollar sign begins. The number counts the code points after it. -/
inductive Placeholder where
  | dollar
  | named (name : Text) (taken : Nat)
deriving DecidableEq

/-- May begin a placeholder's name. -/
def beginsName (c : CodePoint) : Bool := c.isLetter || c == '_'

/-- May go on with a placeholder's name. -/
def continuesName (c : CodePoint) : Bool := beginsName c || c.isBetween '0' '9'

/-- The name at the start of a text. -/
def leadingName? (t : Text) : Option Text :=
  match t with
  | [] => none
  | c :: rest => if beginsName c then some (c :: rest.takeWhile continuesName) else none

/-- What the dollar sign before a text begins. -/
def placeholder? (t : Text) : Option Placeholder :=
  match t with
  | [] => none
  | c :: rest =>
    if c = '$' then some .dollar
    else if c = '\x7b' then do
      let name ← leadingName? rest
      guard ((rest.drop name.length).head? == some (CodePoint.ofChar '\x7d'))
      return .named name (name.length + 2)
    else do
      let name ← leadingName? t
      return .named name name.length

/-- The fixed text up to the first value, and the values with the fixed text
behind each. `skip` code points belong to a placeholder that was read. -/
def templateParts (values : List (Text × Layout)) (skip offset : Nat) :
    Text → Except TemplateError (Text × List (Layout × Text))
  | [] => .ok ([], [])
  | c :: rest =>
    match skip with
    | skip + 1 => templateParts values skip (offset + 1) rest
    | 0 =>
      if c = '$' then
        match placeholder? rest with
        | none => .error (.placeholder offset)
        | some .dollar => do
          let (start, holes) ← templateParts values 1 (offset + 1) rest
          return (c :: start, holes)
        | some (.named name taken) =>
          match values.lookup name with
          | none => .error (.missing name)
          | some value => do
            let (behind, holes) ← templateParts values taken (offset + 1) rest
            return ([], (value, behind) :: holes)
      else do
        let (start, holes) ← templateParts values 0 (offset + 1) rest
        return (c :: start, holes)

/-- The layout a template describes with the values of its names. -/
def ofTemplate (template : Text) (values : List (Text × Layout)) :
    Except TemplateError Layout := do
  let (start, holes) ← templateParts values 0 0 template
  return .template start holes

end Layout

end WireSchema
