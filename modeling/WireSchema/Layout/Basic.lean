import WireSchema.Layout.Scope
import WireSchema.Text.Indent
/-!
# Layouts

A layout describes generated text. It is attached to a scope, which collects
the `using` directives its names need, and rendered to text; neither step
depends on the other.

A template puts each value at the indentation of the line it stands on, and
the whole is dedented, so that a template may be written at any indentation.
-/

namespace WireSchema

/-- How parts are put together. -/
inductive Arrangement where
  /-- With a separator between them. -/
  | joined (separator : Text)
  /-- Those that are not blank, with one blank row between them. -/
  | stanzas
  /-- Each with a semicolon behind it, on rows of their own. -/
  | statements
  /-- On rows of their own, all rows that are not empty moved in. -/
  | indented (level : Nat)
deriving DecidableEq

namespace Arrangement

/-- The parts put together. -/
def combine : Arrangement → List Text → Text
  | joined separator, parts => Text.join separator parts
  | stanzas, parts => Text.join "\n\n" (parts.filter (!Text.isBlank ·))
  | statements, parts => Text.unrows (parts.map (· ++ ";"))
  | indented level, parts => Text.unrows (parts.map (Text.indent level))

end Arrangement

/-- A description of generated text. -/
inductive Layout where
  | text (t : Text)
  /-- A name that needs a `using` directive for its namespace. -/
  | imported (target name : Text)
  | arranged (how : Arrangement) (parts : List Layout)
  /-- Fixed text, then values with the fixed text behind each. -/
  | template (start : Text) (values : List (Layout × Text))

namespace Layout

instance : Inhabited Layout := ⟨text []⟩

instance : Coe Text Layout := ⟨text⟩

instance : Coe String Layout := ⟨fun s => text (Text.ofString s)⟩

def stanzas (parts : List Layout) : Layout := arranged .stanzas parts

def lines (parts : List Layout) : Layout := arranged (.joined "\n") parts

def statements (parts : List Layout) : Layout := arranged .statements parts

def commas (parts : List Layout) : Layout := arranged (.joined ",") parts

def union (parts : List Layout) : Layout := arranged (.joined " | ") parts

def concat (parts : List Layout) : Layout := arranged (.joined []) parts

def join (separator : Text) (parts : List Layout) : Layout := arranged (.joined separator) parts

def indent (level : Nat) (part : Layout) : Layout := arranged (.indented level) [part]

/-- A value between braces, each on a row of its own. -/
def braced (value : Layout) : Layout :=
  template "\n            \x7b\n              " [(value, "\n            \x7d\n            ")]

/-- The layout is fixed text. -/
def isText : Layout → Bool
  | text _ => true
  | _ => false

/-- The row that a text ends with. -/
def lastRow (t : Text) : Text := (t.reverse.takeWhile (· ≠ CodePoint.ofChar '\n')).reverse

/-- A value put behind `out`, its further rows at the indentation of the row it
starts on. -/
def place (out value : Text) : Text := out ++ Text.hang (Text.margin (lastRow out)) value

mutual

/-- The text a layout describes. -/
def render : Layout → Text
  | text t => t
  | imported _ name => name
  | arranged how parts => how.combine (renderAll parts)
  | template start values => Text.dedent (renderValues start values)

/-- The texts of several layouts. -/
def renderAll : List Layout → List Text
  | [] => []
  | part :: rest => render part :: renderAll rest

/-- The text of a template's values behind `out`. -/
def renderValues (out : Text) : List (Layout × Text) → Text
  | [] => out
  | (value, behind) :: rest => renderValues (place out (render value) ++ behind) rest

end

mutual

/-- The namespaces of the imported names, from left to right. -/
def targets : Layout → List Text
  | text _ => []
  | imported target _ => [target]
  | arranged _ parts => targetsAll parts
  | template _ values => targetsValues values

/-- The namespaces of the imported names of several layouts. -/
def targetsAll : List Layout → List Text
  | [] => []
  | part :: rest => targets part ++ targetsAll rest

/-- The namespaces of the imported names of a template's values. -/
def targetsValues : List (Layout × Text) → List Text
  | [] => []
  | (value, _) :: rest => targets value ++ targetsValues rest

end

/-- The scope with the directives that the layout's names need. -/
def attach (layout : Layout) (scope : Scope) : Scope :=
  layout.targets.foldl Scope.requireUsing scope

end Layout

end WireSchema
