import WireSchema.Files.Tree
import WireSchema.Files.Wildcard
/-!
# Searching files by a pattern

A pattern is a path whose components may be wildcards. The component `**` stands
for the directory itself and everything below it. Names that begin with a point
are hidden: they match only a wildcard that begins with a point too.
-/

namespace WireSchema.FileTree

/-- A path with a further component. -/
def joinPath (path name : Text) : Text :=
  if path.isEmpty || Text.endsWith path "/" then path ++ name else path ++ "/" ++ name

def isHidden (name : Text) : Bool := Text.startsWith name "."

/-- The paths, from a directory on, to everything below it that is not hidden. -/
def below (t : FileTree) (path : Text) (onlyDirectories : Bool) : List Text :=
  match t.find path with
  | .ok (here, .directory) =>
    t.entries.filterMap fun (place, entry) =>
      let rest := place.drop here.length
      if here.isPrefixOf place && !rest.isEmpty && !rest.any isHidden &&
          (!onlyDirectories || entry == .directory)
      then some (Text.join "/" rest) else none
  | _ => []

/-- What a component of a pattern stands for in the directory at the end of a
path. An empty component stands for the directory. -/
def expand (t : FileTree) (onlyDirectories : Bool) (path component : Text) : List Text :=
  let here : Text := if path.isEmpty then "." else path
  if component == "**" then [] :: t.below here onlyDirectories
  else if Wildcard.isPattern component then
    let pattern := Wildcard.parse 0 component
    (t.names here).filter fun name =>
      (isHidden component || !isHidden name) && Wildcard.isMatch pattern name &&
      (!onlyDirectories || t.hasDirectory (joinPath path name))
  else if component.isEmpty then if t.hasDirectory path then [component] else []
  else if t.has (joinPath path component) then [component] else []

/-- The paths that a pattern's components stand for, from these paths on. All
but the last component stand for directories. -/
def expandAll (t : FileTree) (paths : List Text) : List Text → List Text
  | [] => paths
  | component :: rest =>
    let found := paths.flatMap fun path =>
      (t.expand (!rest.isEmpty) path component).map (joinPath path)
    t.expandAll found rest

/-- The paths that a pattern stands for. One that can be matched in several ways
comes several times. -/
def search (t : FileTree) (pattern : Text) : List Text :=
  if !Wildcard.isPattern pattern then if t.has pattern then [pattern] else []
  else
    let components := Path.components pattern
    let fixed := components.takeWhile (!Wildcard.isPattern ·)
    let start := Text.join "/" fixed
    let start : Text := if start.isEmpty && !fixed.isEmpty then "/" else start
    let rest := components.dropWhile (!Wildcard.isPattern ·)
    t.expandAll [start] (rest.dropLast.filter (!·.isEmpty) ++ rest.getLast?.toList)

/-- Comparison component by component, a path coming after its beginnings. -/
def placeLe : Place → Place → Bool
  | [], _ => true
  | _ :: _, [] => false
  | a :: p, b :: q => if a == b then placeLe p q else Text.le a b

/-- The files that a pattern stands for, in the order of their components. -/
def inputs (t : FileTree) (pattern : Text) : List Text :=
  let files := ((t.search pattern).map Path.plain).filter t.hasFile
  files.mergeSort fun a b => placeLe (Path.parts a) (Path.parts b)

end WireSchema.FileTree
