import WireSchema.Text.Basic
/-!
# Paths

Paths are texts with slashes. `Path.normalize` also follows `..` on paper,
`Path.plain` only drops empty and `.` components.
-/

namespace WireSchema.Path

/-- The texts between the slashes of a path. -/
def components (path : Text) : List Text := Text.splitOn '/' path

/-- The component names nothing: it is empty or `.`. -/
def isIdle (component : Text) : Bool := component.isEmpty || component == "."

/-- The slashes a rooted path starts with. Two are kept as they are, any other
number means one. -/
def rootMark (path : Text) : Text :=
  if Text.startsWith path "//" && !Text.startsWith path "///" then "//"
  else if Text.startsWith path "/" then "/"
  else []

/-- The components that are left when each `..` takes the one before it away.
`kept` is what was kept so far, last component first. -/
def climb (isRooted : Bool) (kept : List Text) : List Text → List Text
  | [] => kept.reverse
  | c :: rest =>
    if isIdle c then climb isRooted kept rest
    else if c == ".." then
      match kept with
      | [] => if isRooted then climb isRooted [] rest else climb isRooted [c] rest
      | last :: before =>
        if last == ".." then climb isRooted (c :: last :: before) rest
        else climb isRooted before rest
    else climb isRooted (c :: kept) rest

/-- The shortest path that leads to the same place if no component is a link. -/
def normalize (path : Text) : Text :=
  let root := rootMark path
  let whole := root ++ Text.join "/" (climb (!root.isEmpty) [] (components path))
  if whole.isEmpty then "." else whole

/-- The components of a path that name something. -/
def parts (path : Text) : List Text := (components path).filter (!isIdle ·)

/-- The path without empty and `.` components. -/
def plain (path : Text) : Text :=
  let whole := rootMark path ++ Text.join "/" (parts path)
  if whole.isEmpty then "." else whole

/-- The last component of a path, empty if it names only a root or the present place. -/
def name (path : Text) : Text := ((parts path).getLast?).getD []

/-- The end of the last component from its last point on. A point at the start
or at the end of the component begins no suffix. -/
def suffix (path : Text) : Text :=
  let component := name path
  let ending := (component.reverse.takeWhile (· ≠ CodePoint.ofChar '.')).reverse
  if ending.isEmpty || component.length ≤ ending.length + 1 then [] else "." ++ ending

/-- The last component without its suffix. -/
def stem (path : Text) : Text := (name path).take ((name path).length - (suffix path).length)

/-- A path below a directory. A rooted path stays as it is. -/
def join (directory path : Text) : Text :=
  plain (if Text.startsWith path "/" then path
    else rootMark directory ++ Text.join "/" (parts directory ++ [path]))

/-- The path without its last component. -/
def parent (path : Text) : Text := plain (rootMark path ++ Text.join "/" (parts path).dropLast)

end WireSchema.Path
