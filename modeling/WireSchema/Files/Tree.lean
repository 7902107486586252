import WireSchema.Files.Path
import WireSchema.Text.Display
import WireSchema.Text.Utf8
/-!
# Trees of files

The files below a directory, each under the names that lead to it. Paths are
followed from that directory, and nothing outside of it is there.
-/

namespace WireSchema

/-- What stands under a name. -/
inductive Entry where
  | directory
  | file (bytes : List UInt8) (isExecutable : Bool)
deriving DecidableEq

/-- The names that lead to an entry, outermost first. -/
abbrev Place := List Text

/-- The entries below a directory by their places. -/
structure FileTree where
  entries : List (Place × Entry) := []

/-- Why a path cannot be used. -/
inductive PathFault where
  | notFound
  | present
  | notDirectory
  | isDirectory
  | notEmpty
  /-- The path ends in a name that cannot be given. -/
  | busy
  | nameTooLong
deriving DecidableEq

/-- A fault of a path. -/
structure PathError where
  fault : PathFault
  path : Text
deriving DecidableEq

/-- The number of a fault and its text, as systems give them. -/
def PathFault.description : PathFault → Nat × Text
  | .notFound => (2, "No such file or directory")
  | .busy => (16, "Device or resource busy")
  | .present => (17, "File exists")
  | .notDirectory => (20, "Not a directory")
  | .isDirectory => (21, "Is a directory")
  | .nameTooLong => (36, "File name too long")
  | .notEmpty => (39, "Directory not empty")

def PathError.message (e : PathError) : Text :=
  let (number, text) := e.fault.description
  "[Errno " ++ Text.ofNat number ++ "] " ++ text ++ ": " ++ Text.display e.path

namespace FileTree

/-- The entry at a place. The tree itself is a directory. -/
def entry? (t : FileTree) (place : Place) : Option Entry :=
  if place.isEmpty then some .directory else t.entries.lookup place

/-- Sets the entry at a place. -/
def put (t : FileTree) (place : Place) (e : Entry) : FileTree :=
  if t.entries.any (·.1 == place) then
    { entries := t.entries.map fun (p, old) => if p == place then (p, e) else (p, old) }
  else { entries := t.entries ++ [(place, e)] }

/-- Takes the entry at a place away. -/
def remove (t : FileTree) (place : Place) : FileTree :=
  { entries := t.entries.filter (·.1 != place) }

/-- Adds an entry and the directories around it. -/
def add (t : FileTree) (place : Place) (e : Entry) : FileTree :=
  let around := (List.range place.length).map place.take
  let t := around.foldl (fun t p => if (t.entry? p).isNone then t.put p .directory else t) t
  t.put place e

/-! ## Following paths -/

/-- The longest name an entry can have, in bytes. -/
def nameLimit : Nat := 255

/-- The length of a name in bytes. -/
def nameSize (name : Text) : Nat := ((Utf8.encode? name).getD []).length

/-- The place a component leads to from a place, which has to be a directory. -/
def step (t : FileTree) (here : Place) (component : Text) : Except PathFault Place :=
  match t.entry? here with
  | none => .error .notFound
  | some (.file _ _) => .error .notDirectory
  | some .directory =>
    if Path.isIdle component then .ok here
    else if component == ".." then
      if here.isEmpty then .error .notFound else .ok here.dropLast
    else if nameLimit < nameSize component then .error .nameTooLong
    else .ok (here ++ [component])

/-- The place that a path leads to; there need not be anything. -/
def follow (t : FileTree) (path : Text) : Except PathFault Place :=
  if path.isEmpty || Text.startsWith path "/" then .error .notFound
  else (Path.components path).foldlM (step t) []

/-- The place that a path leads to, and the entry there. -/
def find (t : FileTree) (path : Text) : Except PathFault (Place × Entry) := do
  let place ← t.follow path
  match t.entry? place with
  | some e => return (place, e)
  | none => .error .notFound

/-- A path leads to an entry. -/
def has (t : FileTree) (path : Text) : Bool := (t.find path).toBool

/-- A path leads to a directory. -/
def hasDirectory (t : FileTree) (path : Text) : Bool :=
  match t.find path with
  | .ok (_, .directory) => true
  | _ => false

/-- A path leads to a file. -/
def hasFile (t : FileTree) (path : Text) : Bool :=
  match t.find path with
  | .ok (_, .file _ _) => true
  | _ => false

/-- A path leads to a file that can be run. -/
def hasProgram (t : FileTree) (path : Text) : Bool :=
  match t.find path with
  | .ok (_, .file _ isExecutable) => isExecutable
  | _ => false

/-- The names in the directory that a path leads to, none if it leads to none. -/
def names (t : FileTree) (path : Text) : List Text :=
  match t.find path with
  | .ok (here, .directory) =>
    t.entries.filterMap fun (place, _) =>
      if place.dropLast == here then place.getLast? else none
  | _ => []

/-- The bytes of the file that a path leads to. -/
def bytes (t : FileTree) (path : Text) : Except PathError (List UInt8) :=
  match t.find path with
  | .ok (_, .file bytes _) => .ok bytes
  | .ok (_, .directory) => .error ⟨.isDirectory, path⟩
  | .error fault => .error ⟨fault, path⟩

/-- Why a text cannot be read. -/
inductive ReadError where
  | path (e : PathError)
  | decoding (e : Utf8.DecodeError)
deriving DecidableEq

/-- The text of the file that a path leads to, its lines ending in line feeds. -/
def read (t : FileTree) (path : Text) : Except ReadError Text :=
  match t.bytes path with
  | .error e => .error (.path e)
  | .ok bytes =>
    match Utf8.decode bytes with
    | .ok text => .ok (Text.normalizeLines text)
    | .error e => .error (.decoding e)

/-! ## Changes -/

/-- Makes a directory at the end of a path. -/
def makeDirectory (t : FileTree) (path : Text) : Except PathFault FileTree := do
  let components := Path.components path
  let last := components.getLast?.getD []
  let around ← components.dropLast.foldlM (step t) []
  let place ← t.step around last
  if Path.isIdle last || last == ".." then .error .present
  else
    match t.entry? place with
    | some _ => .error .present
    | none => return t.put place .directory

/-- Makes the directories that are missing, given the components of a path, the
last one first. -/
def makeAll (t : FileTree) : List Text → FileTree × Option PathError
  | [] => (t, none)
  | last :: around =>
    let path := Text.join "/" (last :: around).reverse
    let settle (t : FileTree) : FileTree × Option PathError :=
      match t.makeDirectory path with
      | .ok t => (t, none)
      | .error fault => if t.hasDirectory path then (t, none) else (t, some ⟨fault, path⟩)
    match t.makeDirectory path with
    | .error .notFound =>
      match t.makeAll around with
      | (t, none) => settle t
      | failed => failed
    | _ => settle t

/-- Makes the directories of a path that are missing. A directory that is there
already is fine. The tree comes back also when the path cannot be made. -/
def makeDirectories (t : FileTree) (path : Text) : FileTree × Option PathError :=
  if Text.startsWith path "/" then (t, some ⟨.notFound, path⟩)
  else t.makeAll (Path.parts path).reverse

/-- Writes a file at the end of a path, over one that is there. -/
def write (t : FileTree) (path : Text) (bytes : List UInt8) : Except PathError FileTree :=
  match t.follow path with
  | .error fault => .error ⟨fault, path⟩
  | .ok place =>
    match t.entry? place with
    | some .directory => .error ⟨.isDirectory, path⟩
    | some (.file _ isExecutable) => .ok (t.put place (.file bytes isExecutable))
    | none =>
      match t.entry? place.dropLast with
      | some .directory => .ok (t.put place (.file bytes false))
      | some (.file _ _) => .error ⟨.notDirectory, path⟩
      | none => .error ⟨.notFound, path⟩

/-- Moves the file at a place to the end of a path, over a file that is there. -/
def move (t : FileTree) (source : Place) (path : Text) : Except PathError FileTree := do
  let fail {α : Type} (fault : PathFault) : Except PathError α := .error ⟨fault, path⟩
  let components := Path.components path
  let last := components.getLast?.getD []
  let around ← (components.dropLast.foldlM (step t) []).mapError fun fault => ⟨fault, path⟩
  let place ← (t.step around last).mapError fun fault => ⟨fault, path⟩
  if Path.isIdle last || last == ".." then fail .busy
  else
    match t.entry? source, t.entry? place with
    | none, _ => fail .notFound
    | some _, some .directory => fail (if place.isPrefixOf source then .notEmpty else .isDirectory)
    | some e, _ => return (t.remove source).put place e

end FileTree

end WireSchema
