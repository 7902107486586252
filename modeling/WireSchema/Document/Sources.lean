import WireSchema.Document
import WireSchema.Files.Tree
/-!
# Documents from files

Every file becomes a unit under its path, and all units become one document.
-/

namespace WireSchema

/-- Why files give no document. -/
inductive SourcesError where
  | reading (e : FileTree.ReadError)
  | unit (e : UnitError)
  /-- The types are nested too deep to be written. -/
  | depth
deriving DecidableEq

/-- The project with the files at paths as further units. -/
def Project.addFiles (t : FileTree) (p : Project) : List Text → Except SourcesError Project
  | [] => .ok p
  | path :: paths => do
    let source ← (t.read (Path.plain path)).mapError .reading
    let p ← (p.add path source).mapError .unit
    p.addFiles t paths

namespace Document

/-- The document of the files at paths. -/
def ofFiles (t : FileTree) (config : Config) (paths : List Text) : Except SourcesError Text := do
  let project ← Project.addFiles t {} paths
  match (convertUnits project config paths).run {} with
  | none => .error .depth
  | some (sections, _) => return render sections

end Document

end WireSchema
