import WireSchema.CommandLine.Run
/-!
# The command line

Reads the files below the working directory, runs the command on them and
writes the files that it changed.
-/

namespace WireSchema.CommandLine

/-- The entries below a directory, under the place `here`. -/
partial def snapshot (directory : IO.FS.DirEntry) (here : Place) (t : FileTree) : IO FileTree := do
  let mut t := t
  for entry in ← directory.path.readDir do
    let place := here ++ [Text.ofString entry.fileName]
    match (← entry.path.metadata).type with
    | .dir => t ← snapshot entry place (t.put place .directory)
    | .file => t := t.put place (.file (← IO.FS.readBinFile entry.path).toList false)
    | _ => pure ()
  return t

/-- Writes the entries that `before` lacks or has otherwise. -/
def writeChanges (root : IO.FS.DirEntry) (before after : FileTree) : IO Unit := do
  for (place, entry) in after.entries do
    if before.entry? place != some entry then
      let path := place.foldl (fun path name => path / Text.toString name) root.path
      match entry with
      | .directory => IO.FS.createDirAll path
      | .file bytes _ => IO.FS.writeBinFile path (ByteArray.mk bytes.toArray)

end WireSchema.CommandLine

open WireSchema in
def main (args : List String) : IO UInt32 := do
  let root : IO.FS.DirEntry := { root := ← IO.currentDir, fileName := "." }
  let before ← CommandLine.snapshot root [] {}
  let (after, result) := CommandLine.run before (args.map Text.ofString)
  CommandLine.writeChanges root before after
  IO.print (Text.toString result.output)
  IO.eprint (Text.toString result.complaint)
  return UInt32.ofNat result.status
