import WireSchema.Files.Search
/-!
# Finding the compiler

A program is looked up in the directories of a search path, which are separated
by colons, unless its name is a path itself.
-/

namespace WireSchema.Compiler

/-- There is a program of this name. -/
def isAvailable (t : FileTree) (searchPath program : Text) : Bool :=
  if program.contains '/' then t.hasProgram program
  else if searchPath.isEmpty then false
  else
    (Text.splitOn ':' searchPath).any fun directory =>
      t.hasProgram (FileTree.joinPath directory program)

end WireSchema.Compiler
