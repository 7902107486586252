import WireSchema.Files.Tree
/-!
# Writing a document

A document is written in full under a name of its own next to its target and
then moved there, so the target never holds a part of it. Whatever happens, the
file with the other name is gone afterwards.
-/

namespace WireSchema

/-- Why a document cannot be written. -/
inductive OutputError where
  | path (e : PathError)
  /-- The text holds a surrogate. -/
  | encoding
deriving DecidableEq

namespace Document

/-- The text with a line feed at its end. -/
def closed (text : Text) : Text := if Text.endsWith text "\n" then text else text ++ "\n"

/-- A name for a while: that of the target, a number of eight digits and an ending. -/
def draftName (stem : Text) (n : Nat) : Text :=
  let digits := Text.ofNat n
  stem ++ "." ++ Text.times "0" (8 - digits.length) ++ digits ++ ".tmp"

/-- The first place in a directory that a draft can have: of one more name than
there are entries, one is free. -/
def draftPlace? (t : FileTree) (here : Place) (stem : Text) : Option Place :=
  let candidates := (List.range (t.entries.length + 1)).map fun n => here ++ [draftName stem n]
  candidates.find? fun place => (t.entry? place).isNone

/-- Writes a text as a draft and moves it to a path. The tree comes back also
when that fails. -/
def replace (t : FileTree) (draft : Place) (path text : Text) :
    FileTree × Except OutputError Unit :=
  let t := t.put draft (.file [] false)
  match Utf8.encode? text with
  | none => (t.remove draft, .error .encoding)
  | some bytes =>
    let t := t.put draft (.file bytes false)
    match t.move draft path with
    | .ok t => (t, .ok ())
    | .error e => (t.remove draft, .error (.path e))

/-- Writes a document into a directory, which is made if it is missing, and
gives the path of the file. The tree comes back also when that fails. -/
def write (t : FileTree) (directory name text : Text) : FileTree × Except OutputError Text :=
  let directory := Path.plain directory
  let path := Path.join directory name
  match t.makeDirectories directory with
  | (t, some e) => (t, .error (.path e))
  | (t, none) =>
    match t.follow directory with
    | .error fault => (t, .error (.path ⟨fault, directory⟩))
    | .ok here =>
      if FileTree.nameLimit < FileTree.nameSize (draftName (Path.stem path) 0) then
        (t, .error (.path ⟨.nameTooLong, directory⟩))
      else
        match draftPlace? t here (Path.stem path) with
        | none => (t, .error (.path ⟨.present, directory⟩))
        | some draft =>
          let (t, result) := replace t draft path (closed text)
          (t, result.map fun _ => path)

end Document

end WireSchema
