import WireSchema.Config.Check
import WireSchema.Document.Output
import WireSchema.Proofs.Steps
import WireSchema.Proofs.Files.Components
/-!
# What writing a document replaces

A text may name the generated file if it is a single component of a path. Where a document
is written, it stands directly in the output directory under that name. One text that may
name the file is no name of a file: `..`, under which nothing is ever written.
-/

namespace WireSchema

namespace FileTree

variable {t t' : FileTree} {place other here there source : Place} {e : Entry} {component path : Text}
  {components : List Text}

/-! ## Entries -/

theorem entry?_of_ne_nil (t : FileTree) (h : place ≠ []) : t.entry? place = t.entries.lookup place :=
  if_neg (by rwa [List.isEmpty_iff])

theorem lookup_update (entries : List (Place × Entry)) :
    (entries.map fun (p, old) => if p == place then (p, e) else (p, old)).lookup other =
      if other = place then (entries.lookup other).map fun _ => e else entries.lookup other := by
  induction entries with
  | nil => split <;> rfl
  | cons entry rest ih =>
    obtain ⟨p, old⟩ := entry
    have hlookup : ((p, old) :: rest).lookup other = _ := List.lookup_cons
    rw [List.map_cons, hlookup]
    by_cases hp : p = place
    · by_cases hother : other = p
      · simp [hp, hother]
      · have hne : (other == place) = false := beq_eq_false_iff_ne.2 (hp ▸ hother)
        simp only [hp, beq_self_eq_true, if_true, List.lookup_cons, hne, ih]
    · by_cases hother : other = p
      · simp [hp, hother]
      · have hne : (other == p) = false := beq_eq_false_iff_ne.2 hother
        simp only [beq_eq_false_iff_ne.2 hp, Bool.false_eq_true, if_false, List.lookup_cons, hne, ih]

/-- The entry that was put is there, and all others are as they were. -/
theorem entry?_put (t : FileTree) (hplace : place ≠ []) (e : Entry) (other : Place) :
    entry? (t.put place e) other = if other = place then some e else t.entry? other := by
  by_cases hnil : other = []
  · rw [hnil, if_neg (Ne.symm hplace)]
    rfl
  rw [entry?_of_ne_nil _ hnil, entry?_of_ne_nil _ hnil, put]
  split
  next hany =>
    have hfound : (t.entries.lookup place).isSome := by
      obtain ⟨entry, hmem, hentry⟩ := List.any_eq_true.1 hany
      exact List.lookup_isSome_iff.2 ⟨entry, hmem, BEq.symm hentry⟩
    obtain ⟨old, hold⟩ := Option.isSome_iff_exists.1 hfound
    rw [lookup_update]
    by_cases hother : other = place
    · rw [if_pos hother, if_pos hother, hother, hold, Option.map_some]
    · rw [if_neg hother, if_neg hother]
  next hany =>
    rw [List.lookup_append, List.lookup_cons, List.lookup_nil]
    by_cases hother : other = place
    · have hnone : t.entries.lookup place = none := by
        rw [List.lookup_eq_none_iff]
        intro entry hmem
        rw [bne_iff_ne]
        exact fun heq => hany (List.any_eq_true.2 ⟨entry, hmem, beq_iff_eq.2 heq.symm⟩)
      rw [if_pos hother, hother, hnone, beq_self_eq_true]
      rfl
    · rw [if_neg hother, beq_eq_false_iff_ne.2 hother, Option.or_none]

/-! ## Following paths -/

theorem step_name (hidle : Path.isIdle component = false) (hup : component ≠ "..")
    (h : t.step here component = .ok there) : there = here ++ [component] := by
  rw [step] at h
  split at h
  · cases h
  · cases h
  · rw [hidle, if_neg Bool.false_ne_true, if_neg (by rwa [beq_iff_eq])] at h
    split at h
    · cases h
    · exact (Except.ok.inj h).symm

/-- Where all directories stay, every step leads where it led. -/
theorem step_mono (hstay : ∀ p, t.entry? p = some .directory → t'.entry? p = some .directory)
    (h : t.step here component = .ok there) : t'.step here component = .ok there := by
  rw [step] at h
  split at h
  · cases h
  · cases h
  next hhere => rw [step, hstay here hhere, ← h]

theorem steps_mono (hstay : ∀ p, t.entry? p = some .directory → t'.entry? p = some .directory)
    (h : components.foldlM (step t) here = .ok there) : components.foldlM (step t') here = .ok there := by
  induction components generalizing here with
  | nil => exact h
  | cons component rest ih =>
    rw [List.foldlM_cons] at h ⊢
    cases hstep : t.step here component with
    | error fault =>
      rw [hstep] at h
      cases h
    | ok place =>
      rw [hstep] at h
      rw [step_mono hstay hstep]
      exact ih h

/-- A plain path without a root is followed name by name. -/
theorem follow_plain (t : FileTree) (hroot : Text.startsWith (Path.plain path) "/" = false) :
    t.follow (Path.plain path) = (Path.parts path).foldlM (step t) [] := by
  have hmark : Path.rootMark path = [] := by
    rw [← Path.rootMark_plain]
    exact Path.rootMark_eq_nil hroot
  have hnames : ∀ name ∈ Path.parts path, Path.IsName name := fun _ => Path.isName_of_mem_parts
  by_cases hnone : Path.parts path = []
  · have hplain : Path.plain path = "." := by
      rw [Path.plain, hmark, hnone]
      rfl
    rw [hplain, hnone]
    rfl
  · have hne := Path.join_ne_nil hnames hnone
    have hplain : Path.plain path = Text.join "/" (Path.parts path) := by
      rw [Path.plain, hmark, List.nil_append]
      exact if_neg (by rwa [List.isEmpty_iff])
    rw [follow, if_neg (by rw [hroot, hplain, Bool.or_false, List.isEmpty_iff]; exact hne), hplain,
      Path.components_join hnone hnames]

/-! ## Moving -/

/-- What is moved stands under the last component of the path, in the directory that the
components before it lead to, and takes no directory's place. -/
theorem move_ok {front : List Text} {last : Text} (hpath : Path.components path = front ++ [last])
    (h : t.move source path = .ok t') :
    ∃ around e, front.foldlM (step t) [] = .ok around ∧ last ≠ ".." ∧ t.entry? source = some e ∧
      t.step around last = .ok (around ++ [last]) ∧ t.entry? (around ++ [last]) ≠ some .directory ∧
      t' = (t.remove source).put (around ++ [last]) e := by
  rw [move, hpath, List.getLast?_concat, List.dropLast_concat, Option.getD_some] at h
  obtain ⟨around, haround, h⟩ := Except.bind_eq_ok.1 h
  obtain ⟨place, hplace, h⟩ := Except.bind_eq_ok.1 h
  have hstep := Except.mapError_eq_ok.1 hplace
  split at h
  · cases h
  next hlast =>
    rw [Bool.or_eq_true, beq_iff_eq, not_or, Bool.not_eq_true] at hlast
    obtain rfl := step_name hlast.1 hlast.2 hstep
    split at h
    · cases h
    · cases h
    next e hsource hplace =>
      exact ⟨around, e, Except.mapError_eq_ok.1 haround, hlast.2, hsource, hstep, fun hdir => hplace hdir,
        (Except.ok.inj h).symm⟩

end FileTree

namespace Document

variable {t t' : FileTree} {draft here : Place} {directory name path text : Text}

theorem replace_ok (h : replace t draft path text = (t', .ok ())) :
    ∃ bytes, Utf8.encode? text = some bytes ∧
      ((t.put draft (.file [] false)).put draft (.file bytes false)).move draft path = .ok t' := by
  rw [replace] at h
  split at h
  · cases h
  next bytes hbytes =>
    dsimp only at h
    split at h
    next moved hmoved =>
      cases h
      exact ⟨bytes, hbytes, hmoved⟩
    · cases h

theorem draftPlace?_eq_some {stem : Text} (h : draftPlace? t here stem = some draft) :
    t.entry? draft = none ∧ draft ≠ [] := by
  have hfree : (t.entry? draft).isNone = true :=
    List.find?_some (p := fun place => (t.entry? place).isNone) h
  obtain ⟨n, -, rfl⟩ := List.mem_map.1 (List.mem_of_find?_eq_some h)
  exact ⟨Option.isNone_iff_eq_none.1 hfree, by simp⟩

theorem unrooted_of_makeDirectories {made : FileTree} (h : t.makeDirectories path = (made, none)) :
    Text.startsWith path "/" = false := by
  rw [FileTree.makeDirectories] at h
  split at h
  · cases h
  · exact Bool.eq_false_iff.2 ‹_›

/-- A document is written as a draft in its directory, which is there by then, and moved. -/
theorem write_ok (h : write t directory name text = (t', .ok path)) :
    path = Path.join (Path.plain directory) name ∧
      ∃ made here draft, t.makeDirectories (Path.plain directory) = (made, none) ∧
        made.follow (Path.plain directory) = .ok here ∧ draftPlace? made here (Path.stem path) = some draft ∧
        replace made draft path (closed text) = (t', .ok ()) := by
  rw [write] at h
  dsimp only at h
  split at h
  · cases h
  next made hmade =>
    split at h
    · cases h
    next here hhere =>
      split at h
      · cases h
      · split at h
        · cases h
        next draft hdraft =>
          generalize hreplace : replace made draft (Path.join (Path.plain directory) name) (closed text) = result at h
          obtain ⟨moved, outcome⟩ := result
          cases outcome with
          | error e => cases h
          | ok _ =>
            cases h
            exact ⟨rfl, made, here, draft, hmade, hhere, hdraft, hreplace⟩

/-- The place a document is written to is that of its name in the directory. -/
theorem entry?_write (hname : Path.IsName name) (h : write t directory name text = (t', .ok path)) :
    path = Path.join (Path.plain directory) name ∧ name ≠ ".." ∧
      ∃ made here bytes, t.makeDirectories (Path.plain directory) = (made, none) ∧
        made.follow (Path.plain directory) = .ok here ∧ Utf8.encode? (closed text) = some bytes ∧
        t'.entry? (here ++ [name]) = some (.file bytes false) := by
  obtain ⟨rfl, made, here, draft, hmade, hhere, hdraft, hreplace⟩ := write_ok h
  obtain ⟨bytes, hbytes, hmove⟩ := replace_ok hreplace
  obtain ⟨hfree, hne⟩ := draftPlace?_eq_some hdraft
  have hroot := unrooted_of_makeDirectories hmade
  have hcomponents : Path.components (Path.join (Path.plain directory) name) = Path.parts directory ++ [name] := by
    rw [Path.join_eq hname, Path.parts_plain, Path.rootMark_eq_nil hroot, List.nil_append]
    refine Path.components_join (by simp) ?_
    rw [← Path.parts_plain]
    exact Path.names_below hname _
  obtain ⟨around, e, haround, hup, hsource, -, -, rfl⟩ := FileTree.move_ok hcomponents hmove
  -- a draft takes no directory's place
  have hstay (p : Place) (hp : made.entry? p = some .directory) :
      FileTree.entry? ((made.put draft (.file [] false)).put draft (.file bytes false)) p = some .directory := by
    have hp' : p ≠ draft := fun heq => by rw [heq, hfree] at hp; cases hp
    rw [FileTree.entry?_put _ hne, FileTree.entry?_put _ hne, if_neg hp', if_neg hp', hp]
  have hsteps := FileTree.steps_mono hstay ((FileTree.follow_plain made hroot).symm.trans hhere)
  rw [hsteps] at haround
  rw [FileTree.entry?_put _ hne, if_pos rfl] at hsource
  refine ⟨rfl, hup, made, here, bytes, hmade, hhere, hbytes, ?_⟩
  rw [← Except.ok.inj haround, FileTree.entry?_put _ (by simp), if_pos rfl, ← Option.some.inj hsource]

end Document

namespace Config

variable {name : Text}

theorem isFileName_iff : isFileName name = true ↔ Path.IsName name := by
  rw [isFileName, Bool.and_eq_true, Bool.not_eq_true', beq_iff_eq, List.isEmpty_eq_false_iff]
  exact ⟨fun h => Path.isName_of_name_eq h.1 h.2, fun h => ⟨h.ne_nil, Path.name_of_name h⟩⟩

/-- A configuration that only names the generated file. -/
theorem check_output_name (name : Text) :
    check [(.text "output_name", .text name)] =
      if isFileName name then .ok { outputName := name } else .error [⟨"output_name", .refused⟩] := by
  cases h : isFileName name with
  | true =>
    have hvalue : fileNameValue (.text name) = .ok name := if_pos h
    simp [check, readField, Datum.get?, Datum.isText, hvalue, unknownFields, fieldNames]
  | false =>
    have hvalue : fileNameValue (.text name) = .error .refused := if_neg (by rw [h]; exact Bool.false_ne_true)
    simp [check, readField, Datum.get?, Datum.isText, hvalue, unknownFields, fieldNames]

/-- A text is taken as the name of the generated file if and only if it is a single component
of a path. Wherever a document is written under such a name, the path is the directory's
with the name as its last component, the name is not `..`, and what is put into the tree
of files stands in the directory itself. -/
theorem output_names (name : Text) :
    (check [(.text "output_name", .text name)] = .ok { outputName := name } ↔
      name ≠ [] ∧ CodePoint.ofChar '/' ∉ name ∧ name ≠ ".") ∧
    (isFileName name = true → ∀ directory : Text,
      Path.parent (Path.join (Path.plain directory) name) = Path.plain directory ∧
        Path.name (Path.join (Path.plain directory) name) = name ∧
        ∀ tree written text path, Document.write tree directory name text = (written, .ok path) →
          path = Path.join (Path.plain directory) name ∧ name ≠ ".." ∧
            ∃ made here bytes, tree.makeDirectories (Path.plain directory) = (made, none) ∧
              made.follow (Path.plain directory) = .ok here ∧
              Utf8.encode? (Document.closed text) = some bytes ∧
              written.entry? (here ++ [name]) = some (.file bytes false)) := by
  constructor
  · rw [check_output_name]
    constructor
    · intro h
      split at h
      next hname =>
        obtain ⟨hne, hslash, hhere⟩ := isFileName_iff.1 hname
        exact ⟨hne, hslash, hhere⟩
      · cases h
    · rintro ⟨hne, hslash, hhere⟩
      exact if_pos (isFileName_iff.2 ⟨hne, hslash, hhere⟩)
  · intro hname directory
    have hname := isFileName_iff.1 hname
    refine ⟨?_, Path.name_below hname _, fun tree written text path h => Document.entry?_write hname h⟩
    rw [Path.parent_below hname, Path.plain_plain]

/-- A document written under a name that begins with points. -/
theorem output_names_points :
    isFileName "..a" = true ∧
      Document.write {} "out/./" "..a" "x" = ({ entries := [(["out"], .directory), (["out", "..a"], .file [0x78, 0x0A] false)] },
        .ok "out/..a") ∧
      Path.parent "out/..a" = Path.plain "out/./" := by
  have hname : isFileName "..a" = true := by decide
  have hwrite : Document.write {} "out/./" "..a" "x" =
      ({ entries := [(["out"], .directory), (["out", "..a"], .file [0x78, 0x0A] false)] }, .ok "out/..a") := by rfl
  obtain ⟨hparent, -, hwritten⟩ := (output_names "..a").2 hname "out/./"
  obtain ⟨hpath, -⟩ := hwritten _ _ _ _ hwrite
  exact ⟨hname, hwrite, hpath ▸ hparent⟩

/-- The directory around the output directory may be named, though it is no file. -/
theorem surrounding_directory_accepted :
    check [(.text "output_name", .text "..")] = .ok { outputName := ".." } := rfl

end Config

end WireSchema
