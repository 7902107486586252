import WireSchema.Files.Path
/-!
# Components of paths

A path is a mark of its root and the components that name something. Cutting it at its
slashes gives them back, so a name put below a directory is the last component of the
path, and the path without it is the directory.
-/

namespace WireSchema

namespace Text

variable {sep c : CodePoint} {s t part : Text} {parts : List Text}

/-! ## Cutting at a separator -/

theorem splitOn_of_not_mem (h : sep ∉ t) : splitOn sep t = [t] := by
  induction t with
  | nil => rfl
  | cons c t ih =>
    rw [List.mem_cons, not_or] at h
    rw [splitOn, if_neg (Ne.symm h.1), ih h.2]

theorem not_mem_of_mem_splitOn (h : part ∈ splitOn sep t) : sep ∉ part := by
  induction t generalizing part with
  | nil =>
    rw [splitOn, List.mem_singleton] at h
    rw [h]
    exact List.not_mem_nil
  | cons c t ih =>
    obtain ⟨first, others, hparts⟩ := List.exists_cons_of_ne_nil (splitOn_ne_nil sep t)
    rw [hparts] at ih
    rw [splitOn] at h
    split at h
    next =>
      rcases List.mem_cons.1 h with rfl | h
      · exact List.not_mem_nil
      · exact ih (hparts ▸ h)
    next hc =>
      rw [hparts] at h
      rcases List.mem_cons.1 h with rfl | h
      · rw [List.mem_cons, not_or]
        exact ⟨Ne.symm hc, ih List.mem_cons_self⟩
      · exact ih (List.mem_cons_of_mem first h)

theorem splitOn_append (sep : CodePoint) (s t : Text) :
    splitOn sep (s ++ sep :: t) = splitOn sep s ++ splitOn sep t := by
  induction s with
  | nil => exact if_pos rfl
  | cons c s ih =>
    obtain ⟨first, others, hparts⟩ := List.exists_cons_of_ne_nil (splitOn_ne_nil sep s)
    rw [hparts] at ih
    rw [List.cons_append, splitOn, splitOn, ih, hparts]
    split <;> rfl

/-- Parts without the separator are given back by cutting what they are joined to. -/
theorem splitOn_join (hne : parts ≠ []) (h : ∀ part ∈ parts, sep ∉ part) : splitOn sep (join [sep] parts) = parts := by
  induction parts with
  | nil => exact absurd rfl hne
  | cons t rest ih =>
    have ht := splitOn_of_not_mem (h t List.mem_cons_self)
    cases rest with
    | nil => exact ht
    | cons u rest =>
      have hrest := ih (List.cons_ne_nil u rest) fun part hpart => h part (List.mem_cons_of_mem t hpart)
      rw [join, List.append_assoc, List.singleton_append, splitOn_append, ht, hrest]
      rfl

end Text

namespace Path

/-- A component that names something. -/
structure IsName (t : Text) : Prop where
  ne_nil : t ≠ []
  slashless : CodePoint.ofChar '/' ∉ t
  ne_here : t ≠ "."

variable {t path : Text} {names : List Text}

theorem isIdle_iff : isIdle t = true ↔ t = [] ∨ t = "." := by
  simp [isIdle]

theorem IsName.not_idle (h : IsName t) : isIdle t = false := by
  rw [← Bool.not_eq_true, isIdle_iff, not_or]
  exact ⟨h.ne_nil, h.ne_here⟩

theorem isName_of_mem_parts (h : t ∈ parts path) : IsName t := by
  obtain ⟨hmem, hidle⟩ := List.mem_filter.1 h
  rw [Bool.not_eq_true', ← Bool.not_eq_true, isIdle_iff, not_or] at hidle
  exact ⟨hidle.1, Text.not_mem_of_mem_splitOn hmem, hidle.2⟩

theorem filter_names (h : ∀ name ∈ names, IsName name) : names.filter (!isIdle ·) = names :=
  List.filter_eq_self.2 fun name hname => by rw [(h name hname).not_idle]; rfl

theorem components_of_name (h : IsName t) : components t = [t] := Text.splitOn_of_not_mem h.slashless

theorem parts_of_name (h : IsName t) : parts t = [t] := by
  rw [parts, components_of_name h]
  exact filter_names (List.forall_mem_singleton.2 h)

theorem name_of_name (h : IsName t) : name t = t := by
  rw [name, parts_of_name h]
  rfl

/-- A text that is its own last component is a name. -/
theorem isName_of_name_eq (hne : t ≠ []) (h : name t = t) : IsName t := by
  rw [name] at h
  cases hlast : (parts t).getLast? with
  | none =>
    rw [hlast] at h
    exact absurd h.symm hne
  | some u =>
    rw [hlast, Option.getD_some] at h
    exact isName_of_mem_parts (h ▸ List.mem_of_getLast? hlast)

/-! ## Paths put together -/

theorem startsWith_slash_iff : Text.startsWith t "/" = true ↔ t.head? = some (CodePoint.ofChar '/') := by
  cases t with
  | nil => exact iff_of_false (by decide) (by simp)
  | cons c t =>
    have hstart : Text.startsWith (c :: t) "/" = (CodePoint.ofChar '/' == c) := Bool.and_true _
    rw [hstart, beq_iff_eq, List.head?_cons, Option.some_inj, eq_comm]

theorem rootMark_eq_nil (h : Text.startsWith path "/" = false) : rootMark path = [] := by
  have htwo : Text.startsWith path "//" = false := by
    rw [Bool.eq_false_iff]
    intro htrue
    obtain ⟨rest, rfl⟩ := List.isPrefixOf_iff_prefix.1 htrue
    cases h
  rw [rootMark, htwo, h]
  rfl

/-- A path has no root, or one of two. -/
theorem rootMark_cases (path : Text) : rootMark path = [] ∨ rootMark path = "/" ∨ rootMark path = "//" := by
  rw [rootMark]
  split
  · exact .inr (.inr rfl)
  · split
    · exact .inr (.inl rfl)
    · exact .inl rfl

/-- Behind its mark a root ends. -/
theorem rootMark_append (path : Text) (h : t.head? ≠ some (CodePoint.ofChar '/')) :
    rootMark (rootMark path ++ t) = rootMark path := by
  have hslash : Text.startsWith t "/" = false := Bool.eq_false_iff.2 (mt startsWith_slash_iff.1 h)
  have hone : Text.startsWith ("/" ++ t) "//" = Text.startsWith t "/" := rfl
  have htwo : Text.startsWith ("//" ++ t) "///" = Text.startsWith t "/" := rfl
  rcases rootMark_cases path with hroot | hroot | hroot
  · rw [hroot, List.nil_append, rootMark_eq_nil hslash]
  · rw [hroot, rootMark, hone, hslash]
    rfl
  · have hstart : Text.startsWith ("//" ++ t) "//" = true := rfl
    rw [hroot, rootMark, htwo, hslash, hstart]
    rfl

theorem head?_join (h : ∀ name ∈ names, IsName name) : (Text.join "/" names).head? ≠ some (CodePoint.ofChar '/') := by
  cases names with
  | nil => simp [Text.join]
  | cons name rest =>
    obtain ⟨c, cs, rfl⟩ := List.exists_cons_of_ne_nil (h name List.mem_cons_self).ne_nil
    have hc := (h _ List.mem_cons_self).slashless
    rw [List.mem_cons, not_or] at hc
    have hhead : (Text.join "/" ((c :: cs) :: rest)).head? = some c := by cases rest <;> rfl
    rw [hhead, ne_eq, Option.some_inj]
    exact Ne.symm hc.1

theorem parts_append (path t : Text) : parts (rootMark path ++ t) = parts t := by
  have hslash (t : Text) : parts (CodePoint.ofChar '/' :: t) = parts t := by
    rw [parts, components, Text.splitOn, if_pos rfl]
    rfl
  rcases rootMark_cases path with hroot | hroot | hroot
  · rw [hroot, List.nil_append]
  · rw [hroot]
    exact hslash t
  · rw [hroot]
    exact (hslash _).trans (hslash t)

theorem components_join (hne : names ≠ []) (h : ∀ name ∈ names, IsName name) :
    components (Text.join "/" names) = names :=
  Text.splitOn_join hne fun name hname => (h name hname).slashless

theorem parts_join (h : ∀ name ∈ names, IsName name) : parts (Text.join "/" names) = names := by
  by_cases hne : names = []
  · rw [hne]
    rfl
  · rw [parts, components_join hne h, filter_names h]

theorem join_ne_nil (h : ∀ name ∈ names, IsName name) (hne : names ≠ []) : Text.join "/" names ≠ [] := by
  intro hnil
  have hparts := parts_join h
  rw [hnil] at hparts
  exact hne hparts.symm

/-- The path with a root and components that name something. -/
theorem plain_append (path : Text) (h : ∀ name ∈ names, IsName name) :
    plain (rootMark path ++ Text.join "/" names) =
      if (rootMark path ++ Text.join "/" names).isEmpty then Text.ofString "."
      else rootMark path ++ Text.join "/" names := by
  rw [plain, rootMark_append path (head?_join h), parts_append, parts_join h]

theorem parts_plain (path : Text) : parts (plain path) = parts path := by
  have hnames : ∀ name ∈ parts path, IsName name := fun _ => isName_of_mem_parts
  rw [plain]
  split
  next hempty =>
    rw [List.isEmpty_iff, List.append_eq_nil_iff] at hempty
    by_cases hne : parts path = []
    · rw [hne]
      decide
    · exact absurd hempty.2 (join_ne_nil hnames hne)
  next => rw [parts_append, parts_join hnames]

theorem rootMark_plain (path : Text) : rootMark (plain path) = rootMark path := by
  rw [plain]
  split
  next hempty =>
    rw [List.isEmpty_iff, List.append_eq_nil_iff] at hempty
    rw [hempty.1]
    decide
  next => exact rootMark_append path (head?_join fun _ => isName_of_mem_parts)

/-- A path is plain once it has been made so. -/
theorem plain_plain (path : Text) : plain (plain path) = plain path := by
  rw [plain.eq_1 (plain path), rootMark_plain, parts_plain, ← plain.eq_1 path]

/-! ## A name below a directory -/

section
variable {name : Text} (h : IsName name) (directory : Text)
include h

theorem names_below : ∀ part ∈ parts directory ++ [name], IsName part := by
  intro part hpart
  rcases List.mem_append.1 hpart with hpart | hpart
  · exact isName_of_mem_parts hpart
  · rw [List.mem_singleton.1 hpart]
    exact h

theorem join_eq : join directory name = rootMark directory ++ Text.join "/" (parts directory ++ [name]) := by
  have hslash : ¬ Text.startsWith name "/" = true := by
    rw [startsWith_slash_iff]
    exact fun hhead => h.slashless (List.mem_of_head? hhead)
  have hne : ¬ (rootMark directory ++ Text.join "/" (parts directory ++ [name])).isEmpty = true := by
    rw [List.isEmpty_iff, List.append_eq_nil_iff, not_and]
    exact fun _ => join_ne_nil (names_below h directory) (by simp)
  rw [join, if_neg hslash, plain_append directory (names_below h directory), if_neg hne]

theorem parts_below : parts (join directory name) = parts directory ++ [name] := by
  rw [join_eq h, parts_append, parts_join (names_below h directory)]

theorem name_below : Path.name (join directory name) = name := by
  rw [Path.name, parts_below h, List.getLast?_concat]
  rfl

/-- The path without the name is the directory. -/
theorem parent_below : parent (join directory name) = plain directory := by
  have hroot : rootMark (join directory name) = rootMark directory := by
    rw [join_eq h]
    exact rootMark_append directory (head?_join (names_below h directory))
  have hnames : ∀ part ∈ parts directory, IsName part := fun _ => isName_of_mem_parts
  rw [parent, hroot, parts_below h, List.dropLast_concat, plain_append directory hnames]
  rfl

end

end Path

end WireSchema
