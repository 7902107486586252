import WireSchema.Proofs.Project.Cells
/-!
# Names of fields

What is written for the name of a field is one token that the name is read off
again: the name itself if it is an identifier, otherwise the name between
backquotes. An identifier with a line feed behind it is the one name that stands
bare and is no identifier, and it is still told apart from every other name.
-/

namespace WireSchema.TypeSpec

/-- What stands before the first backquote that no backslash takes along, without
its backslashes, and what stands behind that backquote. -/
def backquoted? : Text → Option (Text × Text)
  | [] => none
  | [c] => if c = '`' then some ([], []) else none
  | c :: d :: rest =>
    if c = '`' then some ([], d :: rest)
    else if c = '\\' then (backquoted? rest).map fun (name, behind) => (d :: name, behind)
    else (backquoted? (d :: rest)).map fun (name, behind) => (c :: name, behind)

/-- The name of a field that a text begins with, and what stands behind it. -/
def readName? : Text → Option (Text × Text)
  | [] => none
  | c :: rest =>
    if c = '`' then backquoted? rest
    else if beginsPlain c then
      some (c :: rest.takeWhile continuesPlain, rest.dropWhile continuesPlain)
    else none

/-- The text is the name and an identifier, or it stands between backquotes, only
the second of which no backslash takes along, and reads as the name. -/
def Spells (name written : Text) : Prop :=
  (written = name ∧ name.isIdentifier = true) ∨
    ∃ inside, written = "`" ++ inside ++ "`" ∧ backquoted? (inside ++ "`") = some (name, [])

/-- An identifier with a line feed behind it. -/
def IsFedName (name : Text) : Prop := ∃ plain : Text, plain.isIdentifier = true ∧ name = plain ++ "\n"

/-! ## Between backquotes -/

section
variable {c : CodePoint} {name rest written : Text}

theorem backquoted?_close (rest : Text) : backquoted? ('`' :: rest) = some ([], rest) := by
  cases rest <;> rw [backquoted?, if_pos rfl]

theorem backquoted?_slash (c : CodePoint) (rest : Text) :
    backquoted? ('\\' :: c :: rest) = (backquoted? rest).map fun (name, behind) => (c :: name, behind) := by
  rw [backquoted?, if_neg (by simp), if_pos rfl]

theorem backquoted?_cons (hslash : c ≠ '\\') (hquote : c ≠ '`') (rest : Text) :
    backquoted? (c :: rest) = (backquoted? rest).map fun (name, behind) => (c :: name, behind) := by
  cases rest with
  | nil => simp [backquoted?, hquote]
  | cons d rest => rw [backquoted?, if_neg hquote, if_neg hslash]

/-- A name between backquotes is read up to the second one. -/
theorem backquoted?_flatMap (name rest : Text) :
    backquoted? (name.flatMap backquote ++ CodePoint.ofChar '`' :: rest) = some (name, rest) := by
  induction name with
  | nil => exact backquoted?_close rest
  | cons c name ih =>
    rw [List.flatMap_cons, backquote, List.append_assoc]
    split
    · show backquoted? ('\\' :: c :: (name.flatMap backquote ++ CodePoint.ofChar '`' :: rest)) = _
      rw [backquoted?_slash, ih]
      rfl
    next hplain =>
      rw [not_or] at hplain
      show backquoted? (c :: (name.flatMap backquote ++ CodePoint.ofChar '`' :: rest)) = _
      rw [backquoted?_cons hplain.1 hplain.2, ih]
      rfl

/-- What comes behind the second backquote does not matter. -/
theorem backquoted?_append {t behind : Text} (h : backquoted? t = some (name, behind)) (rest : Text) :
    backquoted? (t ++ rest) = some (name, behind ++ rest) := by
  induction t using backquoted?.induct generalizing name with
  | case1 => cases h
  | case2 =>
    rw [backquoted?_close] at h
    cases h
    exact backquoted?_close rest
  | case3 c hquote => rw [backquoted?, if_neg hquote] at h; cases h
  | case4 d t =>
    rw [backquoted?_close] at h
    cases h
    exact backquoted?_close _
  | case5 c t hquote ih =>
    rw [backquoted?_slash, Option.map_eq_some_iff] at h
    obtain ⟨⟨front, _⟩, hfront, heq⟩ := h
    cases heq
    have hbehind := ih hfront
    show backquoted? ('\\' :: c :: (t ++ rest)) = _
    rw [backquoted?_slash, hbehind]
    rfl
  | case6 c d t hquote hslash ih =>
    rw [backquoted?_cons hslash hquote, Option.map_eq_some_iff] at h
    obtain ⟨⟨front, _⟩, hfront, heq⟩ := h
    cases heq
    have hbehind := ih hfront
    show backquoted? (c :: (d :: t ++ rest)) = _
    rw [backquoted?_cons hslash hquote, hbehind]
    rfl

/-! ## Bare names -/

theorem isPlainName_backquoted (name : Text) : isPlainName ("`" ++ name) = false := rfl

theorem isPlainName_iff (name : Text) : isPlainName name = true ↔ name.isIdentifier = true ∨ IsFedName name := by
  cases name with
  | nil =>
    refine ⟨nofun, ?_⟩
    rintro (hname | ⟨plain, _, hfed⟩)
    · cases hname
    · cases plain <;> cases hfed
  | cons c rest =>
    rw [isPlainName, Text.isIdentifier, Bool.and_or_distrib_left, Bool.or_eq_true]
    refine or_congr .rfl ?_
    rw [Bool.and_eq_true, Bool.and_eq_true, beq_iff_eq]
    constructor
    · rintro ⟨hfirst, hlast, hinner⟩
      obtain ⟨front, rfl⟩ := List.getLast?_eq_some_iff.1 hlast
      rw [List.dropLast_concat] at hinner
      exact ⟨c :: front, by rw [Text.isIdentifier, hfirst, hinner]; rfl, rfl⟩
    · rintro ⟨plain, hplain, hfed⟩
      cases plain with
      | nil => cases hplain
      | cons d front =>
        obtain ⟨rfl, rfl⟩ := List.cons.inj hfed
        rw [Text.isIdentifier, Bool.and_eq_true] at hplain
        have hlast : (front ++ ("\n" : Text)).getLast? = some (CodePoint.ofChar '\n') := List.getLast?_concat
        have hinner : (front ++ ("\n" : Text)).dropLast = front := List.dropLast_concat
        exact ⟨hplain.1, hlast, (congrArg (List.all · continuesPlain) hinner).trans hplain.2⟩

theorem line_of_isIdentifier (h : name.isIdentifier = true) : CodePoint.ofChar '\n' ∉ name := by
  have hfeed : continuesPlain '\n' = false := rfl
  intro hmem
  cases name with
  | nil => cases hmem
  | cons c rest =>
    rw [Text.isIdentifier, Bool.and_eq_true, List.all_eq_true] at h
    rcases List.mem_cons.1 hmem with rfl | hmem
    · rw [continuesPlain, h.1, Bool.true_or] at hfeed
      cases hfeed
    · rw [h.2 _ hmem] at hfeed
      cases hfeed

theorem not_isFedName (h : name.isIdentifier = true) : ¬ IsFedName name := by
  rintro ⟨plain, _, rfl⟩
  exact line_of_isIdentifier h (List.mem_append_right plain List.mem_cons_self)

/-- A name with a line feed is not spelled by itself. -/
theorem not_spells_self (h : IsFedName name) : ¬ Spells name name := by
  rintro (⟨_, hname⟩ | ⟨inside, hquoted, _⟩)
  · exact not_isFedName hname h
  · have hplain := (isPlainName_iff name).2 (.inr h)
    rw [hquoted, List.append_assoc, isPlainName_backquoted] at hplain
    cases hplain

theorem fieldName_of_isFedName (h : IsFedName name) : fieldName name = name := by
  rw [fieldName, if_pos ((isPlainName_iff name).2 (.inr h))]

theorem fieldName_of_not_bare (hname : name.isIdentifier ≠ true) (hfed : ¬ IsFedName name) :
    fieldName name = "`" ++ name.flatMap backquote ++ "`" := by
  rw [fieldName, if_neg (by rw [isPlainName_iff, not_or]; exact ⟨hname, hfed⟩)]

/-- A name is spelled by what is written for it, unless it is an identifier with a line feed. -/
theorem spells_fieldName (hfed : ¬ IsFedName name) : Spells name (fieldName name) := by
  by_cases hname : name.isIdentifier = true
  · exact .inl ⟨fieldName_eq hname, hname⟩
  · exact .inr ⟨_, fieldName_of_not_bare hname hfed, backquoted?_flatMap name []⟩

/-- What is written for a name is read up to its end, whatever comes behind it
that a plain name does not go on with. -/
theorem readName?_of_spells (h : Spells name written) (hrest : ∀ c ∈ rest.head?, continuesPlain c = false) :
    readName? (written ++ rest) = some (name, rest) := by
  rcases h with ⟨rfl, hname⟩ | ⟨inside, rfl, hinside⟩
  · cases written with
    | nil => cases hname
    | cons c name =>
      rw [Text.isIdentifier, Bool.and_eq_true, List.all_eq_true] at hname
      have hquote : c ≠ '`' := fun hc => by
        subst hc
        cases hname.1
      have htake : (name ++ rest).takeWhile continuesPlain = name := by
        rw [List.takeWhile_append_of_pos hname.2]
        cases rest with
        | nil => simp
        | cons d rest => rw [List.takeWhile_cons, if_neg (by simp [hrest d rfl]), List.append_nil]
      have hdrop : (name ++ rest).dropWhile continuesPlain = rest := by
        rw [List.dropWhile_append_of_pos hname.2]
        cases rest with
        | nil => rfl
        | cons d rest => rw [List.dropWhile_cons, if_neg (by simp [hrest d rfl])]
      rw [List.cons_append, readName?, if_neg hquote, if_pos hname.1, htake, hdrop]
  · show readName? ('`' :: (inside ++ "`" ++ rest)) = _
    rw [readName?, if_pos rfl, backquoted?_append hinside rest, List.nil_append]

/-- Fields of different names are written differently. -/
theorem fieldName_injective {other : Text} (h : fieldName name = fieldName other) : name = other := by
  rw [fieldName, fieldName] at h
  split at h <;> split at h
  · exact h
  next hplain _ =>
    rw [h, List.append_assoc, isPlainName_backquoted] at hplain
    cases hplain
  next hplain =>
    rw [← h, List.append_assoc, isPlainName_backquoted] at hplain
    cases hplain
  · rw [List.append_assoc, List.append_assoc] at h
    have hinside : name.flatMap backquote ++ [CodePoint.ofChar '`'] =
        other.flatMap backquote ++ [CodePoint.ofChar '`'] :=
      List.append_cancel_left h
    have hread := backquoted?_flatMap name []
    rw [hinside, backquoted?_flatMap other []] at hread
    cases hread
    rfl

end

/-- Just an identifier with a line feed behind it is not spelled by what is
written for it: it stands bare. All names are told apart, and any other is read
off the field that it begins. -/
theorem field_names_read (name : Text) :
    (Spells name (fieldName name) ↔ ¬ IsFedName name) ∧
    (IsFedName name → fieldName name = name) ∧
    (∀ other, fieldName name = fieldName other → name = other) ∧
    ∀ rest, ¬ IsFedName name → (∀ c ∈ rest.head?, continuesPlain c = false) →
      readName? (fieldName name ++ rest) = some (name, rest) := by
  refine ⟨⟨fun hspells hfed => ?_, spells_fieldName⟩, fieldName_of_isFedName,
    fun _ => fieldName_injective, fun _ hfed => readName?_of_spells (spells_fieldName hfed)⟩
  rw [fieldName_of_isFedName hfed] at hspells
  exact not_spells_self hfed hspells

/-- The line feed behind an identifier stands outside of backquotes. -/
theorem fieldName_line_feed : fieldName "a\n" = "a\n" ∧ ¬ Spells "a\n" (fieldName "a\n") := by
  have hfed : IsFedName "a\n" := ⟨"a", rfl, rfl⟩
  refine ⟨fieldName_of_isFedName hfed, ?_⟩
  rw [fieldName_of_isFedName hfed]
  exact not_spells_self hfed

end WireSchema.TypeSpec
