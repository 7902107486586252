import WireSchema.Doc.Block
import WireSchema.Proofs.Text.Trimming
/-!
# Rows of documentation

The rows of a block end in no white space. A tag is told by what its row holds
between the white space at its ends, and the rows up to the next tag go to it.
-/

namespace WireSchema.DocComment

open Text

variable {row name line : Text} {front rest : List Text}

/-! ## One row -/

@[simp] theorem trimEnd_blockRow (row : Text) : trimEnd (blockRow row) = blockRow row := by
  rw [blockRow, trimEnd_trimEnd]

theorem blockRow_sublist (row : Text) : (blockRow row).Sublist row := by
  have htrim : (trim row).Sublist row := dropEnds_sublist row
  refine (List.rdropWhile_prefix _ _).sublist.trans (List.Sublist.trans ?_ htrim)
  split
  · exact List.drop_sublist 2 _
  · split
    · exact List.drop_sublist 1 _
    · exact .refl _

theorem line_of_mem_blockRows {block : Text} (h : row ∈ blockRows block) :
    CodePoint.ofChar '\n' ∉ row ∧ trimEnd row = row := by
  obtain ⟨row, hrow, rfl⟩ := List.mem_map.1 h
  exact ⟨fun hline => line_of_mem_rows hrow ((blockRow_sublist row).mem hline), trimEnd_blockRow row⟩

/-- Behind a star and a space a row is kept with its indentation. -/
theorem blockRow_star (row : Text) : blockRow (" * " ++ row) = trimEnd row := by
  have htrim : trim (" * " ++ row) = CodePoint.ofChar '*' :: trimEnd (CodePoint.ofChar ' ' :: row) := by
    rw [show (" * " : Text) ++ row = " " ++ (CodePoint.ofChar '*' :: CodePoint.ofChar ' ' :: row) from rfl,
      trim_blank_append (by decide), trim_cons (by decide)]
  cases hblank : isBlank row with
  | true =>
    have hrest : trimEnd (CodePoint.ofChar ' ' :: row) = [] :=
      trimEnd_eq_nil_iff.2 (by rw [isBlank, List.all_cons]; exact hblank)
    rw [blockRow, htrim, hrest, trimEnd_eq_nil_iff.2 hblank]
    rfl
  | false =>
    have hrest : trimEnd (CodePoint.ofChar ' ' :: row) = CodePoint.ofChar ' ' :: trimEnd row :=
      trimEnd_append [CodePoint.ofChar ' '] hblank
    rw [blockRow, htrim, hrest]
    exact trimEnd_trimEnd row

/-! ## Tags -/

theorem splitFirst_space (t : Text) : splitFirst ' ' (CodePoint.ofChar ' ' :: t) = ([], t) := by
  simp [splitFirst]

theorem splitFirst_cons {c : CodePoint} (h : c ≠ CodePoint.ofChar ' ') (t : Text) :
    splitFirst ' ' (c :: t) = (c :: (splitFirst ' ' t).1, (splitFirst ' ' t).2) := by
  simp [splitFirst, h]

theorem splitFirst_append (h : CodePoint.ofChar ' ' ∉ name) (t : Text) :
    splitFirst ' ' (name ++ t) = (name ++ (splitFirst ' ' t).1, (splitFirst ' ' t).2) := by
  induction name with
  | nil => rfl
  | cons c name ih =>
    rw [List.mem_cons, not_or] at h
    rw [List.cons_append, splitFirst_cons (Ne.symm h.1), ih h.2]
    rfl

theorem splitFirst_self (h : CodePoint.ofChar ' ' ∉ name) : splitFirst ' ' name = (name, []) := by
  have happend := splitFirst_append h []
  rwa [List.append_nil, show splitFirst ' ' [] = (([] : Text), ([] : Text)) from rfl, List.append_nil] at happend

/-- The space that a text is cut at is white space. -/
theorem isBlank_splitFirst (t : Text) : isBlank t = (isBlank (splitFirst ' ' t).1 && isBlank (splitFirst ' ' t).2) := by
  induction t with
  | nil => rfl
  | cons c t ih =>
    by_cases hc : c = CodePoint.ofChar ' '
    · rw [hc, splitFirst_space]
      rfl
    · rw [splitFirst_cons hc]
      show (c.isBlank && isBlank t) = (c.isBlank && isBlank (splitFirst ' ' t).1 && isBlank (splitFirst ' ' t).2)
      rw [ih, Bool.and_assoc]

@[simp] theorem tagRow?_trimEnd (row : Text) : tagRow? (trimEnd row) = tagRow? row := by
  rw [tagRow?, tagRow?, trim_trimEnd]

theorem tagRow?_of_trim {t : Text} (hne : t ≠ []) (h : trim row = CodePoint.ofChar '@' :: t) :
    tagRow? row = some (trim (splitFirst ' ' t).1, trim (splitFirst ' ' t).2) := by
  obtain ⟨c, t, rfl⟩ := List.exists_cons_of_ne_nil hne
  rw [tagRow?, h]
  exact if_pos rfl

theorem exists_of_tagRow? (h : tagRow? row = some (name, line)) : ∃ t, t ≠ [] ∧ trim row = CodePoint.ofChar '@' :: t ∧
    name = trim (splitFirst ' ' t).1 ∧ line = trim (splitFirst ' ' t).2 := by
  rw [tagRow?] at h
  split at h
  next mark c rest htrim =>
    split at h
    next hmark =>
      cases h
      exact ⟨c :: rest, List.cons_ne_nil c rest, hmark ▸ htrim, rfl, rfl⟩
    · cases h
  · cases h

theorem groupRows_plain (h : tagRow? row = none) (rest : List Text) :
    groupRows (row :: rest) = (row :: (groupRows rest).1, (groupRows rest).2) := by
  rw [groupRows, h]

theorem groupRows_tag (h : tagRow? row = some (name, line)) (rest : List Text) :
    groupRows (row :: rest) = ([], (name, line :: (groupRows rest).1) :: (groupRows rest).2) := by
  rw [groupRows, h]

theorem groupRows_append (h : ∀ row ∈ front, tagRow? row = none) (rest : List Text) :
    groupRows (front ++ rest) = (front ++ (groupRows rest).1, (groupRows rest).2) := by
  induction front with
  | nil => rfl
  | cons row front ih =>
    rw [List.cons_append, groupRows_plain (h row List.mem_cons_self),
      ih fun row hrow => h row (List.mem_cons_of_mem _ hrow)]
    rfl

/-- Each row goes to the description or to a tag. -/
theorem groupRows_of_rows {Q : Text → Prop} {rows : List Text} (h : ∀ row ∈ rows, Q row) :
    (∀ row ∈ (groupRows rows).1, Q row ∧ tagRow? row = none) ∧
    ∀ tag ∈ (groupRows rows).2, ∃ row line others, Q row ∧ tagRow? row = some (tag.1, line) ∧ tag.2 = line :: others ∧
      ∀ row ∈ others, Q row ∧ tagRow? row = none := by
  induction rows with
  | nil => simp [groupRows]
  | cons row rows ih =>
    obtain ⟨hlines, htags⟩ := ih fun row hrow => h row (List.mem_cons_of_mem _ hrow)
    cases hrow : tagRow? row with
    | none =>
      rw [groupRows_plain hrow]
      exact ⟨List.forall_mem_cons.2 ⟨⟨h row List.mem_cons_self, hrow⟩, hlines⟩, htags⟩
    | some tag =>
      rw [groupRows_tag hrow]
      refine ⟨by simp, List.forall_mem_cons.2 ⟨?_, htags⟩⟩
      exact ⟨row, tag.2, _, h row List.mem_cons_self, hrow, rfl, hlines⟩

/-! ## Whole blocks -/

/-- A tag of a name and rows. -/
def tagOf (tag : Text × List Text) : DocTag := ⟨tag.1, trim (unrows tag.2)⟩

/-- The documentation that rows hold. -/
def ofRows (rows : List Text) : DocComment where
  description := unrows (dropBlankEnds (groupRows rows).1)
  tags := (groupRows rows).2.map tagOf

theorem ofBlock_eq (block : Text) : ofBlock block = ofRows (blockRows block) := rfl

theorem take_before_mark (s : Text) : (s ++ ("*/" : Text)).take ((s ++ ("*/" : Text)).length - 2) = s := by
  rw [List.length_append]
  exact List.take_left' rfl

/-- What stands between the marks of a block is cut into its rows. -/
theorem blockRows_of_marks (inside : Text) : blockRows ("/**" ++ inside ++ "*/") = (rows inside).map blockRow := by
  have htrim : trim ("/**" ++ inside ++ "*/") = "/**" ++ (inside ++ "*/") := by
    have hend : trimEnd ("**" ++ inside ++ "*/") = "**" ++ inside ++ "*/" := trimEnd_append _ (by decide)
    rw [List.append_assoc]
    exact (trim_cons (c := CodePoint.ofChar '/') (by decide) _).trans (congrArg _ hend)
  have hopen : startsWith ("/**" ++ (inside ++ "*/")) "/**" = true :=
    List.isPrefixOf_iff_prefix.2 (List.prefix_append _ _)
  have hclose : endsWith (inside ++ "*/") "*/" = true := List.isSuffixOf_iff_suffix.2 (List.suffix_append _ _)
  have hdrop : (("/**" : Text) ++ (inside ++ "*/")).drop 3 = inside ++ "*/" := rfl
  simp only [blockRows, htrim, hopen, if_true, hdrop, hclose, take_before_mark]

end WireSchema.DocComment
