import WireSchema.Proofs.Doc.Rows
/-!
# Documentation written back

Documentation that was read off a block is written as a block in one way, with
each row behind a star, and reads as itself again. It is tidy: no row ends in
white space, the description neither begins nor ends with a blank row, and no
row but the first one of a tag would start a tag.
-/

namespace WireSchema

open Text

/-! ## Blocks -/

/-- A row of a description behind its star. -/
def DocComment.starRow (row : Text) : Text := if row = [] then " *" else " * " ++ row

/-- The rows of a tag behind their stars, the first of them with the name. -/
def DocTag.starRows (tag : DocTag) : List Text :=
  (" * @" ++ tag.name ++ " " ++ (rows tag.text).headD []) :: (rows tag.text).tail.map (" * " ++ ·)

namespace DocComment

/-- A block of rows and tags. -/
def blockOf (lines : List Text) (tags : List DocTag) : Text :=
  unrows (Text.ofString "/**" :: (lines.map starRow ++ tags.flatMap DocTag.starRows ++ [Text.ofString " */"]))

/-- The documentation as a block. -/
def toBlock (doc : DocComment) : Text := blockOf (rows doc.description) doc.tags

end DocComment

/-- A tag whose name and rows are read as they are written. -/
structure DocTag.Tidy (tag : DocTag) : Prop where
  name : trim tag.name = tag.name
  space : CodePoint.ofChar ' ' ∉ tag.name
  line : CodePoint.ofChar '\n' ∉ tag.name
  text : trim tag.text = tag.text
  shown : tag.name ≠ [] ∨ tag.text ≠ []
  rows : ∀ row ∈ rows tag.text, trimEnd row = row
  others : ∀ row ∈ (Text.rows tag.text).tail, DocComment.tagRow? row = none

namespace DocComment

/-- A description that begins and ends with a row that is not blank, and tidy tags. -/
structure Tidy (doc : DocComment) : Prop where
  rows : ∀ row ∈ rows doc.description, trimEnd row = row ∧ tagRow? row = none
  ends : unrows (dropBlankEnds (Text.rows doc.description)) = doc.description
  tags : ∀ tag ∈ doc.tags, tag.Tidy

section
variable {row name first text : Text} {lines others : List Text} {tag : DocTag} {tags : List DocTag}

theorem blockRow_starRow (row : Text) : blockRow (starRow row) = trimEnd row := by
  rw [starRow]
  split
  next hnil =>
    subst hnil
    rfl
  · exact blockRow_star row

/-! ## What is written is read -/

theorem not_blank_of_trim {c : CodePoint} {t : Text} (h : trim (c :: t) = c :: t) : c.isBlank = false := by
  refine Bool.eq_false_iff.2 fun hblank => ?_
  have htrim : trim (c :: t) = trim t := trim_blank_append (s := [c]) (by rw [isBlank, List.all_cons, hblank]; rfl) t
  have hlength : (trim t).length ≤ t.length := (dropEnds_sublist t).length_le
  rw [← htrim, h, List.length_cons] at hlength
  exact Nat.not_succ_le_self _ hlength

/-- The first row of a text without white space at its ends has none either. -/
theorem trim_first (h : trim text = text) (hrows : rows text = first :: others) (hend : trimEnd first = first) :
    trim first = first ∧ (text ≠ [] → first ≠ []) := by
  cases text with
  | nil =>
    cases hrows
    exact ⟨rfl, fun hne => absurd rfl hne⟩
  | cons c t =>
    have hc := not_blank_of_trim h
    have hline : c ≠ '\n' := by
      rintro rfl
      cases hc
    obtain ⟨first', others', hrows'⟩ := exists_rows t
    rw [rows_cons hline hrows'] at hrows
    cases hrows
    rw [trimEnd_cons hc] at hend
    exact ⟨(trim_cons hc first').trans hend, fun _ => List.cons_ne_nil c first'⟩

theorem tagRow?_tidy (h : tag.Tidy) (hrows : rows tag.text = first :: others) :
    tagRow? ("@" ++ tag.name ++ " " ++ first) = some (tag.name, first) := by
  obtain ⟨hfirst, hshown⟩ := trim_first h.text hrows (h.rows first (hrows ▸ List.mem_cons_self))
  have htrim : trim ("@" ++ tag.name ++ " " ++ first) =
      CodePoint.ofChar '@' :: trimEnd (tag.name ++ CodePoint.ofChar ' ' :: first) := by
    rw [List.append_assoc, List.append_assoc]
    exact trim_cons (by decide) _
  by_cases hnil : first = []
  · have hname : tag.name ≠ [] := h.shown.elim id fun htext => absurd hnil (hshown htext)
    rw [hnil, trimEnd_append_blank _ (by decide), trimEnd_of_trim h.name] at htrim
    rw [hnil, tagRow?_of_trim hname htrim, splitFirst_self h.space, h.name]
    rfl
  · have hblank : isBlank first = false := not_isBlank_of_trim hfirst hnil
    have hend : trimEnd (tag.name ++ CodePoint.ofChar ' ' :: first) = tag.name ++ CodePoint.ofChar ' ' :: first := by
      rw [← List.singleton_append, ← List.append_assoc, trimEnd_append _ hblank, trimEnd_of_trim hfirst]
    rw [hend] at htrim
    rw [tagRow?_of_trim (by simp) htrim, splitFirst_append h.space, splitFirst_space, List.append_nil, h.name, hfirst]

/-- The rows of a tag as they are read. -/
def readRows (tag : DocTag) : List Text :=
  trimEnd ("@" ++ tag.name ++ " " ++ (rows tag.text).headD []) :: (rows tag.text).tail

theorem map_blockRow_starRows (h : tag.Tidy) : tag.starRows.map blockRow = readRows tag := by
  have hothers : (rows tag.text).tail.map (blockRow ∘ (" * " ++ ·)) = (rows tag.text).tail := by
    refine List.map_congr_left (g := id) (fun row hrow => ?_) |>.trans (List.map_id _)
    exact (blockRow_star row).trans (h.rows row (List.mem_of_mem_tail hrow))
  rw [DocTag.starRows, List.map_cons, List.map_map, hothers, readRows]
  congr 1
  rw [← blockRow_star]
  simp only [List.append_assoc]
  rfl

/-- Tags are read one after the other, with blank rows behind the last of them. -/
theorem groupRows_tags (h : ∀ tag ∈ tags, tag.Tidy) (hblank : ∀ row ∈ lines, isBlank row = true) :
    (∀ row ∈ (groupRows (tags.flatMap readRows ++ lines)).1, isBlank row = true) ∧
    (groupRows (tags.flatMap readRows ++ lines)).2.map tagOf = tags := by
  induction tags with
  | nil =>
    have hplain : ∀ row ∈ lines, tagRow? row = none := fun row hrow => by
      rw [tagRow?, trim_eq_nil_iff.2 (hblank row hrow)]
    have hgroup := groupRows_append hplain []
    rw [List.append_nil] at hgroup
    rw [List.flatMap_nil, List.nil_append, hgroup, groupRows, List.append_nil]
    exact ⟨hblank, rfl⟩
  | cons tag tags ih =>
    obtain ⟨hlines, htags⟩ := ih fun tag htag => h tag (List.mem_cons_of_mem _ htag)
    have htidy := h tag List.mem_cons_self
    obtain ⟨first, others, hrows⟩ := exists_rows tag.text
    have hrow := tagRow?_tidy htidy hrows
    have hothers : ∀ row ∈ others, tagRow? row = none := by
      have hall := htidy.others
      rwa [hrows] at hall
    rw [List.flatMap_cons, readRows, hrows, List.headD_cons, List.tail_cons, List.append_assoc, List.cons_append,
      groupRows_tag ((tagRow?_trimEnd _).trans hrow), groupRows_append hothers, List.map_cons, htags]
    refine ⟨by simp, ?_⟩
    -- What the other tags leave over is blank, and is taken off the text.
    have htag : tagOf (tag.name, first :: (others ++ (groupRows (tags.flatMap readRows ++ lines)).1)) = tag := by
      rw [tagOf, ← List.cons_append, trim_unrows_append (first :: others) hlines, ← hrows, unrows_rows, htidy.text]
    rw [htag]

theorem unrows_concat_append (parts : List Text) (t u : Text) :
    unrows (parts ++ [t ++ u]) = unrows (parts ++ [t]) ++ u := by
  cases parts with
  | nil => rfl
  | cons row rest =>
    rw [unrows_append (by simp) (by simp), unrows_append (by simp) (by simp)]
    exact (List.append_assoc _ _ _).symm

/-- The rows of a block are read each by itself. -/
theorem blockRows_written (hlines : ∀ row ∈ lines, CodePoint.ofChar '\n' ∉ row) :
    blockRows (unrows (Text.ofString "/**" :: (lines ++ [Text.ofString " */"]))) =
      [] :: (lines.map blockRow ++ [[]]) := by
  have hmarks : unrows (Text.ofString "/**" :: (lines ++ [Text.ofString " */"])) =
      "/**" ++ unrows ([] :: (lines ++ [Text.ofString " "])) ++ "*/" := by
    have hend := unrows_concat_append lines " " "*/"
    rw [unrows_cons _ (by simp), unrows_cons _ (by simp),
      show Text.ofString " */" = Text.ofString " " ++ "*/" from rfl, hend]
    simp only [List.append_assoc]
    rfl
  have hrows : rows (unrows ([] :: (lines ++ [Text.ofString " "]))) = [] :: (lines ++ [Text.ofString " "]) := by
    refine rows_unrows_of_lines (List.cons_ne_nil _ _) (List.forall_mem_cons.2 ⟨by simp, fun row hrow => ?_⟩)
    rcases List.mem_append.1 hrow with hrow | hrow
    · exact hlines row hrow
    · rw [List.mem_singleton.1 hrow]
      decide
  rw [hmarks, blockRows_of_marks, hrows, List.map_cons, List.map_append]
  rfl

theorem line_starRow (h : CodePoint.ofChar '\n' ∉ row) : CodePoint.ofChar '\n' ∉ starRow row := by
  rw [starRow]
  split
  · decide
  · rw [List.mem_append, not_or]
    exact ⟨by decide, h⟩

theorem line_of_mem_starRows (h : tag.Tidy) (hrow : row ∈ tag.starRows) : CodePoint.ofChar '\n' ∉ row := by
  obtain ⟨first, others, hrows⟩ := exists_rows tag.text
  have hline : ∀ row ∈ first :: others, CodePoint.ofChar '\n' ∉ row := fun row hrow => line_of_mem_rows (hrows ▸ hrow)
  rw [DocTag.starRows, hrows] at hrow
  rcases List.mem_cons.1 hrow with rfl | hrow
  · simp only [List.headD_cons, List.mem_append, not_or]
    exact ⟨⟨⟨by decide, h.line⟩, by decide⟩, hline first List.mem_cons_self⟩
  · obtain ⟨other, hother, rfl⟩ := List.mem_map.1 hrow
    rw [List.mem_append, not_or]
    exact ⟨by decide, hline other (List.mem_cons_of_mem _ hother)⟩

/-- Rows that start no tag and tidy tags are read off the block of them. -/
theorem ofBlock_blockOf (hlines : ∀ row ∈ lines, CodePoint.ofChar '\n' ∉ row ∧ trimEnd row = row ∧ tagRow? row = none)
    (htags : ∀ tag ∈ tags, tag.Tidy) :
    ofBlock (blockOf lines tags) = { description := unrows (dropBlankEnds lines), tags } := by
  have hstar : ∀ row ∈ lines.map starRow ++ tags.flatMap DocTag.starRows, CodePoint.ofChar '\n' ∉ row := by
    intro row hrow
    rcases List.mem_append.1 hrow with hrow | hrow
    · obtain ⟨line, hline, rfl⟩ := List.mem_map.1 hrow
      exact line_starRow (hlines line hline).1
    · obtain ⟨tag, htag, hrow⟩ := List.mem_flatMap.1 hrow
      exact line_of_mem_starRows (htags tag htag) hrow
  have hread : (lines.map starRow).map blockRow = lines := by
    rw [List.map_map]
    refine (List.map_congr_left fun row hrow => ?_).trans (List.map_id lines)
    exact (blockRow_starRow row).trans (hlines row hrow).2.1
  have htagRows : (tags.flatMap DocTag.starRows).map blockRow = tags.flatMap readRows := by
    rw [List.map_flatMap]
    exact List.flatMap_congr fun tag htag => map_blockRow_starRows (htags tag htag)
  obtain ⟨hblank, hread_tags⟩ := groupRows_tags htags (show ∀ row ∈ [[]], isBlank row = true by simp [isBlank])
  have hends : dropBlankEnds ([] :: (lines ++ (groupRows (tags.flatMap readRows ++ [[]])).1)) = dropBlankEnds lines :=
    dropEnds_append (s := [[]]) (by simp [isBlank]) hblank
  rw [ofBlock_eq, blockOf, blockRows_written hstar, List.map_append, hread, htagRows, List.append_assoc, ofRows,
    groupRows_plain rfl, groupRows_append fun row hrow => (hlines row hrow).2.2, hread_tags, hends]

theorem ofBlock_toBlock {doc : DocComment} (h : doc.Tidy) : ofBlock (toBlock doc) = doc := by
  have hlines : ∀ row ∈ rows doc.description, CodePoint.ofChar '\n' ∉ row ∧ trimEnd row = row ∧ tagRow? row = none :=
    fun row hrow => ⟨line_of_mem_rows hrow, h.rows row hrow⟩
  rw [toBlock, ofBlock_blockOf hlines h.tags, h.ends]

/-! ## What is read is tidy -/

/-- The rows that white space is taken off from stay as they are but for the first one. -/
theorem rows_trim_unrows (h : ∀ row ∈ lines, CodePoint.ofChar '\n' ∉ row ∧ trimEnd row = row) :
    (∀ row ∈ rows (trim (unrows lines)), trimEnd row = row) ∧
      ∀ row ∈ (rows (trim (unrows lines))).tail, row ∈ lines.tail := by
  by_cases hnil : trim (unrows lines) = []
  · rw [hnil, rows_nil]
    exact ⟨List.forall_mem_cons.2 ⟨rfl, by simp⟩, by simp⟩
  -- The first row that is not blank loses its indentation, those behind it are rows as they were.
  obtain ⟨front, row, back, rfl, hrow, htrim⟩ := trim_unrows (fun row hrow => (h row hrow).2) hnil
  have hback {other : Text} (hother : other ∈ back.rdropWhile isBlank) : other ∈ back :=
    (List.rdropWhile_prefix _ _).mem hother
  have hall : ∀ other ∈ row.dropWhile CodePoint.isBlank :: back.rdropWhile isBlank,
      CodePoint.ofChar '\n' ∉ other ∧ trimEnd other = other := by
    obtain ⟨hline, hend⟩ := h row (by simp)
    refine List.forall_mem_cons.2 ⟨⟨fun hmem => hline ((List.dropWhile_suffix _).mem hmem), ?_⟩, fun other hother => ?_⟩
    · exact (trimEnd_dropWhile hend hrow).1
    · exact h other (by simp [hback hother])
  rw [htrim, rows_unrows_of_lines (List.cons_ne_nil _ _) fun other hother => (hall other hother).1]
  refine ⟨fun other hother => (hall other hother).2, fun other hother => ?_⟩
  cases front with
  | nil => exact hback hother
  | cons t front =>
    exact List.mem_append_right front (List.mem_cons_of_mem row (hback hother))

theorem tidy_tagOf {tag : Text × List Text} (hrow : tagRow? row = some (tag.1, first))
    (hline : CodePoint.ofChar '\n' ∉ row) (htag : tag.2 = first :: others)
    (hothers : ∀ row ∈ others, (CodePoint.ofChar '\n' ∉ row ∧ trimEnd row = row) ∧ tagRow? row = none) :
    (tagOf tag).Tidy := by
  obtain ⟨t, hne, htrim, hname, hfirst⟩ := exists_of_tagRow? hrow
  -- what is read off the row is a part of it, so no line break comes in
  have hsub : t.Sublist row := by
    have htrimmed : (trim row).Sublist row := dropEnds_sublist row
    rw [htrim] at htrimmed
    exact (List.sublist_cons_self _ t).trans htrimmed
  have hend : trimEnd t = t := by
    have htrimmed : trimEnd (trim row) = trim row := trimEnd_trim row
    rw [htrim, trimEnd_cons (by decide)] at htrimmed
    exact List.tail_eq_of_cons_eq htrimmed
  have hbefore : (splitFirst ' ' t).1.Sublist t := List.takeWhile_sublist _
  have hbehind : (splitFirst ' ' t).2.Sublist t := (List.drop_sublist 1 _).trans (List.dropWhile_sublist _)
  have hmem {c : CodePoint} {t : Text} (hc : c ∈ trim t) : c ∈ t := (dropEnds_sublist t).mem hc
  have hlines : ∀ row ∈ tag.2, CodePoint.ofChar '\n' ∉ row ∧ trimEnd row = row := by
    rw [htag, hfirst]
    exact List.forall_mem_cons.2 ⟨⟨fun h => hline (hsub.mem (hbehind.mem (hmem h))), trimEnd_trim _⟩,
      fun row hrow => (hothers row hrow).1⟩
  obtain ⟨hends, htail⟩ := rows_trim_unrows hlines
  refine ⟨?name, ?space, ?line, trim_trim _, ?shown, hends, fun row hrow => ?others⟩
  case name => rw [tagOf, hname, trim_trim]
  case space =>
    rw [tagOf, hname]
    exact fun h => absurd (List.mem_takeWhile_imp (hmem h)) (by simp)
  case line =>
    rw [tagOf, hname]
    exact fun h => hline (hsub.mem (hbefore.mem (hmem h)))
  case shown =>
    rw [tagOf, hname]
    -- either the name or the first row of the text is not blank
    have hblank : isBlank t = false := not_isBlank_of_trimEnd hend hne
    rw [isBlank_splitFirst, Bool.and_eq_false_iff] at hblank
    refine hblank.imp (fun h hnil => ?_) fun h hnil => ?_
    · rw [trim_eq_nil_iff, h] at hnil
      cases hnil
    · have hline : isBlank first = false := by
        rw [hfirst, isBlank_trim]
        exact h
      have hrows : isBlank (unrows tag.2) = false := isBlank_join "\n" (htag ▸ List.mem_cons_self) hline
      rw [trim_eq_nil_iff, hrows] at hnil
      cases hnil
  case others =>
    have hrest := htail row hrow
    rw [htag] at hrest
    exact (hothers row hrest).2

theorem tidy_ofRows {rows : List Text} (h : ∀ row ∈ rows, CodePoint.ofChar '\n' ∉ row ∧ trimEnd row = row) :
    (ofRows rows).Tidy := by
  obtain ⟨hlines, htags⟩ := groupRows_of_rows h
  have hmem {row : Text} (hrow : row ∈ dropBlankEnds (groupRows rows).1) : row ∈ (groupRows rows).1 :=
    (dropEnds_sublist (groupRows rows).1).mem hrow
  have hdescription : Text.rows (ofRows rows).description = dropBlankEnds (groupRows rows).1 ∨
      (ofRows rows).description = [] := by
    by_cases hnil : dropBlankEnds (groupRows rows).1 = []
    · exact .inr (by rw [ofRows, hnil]; rfl)
    · exact .inl (rows_unrows_of_lines hnil fun row hrow => (hlines row (hmem hrow)).1.1)
  refine ⟨fun row hrow => ?_, ?_, fun tag htag => ?_⟩
  · rcases hdescription with hrows | hnil
    · rw [hrows] at hrow
      exact ⟨(hlines row (hmem hrow)).1.2, (hlines row (hmem hrow)).2⟩
    · rw [hnil, rows_nil, List.mem_singleton] at hrow
      subst hrow
      exact ⟨rfl, rfl⟩
  · rcases hdescription with hrows | hnil
    · rw [hrows]
      exact congrArg unrows (dropEnds_dropEnds _)
    · rw [hnil]
      rfl
  · obtain ⟨grouped, hgrouped, rfl⟩ := List.mem_map.1 htag
    obtain ⟨row, line, others, hrow, hname, hrows, hothers⟩ := htags grouped hgrouped
    exact tidy_tagOf hname hrow.1 hrows hothers

/-- What is read off a block is tidy, and all that is tidy is read off one. -/
theorem exists_ofBlock_iff {doc : DocComment} : (∃ block, ofBlock block = doc) ↔ doc.Tidy := by
  constructor
  · rintro ⟨block, rfl⟩
    exact tidy_ofRows fun row => line_of_mem_blockRows
  · exact fun h => ⟨toBlock doc, ofBlock_toBlock h⟩

/-- The documentation of a block, written as a block, reads as itself. A description
without rows may be left out. -/
theorem ofBlock_toBlock_ofBlock (block : Text) : ofBlock (toBlock (ofBlock block)) = ofBlock block ∧
    ((ofBlock block).description = [] → ofBlock (blockOf [] (ofBlock block).tags) = ofBlock block) := by
  have htidy : (ofBlock block).Tidy := exists_ofBlock_iff.1 ⟨block, rfl⟩
  refine ⟨ofBlock_toBlock htidy, fun hnil => ?_⟩
  rw [ofBlock_blockOf (by simp) htidy.tags, show unrows (dropBlankEnds []) = (ofBlock block).description from hnil.symm]

end

end DocComment

end WireSchema
