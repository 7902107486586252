import WireSchema.Proofs.Layout.Substituted
/-!
# Indenting and its reverse

A text is moved to the right by putting the same indentation before each of its rows, and
back by taking off what its rows share. Blank rows have no part in what is shared, as they
may hold white space of any kind; only the others are seen. Of these nothing but spaces and
tabs is taken, from all the same number, and then no more can be taken, however far to the
right the text stood before.
-/

namespace WireSchema

open Layout

namespace Text

variable {t lead row : Text} {width : Nat}

/-! ## Rows behind an indentation -/

/-- `lead` before each row that is not empty. -/
def leadRows (lead t : Text) : Text := unrows ((rows t).map (leadRow lead))

theorem isBlank_of_isBare (h : IsBare lead) : isBlank lead = true :=
  isBlank_iff.2 fun c hc => CodePoint.isBlank_of_isIndent (List.takeWhile_eq_self_iff.1 h c hc)

theorem line_of_isBare (h : IsBare lead) : CodePoint.ofChar '\n' ∉ lead := h ▸ line_margin lead

theorem isBare_times (level : Nat) : IsBare (times "  " level) := by
  induction level with
  | zero => rfl
  | succ level ih => exact isBare_append_iff.2 ⟨rfl, ih⟩

theorem times_add (t : Text) (m n : Nat) : times t (m + n) = times t m ++ times t n := by
  induction m with
  | zero => rw [Nat.zero_add]; rfl
  | succ m ih => rw [Nat.succ_add, times, times, ih, List.append_assoc]

theorem leadRow_leadRow (lead' lead row : Text) : leadRow lead' (leadRow lead row) = leadRow (lead' ++ lead) row := by
  cases row with
  | nil => rfl
  | cons c row => simp [leadRow]

theorem isBlank_leadRow (h : IsBare lead) (row : Text) : isBlank (leadRow lead row) = isBlank row := by
  rw [leadRow]
  split
  · rfl
  · rw [isBlank_append, isBlank_of_isBare h, Bool.true_and]

theorem rows_leadRows (h : CodePoint.ofChar '\n' ∉ lead) (t : Text) :
    rows (leadRows lead t) = (rows t).map (leadRow lead) := by
  refine rows_unrows_of_lines (mt List.map_eq_nil_iff.1 (splitOn_ne_nil _ t)) (List.forall_mem_map.2 fun row hrow => ?_)
  exact line_leadRow h (line_of_mem_rows hrow)

theorem leadRows_leadRows (h : CodePoint.ofChar '\n' ∉ lead) (lead' t : Text) :
    leadRows lead' (leadRows lead t) = leadRows (lead' ++ lead) t := by
  rw [leadRows, rows_leadRows h, List.map_map]
  exact congrArg unrows (List.map_congr_left fun row _ => leadRow_leadRow lead' lead row)

theorem seenRows_leadRows (h : IsBare lead) (t : Text) : seenRows (leadRows lead t) = (seenRows t).map (lead ++ ·) := by
  have hseen : (fun row => !isBlank row) ∘ leadRow lead = fun row => !isBlank row :=
    funext fun row => congrArg (!·) (isBlank_leadRow h row)
  rw [seenRows, rows_leadRows (line_of_isBare h), List.filter_map, hseen]
  exact List.map_congr_left fun row hrow => leadRow_of_not_blank (mem_seenRows.1 hrow).2

theorem indent_eq (level : Nat) (t : Text) : indent level t = leadRows (times "  " level) t := rfl

theorem indent_indent (a b : Nat) (t : Text) : indent b (indent a t) = indent (a + b) t := by
  rw [indent_eq, indent_eq, indent_eq, leadRows_leadRows (line_of_isBare (isBare_times a)), ← times_add, Nat.add_comm]

theorem render_indent (level : Nat) (layout : Layout) : (layout.indent level).render = indent level layout.render := by
  rw [Layout.indent, render, renderAll_eq_map]
  rfl

theorem commonMargin_leadRows (h : IsBare lead) (hwidth : commonMargin (rows t) = some width) :
    commonMargin (rows (leadRows lead t)) = some (lead.length + width) := by
  obtain ⟨⟨row, hrow, hlength⟩, hle⟩ := commonMargin_eq_some_iff.1 hwidth
  have hmargin (row : Text) : (margin (lead ++ row)).length = lead.length + (margin row).length := by
    rw [margin_append_bare h, List.length_append]
  rw [commonMargin_eq_some_iff, seenRows_leadRows h, List.forall_mem_map]
  refine ⟨⟨lead ++ row, List.mem_map_of_mem hrow, by rw [hmargin, hlength]⟩, fun row hrow => ?_⟩
  rw [hmargin]
  exact Nat.add_le_add_left (hle row hrow) _

/-! ## Taking it off -/

theorem dedent_of_isBlank (h : isBlank t = true) : dedent t = [] := by
  rw [dedent, commonMargin_eq_none_iff.2 h]

theorem dedent_eq_nil_iff : dedent t = [] ↔ isBlank t = true := by
  refine ⟨fun h => ?_, dedent_of_isBlank⟩
  by_contra hblank
  have hseen := isBlank_dedent (Bool.eq_false_iff.2 hblank)
  rw [h] at hseen
  cases hseen

theorem outdent_leadRow (h : IsBare lead) (width : Nat) (row : Text) :
    outdent (lead.length + width) (leadRow lead row) = outdent width row := by
  rw [outdent, outdent, isBlank_leadRow h]
  split
  next => rfl
  next hblank => rw [leadRow_of_not_blank (Bool.eq_false_iff.2 hblank), ← List.drop_drop, List.drop_left]

/-- How far to the right a text stands does not matter. -/
theorem dedent_leadRows (h : IsBare lead) (t : Text) : dedent (leadRows lead t) = dedent t := by
  cases hwidth : commonMargin (rows t) with
  | none =>
    rw [commonMargin_eq_none_iff] at hwidth
    have hblank : isBlank (leadRows lead t) = true := by
      rw [← seenRows_eq_nil_iff, seenRows_leadRows h, seenRows_eq_nil_iff.2 hwidth, List.map_nil]
    rw [dedent_of_isBlank hblank, dedent_of_isBlank hwidth]
  | some width =>
    have hrows : ((rows t).map (leadRow lead)).map (outdent (lead.length + width)) = (rows t).map (outdent width) := by
      rw [List.map_map]
      exact List.map_congr_left fun row _ => outdent_leadRow h width row
    rw [dedent_of_commonMargin (commonMargin_leadRows h hwidth), dedent_of_commonMargin hwidth,
      rows_leadRows (line_of_isBare h), hrows]

/-- A row that is not blank can still be seen without the shared indentation. -/
theorem isBlank_outdent (h : ∀ row ∈ seenRows t, width ≤ (margin row).length) (hrow : row ∈ rows t) :
    isBlank (outdent width row) = isBlank row := by
  rw [outdent]
  cases hblank : isBlank row with
  | true => rfl
  | false => exact isBlank_drop hblank (h row (mem_seenRows.2 ⟨hrow, hblank⟩))

/-- The rows that are seen stay in order, and all lose as much. -/
theorem seenRows_dedent (h : commonMargin (rows t) = some width) : seenRows (dedent t) = (seenRows t).map (List.drop width) := by
  have hsame : ((rows t).filter fun row => !isBlank (outdent width row)) = seenRows t :=
    List.filter_congr fun row hrow => congrArg (!·) (isBlank_outdent (commonMargin_eq_some_iff.1 h).2 hrow)
  have hempty (row : Text) (hrow : row.isEmpty = true) : (!isBlank row) = false := by
    rw [List.isEmpty_iff.1 hrow]
    rfl
  calc seenRows (dedent t)
      = (dropEnds List.isEmpty ((rows t).map (outdent width))).filter (!isBlank ·) := by
        rw [seenRows, rows_dedent_of_commonMargin h, dropEmptyEnds_eq_dropEnds]
    _ = ((rows t).map (outdent width)).filter (!isBlank ·) := filter_dropEnds hempty _
    _ = (seenRows t).map (outdent width) := by rw [List.filter_map, Function.comp_def, hsame]
    _ = (seenRows t).map (List.drop width) := List.map_congr_left fun row hrow => by
        rw [outdent, (mem_seenRows.1 hrow).2]
        rfl

/-! ## Texts with nothing to take off -/

/-- Something is seen in the first row and in the last one, blank rows are empty, and some
row begins with something else than indentation. -/
structure Flush (t : Text) : Prop where
  first : ∃ row ∈ (rows t).head?, isBlank row = false
  last : ∃ row ∈ (rows t).getLast?, isBlank row = false
  blank : ∀ row ∈ rows t, isBlank row = true → row = []
  visible : ∃ row ∈ rows t, Visible row

/-- A row that is seen begins with something else behind all its indentation. -/
theorem visible_drop_margin (h : isBlank row = false) : Visible (row.drop (margin row).length) := by
  have hsplit : margin row ++ row.dropWhile CodePoint.isIndent = row := List.takeWhile_append_dropWhile
  have hdrop : (margin row ++ row.dropWhile CodePoint.isIndent).drop (margin row).length = row.dropWhile CodePoint.isIndent :=
    List.drop_left
  rw [hsplit] at hdrop
  rw [hdrop]
  cases hrest : row.dropWhile CodePoint.isIndent with
  | nil =>
    rw [hrest, List.append_nil] at hsplit
    rw [isBlank_of_isBare hsplit] at h
    cases h
  | cons c rest => exact ⟨c, rfl, not_of_dropWhile_eq_cons hrest⟩

theorem flush_dedent (h : isBlank t = false) : Flush (dedent t) := by
  obtain ⟨width, hwidth⟩ := exists_commonMargin h
  obtain ⟨⟨row, hrow, hlength⟩, hle⟩ := commonMargin_eq_some_iff.1 hwidth
  have hrows := rows_dedent_of_commonMargin hwidth
  have hcases (row : Text) (hrow : row ∈ rows (dedent t)) : row = [] ∨ isBlank row = false := by
    obtain ⟨row, hmem, rfl⟩ := List.mem_map.1 ((dropEmptyEnds_sublist _).subset (hrows ▸ hrow))
    rw [isBlank_outdent hle hmem, outdent]
    cases isBlank row with
    | true => exact .inl rfl
    | false => exact .inr rfl
  have hseen (row : Text) (hrow : row ∈ rows (dedent t)) (hne : row.isEmpty = false) : isBlank row = false :=
    (hcases row hrow).resolve_left (List.isEmpty_eq_false_iff.1 hne)
  rw [dropEmptyEnds_eq_dropEnds] at hrows
  constructor
  · obtain ⟨first, others, hfirst⟩ := exists_rows (dedent t)
    have hhead : first ∈ (rows (dedent t)).head? := by rw [hfirst]; rfl
    exact ⟨first, hhead, hseen first (List.mem_of_mem_head? hhead) (not_of_mem_head?_dropEnds (hrows ▸ hhead))⟩
  · have hlast := getLast?_rows (dedent t)
    exact ⟨_, hlast, hseen _ (List.mem_of_mem_getLast? hlast) (not_of_mem_getLast?_dropEnds (hrows ▸ hlast))⟩
  · intro row hrow hblank
    exact (hcases row hrow).resolve_right (by simp [hblank])
  · -- the row with the least indentation loses all it has
    have hmem : row.drop width ∈ seenRows (dedent t) := seenRows_dedent hwidth ▸ List.mem_map_of_mem hrow
    exact ⟨_, (mem_seenRows.1 hmem).1, hlength ▸ visible_drop_margin (mem_seenRows.1 hrow).2⟩

theorem Flush.commonMargin_eq (h : Flush t) : commonMargin (rows t) = some 0 := by
  obtain ⟨row, hrow, hvisible⟩ := h.visible
  have hseen : isBlank row = false := by
    refine Bool.eq_false_iff.2 fun hblank => ?_
    obtain ⟨c, hc, -⟩ := hvisible
    rw [h.blank row hrow hblank] at hc
    cases hc
  have hmargin : margin ([] ++ row) = [] := hvisible.margin_append rfl
  exact commonMargin_eq_some_iff.2 ⟨⟨row, mem_seenRows.2 ⟨hrow, hseen⟩, congrArg List.length hmargin⟩, fun _ _ => Nat.zero_le _⟩

/-- Nothing is taken off where some row has no indentation. -/
theorem Flush.dedent_eq (h : Flush t) : dedent t = t := by
  have hsame : (rows t).map (outdent 0) = rows t := by
    refine (List.map_congr_left fun row hrow => ?_).trans (List.map_id _)
    rw [outdent]
    split
    next hblank => exact (h.blank row hrow hblank).symm
    next => rfl
  have hne {row : Text} (hseen : isBlank row = false) : row ≠ [] := by
    rintro rfl
    cases hseen
  obtain ⟨first, hfirst, hfirstSeen⟩ := h.first
  obtain ⟨last, hlast, hlastSeen⟩ := h.last
  have hends : dropEmptyEnds (rows t) = rows t :=
    dropEmptyEnds_of_ends (fun row hrow => Option.mem_unique hfirst hrow ▸ hne hfirstSeen)
      fun row hrow => Option.mem_unique hlast hrow ▸ hne hlastSeen
  rw [dedent_of_commonMargin h.commonMargin_eq, hsame, hends, unrows_rows]

theorem dedent_dedent (t : Text) : dedent (dedent t) = dedent t := by
  cases h : isBlank t with
  | true =>
    rw [dedent_of_isBlank h]
    rfl
  | false => exact (flush_dedent h).dedent_eq

/-- Taking the shared indentation off leaves none, and undoes any indenting, of which two
are one. What is seen of the text are the same rows in the same order, all without the same
number of spaces and tabs. -/
theorem indentation_laws (t : Text) (a b : Nat) :
    dedent (dedent t) = dedent t ∧
    (∀ lead, IsBare lead → dedent (leadRows lead t) = dedent t) ∧
    dedent (Layout.indent a (.text t)).render = dedent t ∧
    (Layout.indent b (Layout.indent a (.text t))).render = (Layout.indent (a + b) (.text t)).render ∧
    (dedent t = [] ↔ isBlank t = true) ∧
    (dedent t ≠ [] → Flush (dedent t) ∧
      ∃ width, (∀ row ∈ seenRows t, width ≤ (margin row).length) ∧ seenRows (dedent t) = (seenRows t).map (List.drop width)) := by
  refine ⟨dedent_dedent t, fun lead h => dedent_leadRows h t, ?_, ?_, dedent_eq_nil_iff, fun hne => ?_⟩
  · rw [render_indent]
    exact dedent_leadRows (isBare_times a) t
  · rw [render_indent, render_indent, render_indent]
    exact indent_indent a b t
  · have hseen : isBlank t = false := Bool.eq_false_iff.2 (mt dedent_of_isBlank hne)
    obtain ⟨width, hwidth⟩ := exists_commonMargin hseen
    exact ⟨flush_dedent hseen, width, (commonMargin_eq_some_iff.1 hwidth).2, seenRows_dedent hwidth⟩

/-- Rows at two margins, with one between them that is not empty though blank, and with white
space before them that is no indentation. -/
def unevenText : Text := "\u00a0\n  \ta\n \u2003\n  \t  b\n"

/-- A tab and a space before each row do not matter. -/
theorem indentation_laws_uneven :
    IsBare "\t " ∧ dedent (leadRows "\t " unevenText) = "a\n\n  b" ∧ dedent unevenText ≠ [] ∧ Flush (dedent unevenText) ∧
      seenRows (dedent unevenText) = [("a" : Text), ("  b" : Text)] := by
  have hlaws := indentation_laws unevenText 1 2
  have hbare : IsBare "\t " := rfl
  have hdedent : dedent unevenText = "a\n\n  b" := by decide
  have hne : dedent unevenText ≠ [] := by
    rw [hdedent]
    decide
  exact ⟨hbare, (hlaws.2.1 _ hbare).trans hdedent, hne, (hlaws.2.2.2.2.2 hne).1, by decide⟩

end Text

end WireSchema
