import WireSchema.Layout.Basic
/-!
# Texts that are not blank

A text can be seen if one of its rows can, and what its rows share is the least
indentation of those that can be seen. Taking it off leaves the text as blank as
it was, so a layout with fixed text that can be seen is never rendered as nothing.
-/

namespace WireSchema

theorem CodePoint.isBlank_of_isIndent {c : CodePoint} (h : c.isIndent = true) : c.isBlank = true := by
  simp only [CodePoint.isIndent, Bool.or_eq_true, beq_iff_eq] at h
  rcases h with rfl | rfl <;> decide

namespace Text

variable {s t row : Text} {parts : List Text} {width : Nat}

theorem isBlank_append_left (h : isBlank s = false) (t : Text) : isBlank (s ++ t) = false := by
  rw [isBlank, List.all_append, Bool.and_eq_false_iff]
  exact .inl h

theorem isBlank_append_right (s : Text) (h : isBlank t = false) : isBlank (s ++ t) = false := by
  rw [isBlank, List.all_append, Bool.and_eq_false_iff]
  exact .inr h

/-- A part that can be seen is seen among others. -/
theorem isBlank_join (separator : Text) (hmem : t ∈ parts) (h : isBlank t = false) :
    isBlank (join separator parts) = false := by
  induction parts with
  | nil => cases hmem
  | cons u rest ih =>
    cases rest with
    | nil =>
      rw [List.mem_singleton.1 hmem] at h
      exact h
    | cons v rest =>
      rw [join]
      rcases List.mem_cons.1 hmem with rfl | hmem
      · exact isBlank_append_left (isBlank_append_left h _) _
      · exact isBlank_append_right _ (ih hmem)

/-- A separator that can be seen is seen between two parts. -/
theorem isBlank_join_of_two {separator : Text} (h : isBlank separator = false) (hlength : 2 ≤ parts.length) :
    isBlank (join separator parts) = false := by
  match parts with
  | [] => cases hlength
  | [_] => exact absurd hlength (Nat.not_succ_le_self 1)
  | u :: v :: rest =>
    rw [join]
    exact isBlank_append_left (isBlank_append_right u h) _

/-- Where something can be seen, it is seen in some row. -/
theorem exists_row (h : isBlank t = false) : ∃ row ∈ rows t, isBlank row = false := by
  have hsome (parts : List Text) (hparts : isBlank (unrows parts) = false) : ∃ row ∈ parts, isBlank row = false := by
    induction parts with
    | nil => cases hparts
    | cons u rest ih =>
      cases hu : isBlank u with
      | false => exact ⟨u, List.mem_cons_self, hu⟩
      | true =>
        cases rest with
        | nil =>
          have hself : isBlank u = false := hparts
          rw [hself] at hu
          cases hu
        | cons v rest =>
          have hnewline : isBlank "\n" = true := by decide
          rw [unrows, join, isBlank, List.all_append, List.all_append, ← isBlank, ← isBlank, ← isBlank, hu, hnewline,
            Bool.true_and, Bool.true_and] at hparts
          obtain ⟨row, hrow, hblank⟩ := ih hparts
          exact ⟨row, List.mem_cons_of_mem u hrow, hblank⟩
  refine hsome (rows t) ?_
  rw [unrows_rows]
  exact h

/-! ## Rows that are seen -/

/-- The rows that are not blank. -/
def seenRows (t : Text) : List Text := (rows t).filter (!isBlank ·)

theorem mem_seenRows : row ∈ seenRows t ↔ row ∈ rows t ∧ isBlank row = false := by
  simp [seenRows]

theorem seenRows_eq_nil_iff : seenRows t = [] ↔ isBlank t = true := by
  rw [List.eq_nil_iff_forall_not_mem]
  constructor
  · intro h
    cases hblank : isBlank t with
    | true => rfl
    | false =>
      obtain ⟨row, hrow, hseen⟩ := exists_row hblank
      exact absurd (mem_seenRows.2 ⟨hrow, hseen⟩) (h row)
  · intro h row hrow
    obtain ⟨hmem, hseen⟩ := mem_seenRows.1 hrow
    have htext : isBlank (unrows (rows t)) = false := isBlank_join "\n" hmem hseen
    rw [unrows_rows, h] at htext
    cases htext

theorem commonMargin_eq_none_iff : commonMargin (rows t) = none ↔ isBlank t = true := by
  rw [commonMargin, ← seenRows, List.min?_eq_none_iff, List.map_eq_nil_iff, seenRows_eq_nil_iff]

theorem commonMargin_eq_some_iff : commonMargin (rows t) = some width ↔
    (∃ row ∈ seenRows t, (margin row).length = width) ∧ ∀ row ∈ seenRows t, width ≤ (margin row).length := by
  rw [commonMargin, ← seenRows, List.min?_eq_some_iff, List.mem_map, List.forall_mem_map]
  rfl

theorem exists_commonMargin (h : isBlank t = false) : ∃ width, commonMargin (rows t) = some width := by
  cases hwidth : commonMargin (rows t) with
  | none =>
    rw [commonMargin_eq_none_iff, h] at hwidth
    cases hwidth
  | some width => exact ⟨width, rfl⟩

/-- Less than the indentation of a row can be taken off it without harm. -/
theorem isBlank_drop {n : Nat} (h : isBlank t = false) (hn : n ≤ (margin t).length) : isBlank (t.drop n) = false := by
  induction n generalizing t with
  | zero => exact h
  | succ n ih =>
    cases t with
    | nil => cases h
    | cons c t =>
      rw [margin, List.takeWhile_cons] at hn
      split at hn
      next hindent =>
        rw [isBlank, List.all_cons, CodePoint.isBlank_of_isIndent hindent, Bool.true_and] at h
        exact ih h (Nat.le_of_succ_le_succ hn)
      next => exact absurd hn (Nat.not_succ_le_zero n)

/-- Only empty rows are dropped. -/
theorem mem_dropEmptyEnds (hmem : t ∈ parts) (hne : t ≠ []) : t ∈ dropEmptyEnds parts := by
  have hdrop (parts : List Text) (hmem : t ∈ parts) : t ∈ parts.dropWhile List.isEmpty := by
    induction parts with
    | nil => cases hmem
    | cons u rest ih =>
      rw [List.dropWhile_cons]
      split
      next hempty =>
        rcases List.mem_cons.1 hmem with rfl | hmem
        · exact absurd (List.isEmpty_iff.1 hempty) hne
        · exact ih hmem
      next => exact hmem
  rw [dropEmptyEnds, List.mem_reverse]
  exact hdrop _ (List.mem_reverse.2 (hdrop parts hmem))

theorem isBlank_dedent (h : isBlank t = false) : isBlank (dedent t) = false := by
  obtain ⟨width, hwidth⟩ := exists_commonMargin h
  obtain ⟨⟨row, hseen, hlength⟩, -⟩ := commonMargin_eq_some_iff.1 hwidth
  obtain ⟨hrow, hblank⟩ := mem_seenRows.1 hseen
  have hkept : isBlank (row.drop width) = false := isBlank_drop hblank (Nat.le_of_eq hlength.symm)
  have hmem : row.drop width ∈ (rows t).map fun row => if isBlank row then [] else row.drop width :=
    List.mem_map.2 ⟨row, hrow, by rw [hblank]; rfl⟩
  rw [dedent, hwidth]
  refine isBlank_join "\n" (mem_dropEmptyEnds hmem fun hnil => ?_) hkept
  rw [hnil] at hkept
  cases hkept

end Text

namespace Layout

variable {part : Layout} {parts : List Layout}

@[simp] theorem renderAll_eq_map (parts : List Layout) : renderAll parts = parts.map render := by
  induction parts with
  | nil => rfl
  | cons part rest ih => rw [renderAll, ih, List.map_cons]

/-- A part that can be seen is seen among others. -/
theorem isBlank_join (separator : Text) (hmem : part ∈ parts) (h : Text.isBlank part.render = false) :
    Text.isBlank (join separator parts).render = false := by
  rw [join, render, Arrangement.combine, renderAll_eq_map]
  exact Text.isBlank_join separator (List.mem_map_of_mem hmem) h

/-- The values of a template come behind its fixed text. -/
theorem exists_renderValues (out : Text) (values : List (Layout × Text)) :
    ∃ behind, renderValues out values = out ++ behind := by
  induction values generalizing out with
  | nil =>
    refine ⟨[], ?_⟩
    rw [renderValues, List.append_nil]
  | cons value rest ih =>
    obtain ⟨value, after⟩ := value
    obtain ⟨behind, hrest⟩ := ih (place out value.render ++ after)
    rw [renderValues, hrest, place]
    exact ⟨_, by rw [List.append_assoc, List.append_assoc]⟩

/-- The fixed text that a template begins with is seen, whatever its values are. -/
theorem isBlank_template {start : Text} (h : Text.isBlank start = false) (values : List (Layout × Text)) :
    Text.isBlank (template start values).render = false := by
  obtain ⟨behind, hvalues⟩ := exists_renderValues start values
  rw [render, hvalues]
  exact Text.isBlank_dedent (Text.isBlank_append_left h behind)

end Layout

end WireSchema
