import WireSchema.Proofs.Layout.Blank
/-!
# Texts by their rows

Where no row is blank, hanging a text puts its indentation behind every line
feed, and taking the shared indentation off a text whose first row has none
leaves it as it is. Any other text is told by its rows: what putting together,
hanging and taking indentation off make of them. A template between braces is
written further in than it is rendered, by the indentation that its rows share.
-/

namespace WireSchema.Text

/-- What stands before the first line feed. -/
def firstRow (t : Text) : Text := t.takeWhile (· ≠ CodePoint.ofChar '\n')

/-- No row behind a line feed is blank. -/
def Hanging : Text → Prop
  | [] => True
  | c :: rest => (c = '\n' → isBlank (firstRow rest) = false) ∧ Hanging rest

/-- No row is blank. -/
structure Solid (t : Text) : Prop where
  first : isBlank (firstRow t) = false
  others : Hanging t

/-- The text with `lead` behind every line feed. -/
def hangAll (lead t : Text) : Text := t.flatMap fun c : CodePoint => if c = '\n' then c :: lead else [c]

/-- Nothing but spaces. -/
def Spaces (lead : Text) : Prop := ∀ c ∈ lead, c = CodePoint.ofChar ' '

/-! ## Texts put together -/

section
variable {s t lead : Text} {c : CodePoint}

@[simp] theorem firstRow_newline (t : Text) : firstRow (CodePoint.ofChar '\n' :: t) = [] := by
  simp [firstRow]

theorem firstRow_cons (h : c ≠ '\n') (t : Text) : firstRow (c :: t) = c :: firstRow t := by
  simp [firstRow, h]

theorem firstRow_of_line (h : CodePoint.ofChar '\n' ∉ t) : firstRow t = t := by
  induction t with
  | nil => rfl
  | cons c t ih =>
    rw [List.mem_cons, not_or] at h
    rw [firstRow_cons (Ne.symm h.1), ih h.2]

theorem firstRow_append (h : isBlank (firstRow s) = false) (t : Text) :
    isBlank (firstRow (s ++ t)) = false := by
  induction s with
  | nil => cases h
  | cons c s ih =>
    by_cases hc : c = '\n'
    · subst hc
      rw [firstRow_newline] at h
      cases h
    · rw [firstRow_cons hc] at h
      rw [List.cons_append, firstRow_cons hc]
      simp only [isBlank, List.all_cons, Bool.and_eq_false_iff] at h ih ⊢
      exact h.imp_right ih

theorem Hanging.append (hs : Hanging s) (ht : Hanging t) : Hanging (s ++ t) := by
  induction s with
  | nil => exact ht
  | cons c s ih => exact ⟨fun hc => firstRow_append (hs.1 hc) t, ih hs.2⟩

theorem hanging_of_line (h : CodePoint.ofChar '\n' ∉ t) : Hanging t := by
  induction t with
  | nil => exact trivial
  | cons c t ih =>
    rw [List.mem_cons, not_or] at h
    exact ⟨fun hc => absurd hc.symm h.1, ih h.2⟩

theorem Solid.append (hs : Solid s) (ht : Hanging t) : Solid (s ++ t) :=
  ⟨firstRow_append hs.first t, hs.others.append ht⟩

theorem solid_of_line (h : CodePoint.ofChar '\n' ∉ t) (hblank : isBlank t = false) : Solid t :=
  ⟨by rwa [firstRow_of_line h], hanging_of_line h⟩

/-- A row put behind something on the same line. -/
theorem Solid.behind (ht : Solid t) (h : CodePoint.ofChar '\n' ∉ s) : Solid (s ++ t) := by
  refine ⟨?_, (hanging_of_line h).append ht.others⟩
  induction s with
  | nil => exact ht.first
  | cons c s ih =>
    rw [List.mem_cons, not_or] at h
    rw [List.cons_append, firstRow_cons (Ne.symm h.1)]
    simp only [isBlank, List.all_cons, Bool.and_eq_false_iff]
    exact .inr (ih h.2)

theorem Solid.newline (h : Solid t) : Hanging (CodePoint.ofChar '\n' :: t) := ⟨fun _ => h.first, h.others⟩

theorem hanging_flatMap {α : Type} {l : List α} {f : α → Text} (h : ∀ a ∈ l, Hanging (f a)) :
    Hanging (l.flatMap f) := by
  induction l with
  | nil => exact trivial
  | cons a l ih =>
    rw [List.flatMap_cons]
    exact (h a List.mem_cons_self).append (ih fun b hb => h b (List.mem_cons_of_mem _ hb))

@[simp] theorem hangAll_nil : hangAll lead [] = [] := rfl

@[simp] theorem hangAll_append : hangAll lead (s ++ t) = hangAll lead s ++ hangAll lead t := by
  simp [hangAll]

@[simp] theorem hangAll_nil_left (t : Text) : hangAll [] t = t := by
  induction t with
  | nil => rfl
  | cons c t ih =>
    rw [hangAll, List.flatMap_cons, ← hangAll, ih]
    split <;> rfl

theorem hangAll_newline (t : Text) :
    hangAll lead (CodePoint.ofChar '\n' :: t) = CodePoint.ofChar '\n' :: (lead ++ hangAll lead t) := by
  simp [hangAll]

theorem hangAll_cons (h : c ≠ '\n') (t : Text) : hangAll lead (c :: t) = c :: hangAll lead t := by
  simp [hangAll, h]

theorem hangAll_of_line (h : CodePoint.ofChar '\n' ∉ t) : hangAll lead t = t := by
  induction t with
  | nil => rfl
  | cons c t ih =>
    rw [List.mem_cons, not_or] at h
    rw [hangAll_cons (Ne.symm h.1), ih h.2]

theorem hangAll_hangAll {lead' : Text} (h : CodePoint.ofChar '\n' ∉ lead') (t : Text) :
    hangAll lead (hangAll lead' t) = hangAll (lead ++ lead') t := by
  induction t with
  | nil => rfl
  | cons c t ih =>
    by_cases hc : c = '\n'
    · subst hc
      rw [hangAll_newline, hangAll_newline, hangAll_newline, hangAll_append, hangAll_of_line h, ih,
        List.append_assoc]
    · rw [hangAll_cons hc, hangAll_cons hc, hangAll_cons hc, ih]

theorem hangAll_flatMap {α : Type} (l : List α) (f : α → Text) :
    hangAll lead (l.flatMap f) = l.flatMap fun a => hangAll lead (f a) := by
  induction l with
  | nil => rfl
  | cons a l ih => rw [List.flatMap_cons, List.flatMap_cons, hangAll_append, ih]

theorem hangAll_join (sep : Text) (parts : List Text) :
    hangAll lead (join sep parts) = join (hangAll lead sep) (parts.map (hangAll lead)) := by
  match parts with
  | [] => rfl
  | [_] => rfl
  | t :: u :: rest =>
    simp only [join, List.map_cons, hangAll_append]
    rw [hangAll_join sep (u :: rest), List.map_cons]

theorem Spaces.line (h : Spaces lead) : CodePoint.ofChar '\n' ∉ lead := by
  intro hc
  exact absurd (h _ hc) (by decide)

theorem Spaces.append (hs : Spaces s) (ht : Spaces t) : Spaces (s ++ t) := by
  intro c hc
  exact (List.mem_append.1 hc).elim (hs c) (ht c)

theorem spaces_two : Spaces "  " := by
  unfold Spaces
  decide

theorem hanging_join {sep : Text} {parts : List Text} (hsep : Hanging sep)
    (h : ∀ t ∈ parts, Hanging t) : Hanging (join sep parts) := by
  match parts with
  | [] => exact trivial
  | [t] => exact h t List.mem_cons_self
  | t :: u :: rest =>
    rw [join, List.append_assoc]
    refine (h t List.mem_cons_self).append (hsep.append (hanging_join hsep fun v hv => ?_))
    exact h v (List.mem_cons_of_mem _ hv)

theorem solid_unrows {parts : List Text} (hne : parts ≠ []) (h : ∀ t ∈ parts, Solid t) :
    Solid (unrows parts) := by
  match parts with
  | [] => exact absurd rfl hne
  | [t] => exact h t List.mem_cons_self
  | t :: u :: rest =>
    rw [unrows, join, List.append_assoc]
    refine (h t List.mem_cons_self).append ?_
    exact (solid_unrows (List.cons_ne_nil u rest) fun v hv => h v (List.mem_cons_of_mem _ hv)).newline

theorem firstRow_hangAll (lead t : Text) : firstRow (hangAll lead t) = firstRow t := by
  induction t with
  | nil => rfl
  | cons c t ih =>
    by_cases hc : c = '\n'
    · subst hc
      rw [hangAll_newline, firstRow_newline, firstRow_newline]
    · rw [hangAll_cons hc, firstRow_cons hc, firstRow_cons hc, ih]

theorem Hanging.hangAll (h : Hanging t) (hlead : Spaces lead) :
    Hanging (hangAll lead t) := by
  induction t with
  | nil => exact trivial
  | cons c t ih =>
    by_cases hc : c = '\n'
    · subst hc
      rw [hangAll_newline]
      have hrest : Solid (Text.hangAll lead t) := ⟨by rw [firstRow_hangAll]; exact h.1 rfl, ih h.2⟩
      exact (hrest.behind hlead.line).newline
    · rw [hangAll_cons hc]
      exact ⟨fun e => absurd e hc, ih h.2⟩

theorem Solid.hangAll (h : Solid t) (hlead : Spaces lead) : Solid (hangAll lead t) :=
  ⟨by rw [firstRow_hangAll]; exact h.first, h.others.hangAll hlead⟩

end

/-! ## Rows -/

section
variable {t lead : Text}

theorem rows_newline (t : Text) : rows (CodePoint.ofChar '\n' :: t) = [] :: rows t := by
  rw [rows, splitOn, if_pos rfl]
  rfl

theorem rows_cons {c : CodePoint} (hc : c ≠ '\n') {first : Text} {others : List Text}
    (h : rows t = first :: others) : rows (c :: t) = (c :: first) :: others := by
  have h' : splitOn (CodePoint.ofChar '\n') t = first :: others := h
  rw [rows, splitOn, if_neg hc, h']

/-- The first row, and what the others are like. -/
theorem rows_of_hanging (h : Hanging t) :
    ∃ others, rows t = firstRow t :: others ∧ ∀ row ∈ others, isBlank row = false := by
  induction t with
  | nil => exact ⟨[], rfl, by simp⟩
  | cons c t ih =>
    obtain ⟨others, hrows, hothers⟩ := ih h.2
    by_cases hc : c = '\n'
    · subst hc
      rw [firstRow_newline, rows_newline, hrows]
      exact ⟨_, rfl, List.forall_mem_cons.2 ⟨h.1 rfl, hothers⟩⟩
    · rw [firstRow_cons hc, rows_cons hc hrows]
      exact ⟨others, rfl, hothers⟩

theorem leadRow_of_not_blank {row : Text} (h : isBlank row = false) : leadRow lead row = lead ++ row := by
  cases row with
  | nil => cases h
  | cons c row => rfl

/-- Hanging a text puts `lead` behind every line feed. -/
theorem hang_eq (h : Hanging t) : hang lead t = hangAll lead t := by
  induction t with
  | nil => rfl
  | cons c t ih =>
    obtain ⟨others, hrows, _⟩ := rows_of_hanging h.2
    have ih := ih h.2
    rw [hang, hrows] at ih
    by_cases hc : c = '\n'
    · subst hc
      rw [hang, rows_newline, hrows, hangAll_newline, ← ih]
      simp only [List.map_cons, leadRow_of_not_blank (h.1 rfl)]
      cases others with
      | nil => rfl
      | cons row others =>
        simp only [unrows, join, List.map_cons, List.append_assoc, List.nil_append]
        rfl
    · rw [hang, rows_cons hc hrows, hangAll_cons hc, ← ih]
      cases others <;> rfl

theorem dropWhile_isEmpty {parts : List Text} (h : ∀ row ∈ parts, isBlank row = false) :
    parts.dropWhile List.isEmpty = parts := by
  cases parts with
  | nil => rfl
  | cons row rest =>
    have hrow := h row List.mem_cons_self
    cases row with
    | nil => cases hrow
    | cons c row => rfl

theorem dropEmptyEnds_eq {parts : List Text} (h : ∀ row ∈ parts, isBlank row = false) :
    dropEmptyEnds parts = parts := by
  have hreverse : ∀ row ∈ parts.reverse, isBlank row = false := fun row hrow =>
    h row (List.mem_reverse.1 hrow)
  rw [dropEmptyEnds, dropWhile_isEmpty h, dropWhile_isEmpty hreverse, List.reverse_reverse]

/-- A text whose first row has no indentation has none to take off. -/
theorem dedent_eq (h : Solid t) (hmargin : margin (firstRow t) = []) : dedent t = t := by
  obtain ⟨others, hrows, hothers⟩ := rows_of_hanging h.others
  have hall : ∀ row ∈ rows t, isBlank row = false := by
    rw [hrows]
    exact List.forall_mem_cons.2 ⟨h.first, hothers⟩
  have hseen : firstRow t ∈ seenRows t := mem_seenRows.2 ⟨hrows ▸ List.mem_cons_self, h.first⟩
  have hwidth : commonMargin (rows t) = some 0 :=
    commonMargin_eq_some_iff.2 ⟨⟨firstRow t, hseen, by rw [hmargin]; rfl⟩, fun _ _ => Nat.zero_le _⟩
  have hdrop : ((rows t).map fun row => if isBlank row then [] else row.drop 0) = rows t := by
    rw [List.map_congr_left (g := id) fun row hrow => by simp [hall row hrow], List.map_id]
  rw [dedent, hwidth]
  simp only [hdrop, dropEmptyEnds_eq hall]
  exact unrows_rows t

end

/-! ## Rows of texts put together -/

section
variable {s t lead row : Text} {parts : List Text} {width : Nat}

/-- The row, or nothing if it is blank. -/
def unlessBlank (row : Text) : Text := if isBlank row then [] else row

/-- The row without so much of its start, or nothing if it is blank. -/
def outdent (width : Nat) (row : Text) : Text := if isBlank row then [] else row.drop width

/-- Rows that go on where others end. -/
def continued {α : Type} [Append α] : List α → List α → List α
  | [], others => others
  | [row], [] => [row]
  | [row], next :: others => (row ++ next) :: others
  | row :: next :: rest, others => row :: continued (next :: rest) others

theorem exists_rows (t : Text) : ∃ first others, rows t = first :: others :=
  List.exists_cons_of_ne_nil (splitOn_ne_nil _ t)

theorem line_of_mem_rows (h : row ∈ rows t) : CodePoint.ofChar '\n' ∉ row := by
  induction t generalizing row with
  | nil =>
    rw [rows_nil, List.mem_singleton] at h
    rw [h]
    exact List.not_mem_nil
  | cons c t ih =>
    obtain ⟨first, others, hrows⟩ := exists_rows t
    by_cases hc : c = '\n'
    · subst hc
      rw [rows_newline, List.mem_cons] at h
      rcases h with rfl | h
      · exact List.not_mem_nil
      · exact ih h
    · rw [rows_cons hc hrows, List.mem_cons] at h
      rcases h with rfl | h
      · rw [List.mem_cons, not_or]
        exact ⟨Ne.symm hc, ih (hrows ▸ List.mem_cons_self)⟩
      · exact ih (hrows ▸ List.mem_cons_of_mem _ h)

theorem rows_of_line (h : CodePoint.ofChar '\n' ∉ t) : rows t = [t] := by
  induction t with
  | nil => rfl
  | cons c t ih =>
    rw [List.mem_cons, not_or] at h
    exact rows_cons (Ne.symm h.1) (ih h.2)

theorem rows_append (s t : Text) : rows (s ++ t) = continued (rows s) (rows t) := by
  induction s with
  | nil =>
    obtain ⟨first, others, hrows⟩ := exists_rows t
    rw [rows_nil, List.nil_append, hrows]
    rfl
  | cons c s ih =>
    obtain ⟨first, others, hrows⟩ := exists_rows s
    rw [hrows] at ih
    rw [List.cons_append]
    by_cases hc : c = '\n'
    · subst hc
      rw [rows_newline, rows_newline, ih, hrows]
      rfl
    · rw [rows_cons hc hrows]
      obtain ⟨first', others', hrows'⟩ := exists_rows t
      rw [hrows'] at ih ⊢
      cases others with
      | nil => exact rows_cons hc ih
      | cons next rest => exact rows_cons hc ih

theorem rows_newline_append (s t : Text) : rows (s ++ CodePoint.ofChar '\n' :: t) = rows s ++ rows t := by
  induction s with
  | nil => exact rows_newline t
  | cons c s ih =>
    by_cases hc : c = '\n'
    · subst hc
      rw [List.cons_append, rows_newline, rows_newline, ih]
      rfl
    · obtain ⟨first, others, hrows⟩ := exists_rows s
      rw [hrows] at ih
      rw [List.cons_append, rows_cons hc ih, rows_cons hc hrows]
      rfl

theorem rows_unrows (hne : parts ≠ []) : rows (unrows parts) = parts.flatMap rows := by
  induction parts with
  | nil => exact absurd rfl hne
  | cons t rest ih =>
    cases rest with
    | nil => rw [List.flatMap_cons, List.flatMap_nil, List.append_nil]; rfl
    | cons u rest =>
      rw [List.flatMap_cons, ← ih (List.cons_ne_nil u rest), ← rows_newline_append, unrows, join, List.append_assoc]
      rfl

/-- Rows without line feeds are the rows of the text they make. -/
theorem rows_unrows_of_lines (hne : parts ≠ []) (h : ∀ row ∈ parts, CodePoint.ofChar '\n' ∉ row) :
    rows (unrows parts) = parts := by
  have hrows : parts.map rows = parts.map fun row => [row] := List.map_congr_left fun row hrow => rows_of_line (h row hrow)
  rw [rows_unrows hne, List.flatMap_def, hrows, ← List.flatMap_def, List.flatMap_singleton']

theorem unrows_cons (t : Text) (hne : parts ≠ []) : unrows (t :: parts) = t ++ "\n" ++ unrows parts := by
  obtain ⟨u, rest, rfl⟩ := List.exists_cons_of_ne_nil hne
  rfl

/-- The last of several texts may be put in by its rows. -/
theorem unrows_concat_rows (parts : List Text) (t : Text) : unrows (parts ++ rows t) = unrows (parts ++ [t]) := by
  induction parts with
  | nil => exact unrows_rows t
  | cons u rest ih =>
    have hne : rest ++ rows t ≠ [] := List.append_ne_nil_of_right_ne_nil _ (splitOn_ne_nil _ t)
    rw [List.cons_append, List.cons_append, unrows_cons u hne, unrows_cons u (by simp), ih]

theorem line_leadRow (hlead : CodePoint.ofChar '\n' ∉ lead) (h : CodePoint.ofChar '\n' ∉ row) :
    CodePoint.ofChar '\n' ∉ leadRow lead row := by
  rw [leadRow]
  split
  · exact h
  · rw [List.mem_append, not_or]
    exact ⟨hlead, h⟩

/-- All rows but the first one hang. -/
theorem rows_hang {first : Text} {others : List Text} (hlead : CodePoint.ofChar '\n' ∉ lead)
    (h : rows t = first :: others) : rows (hang lead t) = first :: others.map (leadRow lead) := by
  have hline : ∀ row ∈ first :: others, CodePoint.ofChar '\n' ∉ row := fun row hrow =>
    line_of_mem_rows (h ▸ hrow)
  rw [hang, h]
  refine rows_unrows_of_lines (List.cons_ne_nil _ _) (List.forall_mem_cons.2 ⟨hline first List.mem_cons_self, ?_⟩)
  refine List.forall_mem_map.2 fun row hrow => line_leadRow hlead ?_
  exact hline row (List.mem_cons_of_mem first hrow)

theorem dropEmptyEnds_of_ends (hfirst : ∀ row ∈ parts.head?, row ≠ []) (hlast : ∀ row ∈ parts.getLast?, row ≠ []) :
    dropEmptyEnds parts = parts := by
  have hdrop {parts : List Text} (h : ∀ row ∈ parts.head?, row ≠ []) : parts.dropWhile List.isEmpty = parts := by
    cases parts with
    | nil => rfl
    | cons row rest => exact List.dropWhile_cons_of_neg fun hempty => h row rfl (List.isEmpty_iff.1 hempty)
  rw [dropEmptyEnds, hdrop hfirst, hdrop (by simpa using hlast), List.reverse_reverse]

theorem dropEmptyEnds_sublist (parts : List Text) : (dropEmptyEnds parts).Sublist parts := by
  have hend := (List.dropWhile_sublist List.isEmpty (l := (parts.dropWhile List.isEmpty).reverse)).reverse
  rw [List.reverse_reverse] at hend
  exact hend.trans (List.dropWhile_sublist _)

theorem dedent_of_commonMargin (h : commonMargin (rows t) = some width) :
    dedent t = unrows (dropEmptyEnds ((rows t).map (outdent width))) := by
  rw [dedent, h]
  rfl

/-- The rows of a text without the indentation they share. -/
theorem rows_dedent_of_commonMargin (h : commonMargin (rows t) = some width) :
    rows (dedent t) = dropEmptyEnds ((rows t).map (outdent width)) := by
  have hdedent : isBlank (dedent t) = false := isBlank_dedent (Bool.eq_false_iff.2 fun hblank => by
    rw [commonMargin_eq_none_iff.2 hblank] at h
    cases h)
  rw [dedent_of_commonMargin h] at hdedent ⊢
  refine rows_unrows_of_lines (fun hnil => ?_) fun row hrow => ?_
  · rw [hnil] at hdedent
    cases hdedent
  · obtain ⟨row, hmem, rfl⟩ := List.mem_map.1 ((dropEmptyEnds_sublist _).subset hrow)
    rw [outdent]
    split
    · exact List.not_mem_nil
    · exact fun hc => line_of_mem_rows hmem (List.mem_of_mem_drop hc)

/-- Where the first row has no indentation and something can be seen in it and in the
last one, only blank rows are changed. -/
theorem rows_dedent (hfirst : ∀ row ∈ (rows t).head?, isBlank row = false ∧ margin row = [])
    (hlast : ∀ row ∈ (rows t).getLast?, isBlank row = false) : rows (dedent t) = (rows t).map unlessBlank := by
  obtain ⟨first, others, hrows⟩ := exists_rows t
  obtain ⟨hblank, hmargin⟩ := hfirst first (by rw [hrows]; rfl)
  have hseen : first ∈ seenRows t := mem_seenRows.2 ⟨hrows ▸ List.mem_cons_self, hblank⟩
  have hwidth : commonMargin (rows t) = some 0 :=
    commonMargin_eq_some_iff.2 ⟨⟨first, hseen, by rw [hmargin]; rfl⟩, fun _ _ => Nat.zero_le _⟩
  have hne (row : Text) (h : isBlank row = false) : unlessBlank row ≠ [] := by
    rw [unlessBlank, h]
    rintro rfl
    cases h
  have hkept : dropEmptyEnds ((rows t).map unlessBlank) = (rows t).map unlessBlank := by
    refine dropEmptyEnds_of_ends ?_ ?_
    · intro _ hmem
      rw [List.head?_map] at hmem
      obtain ⟨row, hrow, rfl⟩ := Option.map_eq_some_iff.1 hmem
      exact hne row (hfirst row hrow).1
    · intro _ hmem
      rw [List.getLast?_map] at hmem
      obtain ⟨row, hrow, rfl⟩ := Option.map_eq_some_iff.1 hmem
      exact hne row (hlast row hrow)
  exact (rows_dedent_of_commonMargin hwidth).trans hkept

theorem margin_append (h : isBlank s = false) (hmargin : margin s = []) (t : Text) : margin (s ++ t) = [] := by
  cases s with
  | nil => cases h
  | cons c s =>
    rw [margin, List.takeWhile_cons] at hmargin
    rw [margin, List.cons_append, List.takeWhile_cons]
    split at hmargin
    · cases hmargin
    next hindent => rw [if_neg hindent]

theorem getLast?_continued {rest : List Text} (hne : rest ≠ []) (behind : Text) :
    ∃ row, (continued rest [behind]).getLast? = some (row ++ behind) := by
  induction rest with
  | nil => exact absurd rfl hne
  | cons row rest ih =>
    cases rest with
    | nil => exact ⟨row, rfl⟩
    | cons second rest =>
      obtain ⟨last, hlast⟩ := ih (List.cons_ne_nil second rest)
      refine ⟨last, ?_⟩
      rw [continued, List.getLast?_cons, hlast]
      rfl

/-- A text between something without indentation and something else that can be seen,
both on their rows, keeps its rows but for the blank ones. -/
theorem rows_dedent_between {behind : Text} (hs : CodePoint.ofChar '\n' ∉ s) (hblank : isBlank s = false)
    (hmargin : margin s = []) (hbehind : CodePoint.ofChar '\n' ∉ behind) (hseen : isBlank behind = false) (t : Text) :
    rows (dedent (s ++ t ++ behind)) = (rows (s ++ t ++ behind)).map unlessBlank := by
  refine rows_dedent ?_ ?_
  · obtain ⟨first, others, hrows⟩ := exists_rows (t ++ behind)
    rw [List.append_assoc, rows_append, rows_of_line hs, hrows]
    rintro row ⟨⟩
    exact ⟨isBlank_append_left hblank first, margin_append hblank hmargin first⟩
  · obtain ⟨last, hlast⟩ := getLast?_continued (splitOn_ne_nil _ (s ++ t)) behind
    rw [rows_append, rows_of_line hbehind, rows, hlast]
    rintro row ⟨⟩
    exact isBlank_append_right last hseen

theorem hang_nil (t : Text) : hang [] t = t := by
  obtain ⟨first, others, hrows⟩ := exists_rows t
  have hlead : others.map (leadRow []) = others := by
    refine (List.map_congr_left fun row _ => ?_).trans (List.map_id others)
    rw [leadRow]
    split <;> rfl
  rw [hang, hrows]
  show unrows (first :: others.map (leadRow [])) = t
  rw [hlead, ← hrows, unrows_rows]

end

end WireSchema.Text

namespace WireSchema.Layout

open Text

/-! ## Braces -/

/-- A value that hangs on a row with nothing but the indentation before it. -/
theorem rows_place (above : Text) {lead value first : Text} {others : List Text} (hlead : margin lead = lead)
    (hline : CodePoint.ofChar '\n' ∉ lead) (hrows : rows value = first :: others) (below : Text) :
    rows (place (above ++ CodePoint.ofChar '\n' :: lead) value ++ CodePoint.ofChar '\n' :: below) =
      rows above ++ (lead ++ first) :: others.map (leadRow lead) ++ rows below := by
  have hlast : lastRow (above ++ CodePoint.ofChar '\n' :: lead) = lead := by
    rw [lastRow, List.reverse_append, List.reverse_cons, List.append_assoc, List.takeWhile_append_of_pos]
    · simp
    · intro c hc
      rw [List.mem_reverse] at hc
      exact decide_eq_true fun heq => hline (heq ▸ hc)
  have hhang : rows (lead ++ hang lead value) = (lead ++ first) :: others.map (leadRow lead) := by
    rw [rows_append, rows_of_line hline, rows_hang hline hrows]
    rfl
  rw [place, hlast, hlead, rows_newline_append, List.append_assoc, List.cons_append, rows_newline_append, hhang]

/-- Empty rows at the ends do not matter. -/
theorem dropEmptyEnds_between (parts : List Text) : dropEmptyEnds ([] :: parts ++ [[]]) = dropEmptyEnds parts := by
  rw [dropEmptyEnds, dropEmptyEnds, List.cons_append, List.dropWhile_cons_of_pos rfl, List.dropWhile_append]
  split
  next hempty =>
    rw [List.isEmpty_iff.1 hempty]
    rfl
  next => rw [List.reverse_append, List.reverse_singleton, List.singleton_append, List.dropWhile_cons_of_pos rfl]

/-- The braces may be written at any indentation, which is taken off. -/
theorem render_braced (value : Layout) : (braced value).render = (template "\x7b\n  " [(value, "\n\x7d")]).render := by
  obtain ⟨first, others, hrows⟩ := exists_rows value.render
  let near : Text := "  "
  let far : Text := "              "
  let opener : Text := "            \x7b"
  let closer : Text := "            \x7d"
  let below : Text := "            "
  let inner : Text := place "\x7b\n  " value.render ++ "\n\x7d"
  let outer : Text := place "\n            \x7b\n              " value.render ++ "\n            \x7d\n            "
  have hinner : rows inner = [Text.ofString "\x7b"] ++ (near ++ first) :: others.map (leadRow near) ++ [Text.ofString "\x7d"] :=
    rows_place "\x7b" (show margin near = near by decide) (by decide) hrows "\x7d"
  have houter : rows outer = [[], opener] ++ (far ++ first) :: others.map (leadRow far) ++ [closer, below] :=
    rows_place "\n            \x7b" (show margin far = far by decide) (by decide) hrows
      "            \x7d\n            "
  have hdeeper (row : Text) : outdent 12 (far ++ row) = outdent 0 (near ++ row) := by
    have hblank : isBlank (far ++ row) = isBlank (near ++ row) := by
      rw [isBlank, isBlank, List.all_append, List.all_append]
      rfl
    rw [outdent, outdent, hblank]
    rfl
  have hdeeper' (row : Text) : outdent 12 (leadRow far row) = outdent 0 (leadRow near row) := by
    cases row with
    | nil => rfl
    | cons c row => exact hdeeper (c :: row)
  have hmargin (row : Text) : 12 ≤ (margin (far ++ row)).length := by
    have hfar : margin (far ++ row) = far ++ margin row := List.takeWhile_append_of_pos (by decide)
    rw [hfar, List.length_append]
    exact Nat.le_add_right_of_le (by decide)
  -- of the rows that can be seen, those with the braces have the least indentation
  have hwidth : commonMargin (rows outer) = some 12 := by
    apply commonMargin_eq_some_iff.2
    constructor
    · exact ⟨opener, mem_seenRows.2 ⟨by simp [houter], by decide⟩, by decide⟩
    · intro row hrow
      obtain ⟨hmem, hseen⟩ := mem_seenRows.1 hrow
      simp only [houter, List.mem_append, List.mem_cons, List.mem_map, List.not_mem_nil, or_false] at hmem
      rcases hmem with ((rfl | rfl) | rfl | ⟨row, _, rfl⟩) | rfl | rfl
      · cases hseen
      · decide
      · exact hmargin first
      · cases row with
        | nil => cases hseen
        | cons c row => exact hmargin (c :: row)
      · decide
      · exact absurd hseen (by decide)
  have hwidth' : commonMargin (rows inner) = some 0 := by
    apply commonMargin_eq_some_iff.2
    constructor
    · exact ⟨"\x7b", mem_seenRows.2 ⟨by simp [hinner], by decide⟩, by decide⟩
    · exact fun _ _ => Nat.zero_le _
  have hsame : (rows outer).map (outdent 12) = [] :: (rows inner).map (outdent 0) ++ [[]] := by
    have hopener : outdent 12 opener = outdent 0 "\x7b" := by decide
    have hcloser : outdent 12 closer = outdent 0 "\x7d" := by decide
    have hbelow : outdent 12 below = [] := by decide
    simp only [houter, hinner, List.map_append, List.map_cons, List.map_nil, List.map_map, Function.comp_def, hdeeper,
      hdeeper', hopener, hcloser, hbelow, List.cons_append, List.nil_append, List.append_assoc]
    rfl
  calc (braced value).render
      = unrows (dropEmptyEnds ((rows outer).map (outdent 12))) := dedent_of_commonMargin hwidth
    _ = unrows (dropEmptyEnds ((rows inner).map (outdent 0))) := by rw [hsame, dropEmptyEnds_between]
    _ = (template "\x7b\n  " [(value, "\n\x7d")]).render := (dedent_of_commonMargin hwidth').symm

end WireSchema.Layout
