import WireSchema.Proofs.Doc.Rows
/-!
# What separates a tag from its text

The name of a tag goes up to the first space, and white space is then taken off
its ends. So white space of another kind ends a name only if a space stands
somewhere in it, or if nothing but white space is left of the row.
-/

namespace WireSchema

open Text

section
variable {s t u : Text} {c : CodePoint} {sep sep' word rest row lead before after : Text}

/-! ## Rows around a text -/

theorem Text.rows_append_lastRow (s : Text) : ∃ front, ∀ u, rows (s ++ u) = front ++ rows (Layout.lastRow s ++ u) := by
  have hsplit : s.rdropWhile (· ≠ CodePoint.ofChar '\n') ++ Layout.lastRow s = s :=
    List.rdropWhile_append_rtakeWhile
  by_cases hnil : s.rdropWhile (· ≠ CodePoint.ofChar '\n') = []
  · rw [hnil, List.nil_append] at hsplit
    exact ⟨[], fun u => by rw [hsplit, List.nil_append]⟩
  · have hlast : (s.rdropWhile (· ≠ CodePoint.ofChar '\n')).getLast hnil = CodePoint.ofChar '\n' := by
      simpa using List.rdropWhile_last_not (· ≠ CodePoint.ofChar '\n') s hnil
    have hfront := List.dropLast_append_getLast hnil
    rw [hlast] at hfront
    refine ⟨rows (s.rdropWhile (· ≠ CodePoint.ofChar '\n')).dropLast, fun u => ?_⟩
    rw [← rows_newline_append, List.append_cons, hfront, ← List.append_assoc, hsplit]

theorem Text.rows_append_firstRow (t : Text) :
    ∃ back, ∀ u, CodePoint.ofChar '\n' ∉ u → rows (u ++ t) = (u ++ firstRow t) :: back := by
  obtain ⟨back, hback⟩ : ∃ back, rows t = firstRow t :: back := by
    induction t with
    | nil => exact ⟨[], rfl⟩
    | cons c t ih =>
      by_cases hc : c = CodePoint.ofChar '\n'
      · exact ⟨rows t, by rw [hc, rows_newline, firstRow_newline]⟩
      · obtain ⟨back, hback⟩ := ih
        exact ⟨back, by rw [rows_cons hc hback, firstRow_cons hc]⟩
  refine ⟨back, fun u hu => ?_⟩
  induction u with
  | nil => exact hback
  | cons c u ih =>
    rw [List.mem_cons, not_or] at hu
    exact rows_cons (Ne.symm hu.1) (ih hu.2)

theorem Text.line_lastRow (s : Text) : CodePoint.ofChar '\n' ∉ Layout.lastRow s := by
  intro hmem
  rw [Layout.lastRow, List.mem_reverse] at hmem
  exact absurd (List.mem_takeWhile_imp hmem) (by simp)

/-- A text without line feeds stands in one row between others. -/
theorem Text.exists_rows_between (s t : Text) : ∃ front back, ∀ u, CodePoint.ofChar '\n' ∉ u →
    rows (s ++ u ++ t) = front ++ (Layout.lastRow s ++ u ++ firstRow t) :: back := by
  obtain ⟨front, hfront⟩ := rows_append_lastRow s
  obtain ⟨back, hback⟩ := rows_append_firstRow t
  refine ⟨front, back, fun u hu => ?_⟩
  have hline : CodePoint.ofChar '\n' ∉ Layout.lastRow s ++ u := fun h =>
    (List.mem_append.1 h).elim (line_lastRow s) hu
  rw [List.append_assoc, hfront, ← List.append_assoc, hback _ hline]

/-! ## The marks of a block -/

theorem isPrefixOf_append_cons {p : Text} (h : c ∉ p) (s t : Text) : p.isPrefixOf (s ++ c :: t) = p.isPrefixOf s := by
  induction p generalizing s with
  | nil => cases s <;> rfl
  | cons a p ih =>
    rw [List.mem_cons, not_or] at h
    cases s with
    | nil =>
      have hne : (a == c) = false := beq_eq_false_iff_ne.2 (Ne.symm h.1)
      show (a == c && p.isPrefixOf t) = false
      rw [hne, Bool.false_and]
    | cons b s => rw [List.cons_append, List.isPrefixOf, List.isPrefixOf, ih h.2]

namespace DocComment

/-- What stands in a block before a text, without the opening mark. -/
def opened (before : Text) : Text :=
  let body := before.dropWhile CodePoint.isBlank
  if startsWith body "/**" then body.drop 3 else body

/-- What stands in a block behind a text, without the closing mark. -/
def closed (after : Text) : Text :=
  let body := trimEnd after
  if endsWith body "*/" then body.take (body.length - 2) else body

/-- The marks of a block stand before and behind what is neither. -/
theorem blockRows_between {d : CodePoint} {mid : Text} (hc : c.isBlank = false) (hopen : c ∉ ("/**" : Text))
    (hd : d ∉ ("*/" : Text)) (hafter : isBlank after = false) :
    blockRows (before ++ (c :: mid ++ [d]) ++ after) =
      (rows (opened before ++ (c :: mid ++ [d]) ++ closed after)).map blockRow := by
  -- Neither mark reaches over the ends of the text: `c` is not in the one, `d` not in the other.
  let body := before.dropWhile CodePoint.isBlank ++ (c :: mid ++ [d])
  have htrim : trim (before ++ (c :: mid ++ [d]) ++ after) = body ++ trimEnd after := by
    have hfront : (before ++ (c :: mid ++ [d]) ++ after).dropWhile CodePoint.isBlank = body ++ after := by
      simp only [body, List.append_assoc, List.cons_append]
      exact dropWhile_append_cons_of_neg hc before _
    rw [trim, trimWhile, hfront]
    exact trimEnd_append body hafter
  have hopened : (if startsWith (body ++ trimEnd after) "/**" then (body ++ trimEnd after).drop 3
      else body ++ trimEnd after) = opened before ++ (c :: mid ++ [d]) ++ trimEnd after := by
    have hstart : startsWith (body ++ trimEnd after) "/**" = startsWith (before.dropWhile CodePoint.isBlank) "/**" := by
      simp only [body, List.append_assoc, List.cons_append]
      exact isPrefixOf_append_cons hopen _ _
    rw [hstart, opened]
    split
    next h =>
      obtain ⟨rest, hrest⟩ := List.isPrefixOf_iff_prefix.1 h
      simp only [body, ← hrest]
      rfl
    · rfl
  have hclosed (t : Text) : (if endsWith (t ++ [d] ++ trimEnd after) "*/" then
      (t ++ [d] ++ trimEnd after).take ((t ++ [d] ++ trimEnd after).length - 2) else t ++ [d] ++ trimEnd after) =
        t ++ [d] ++ closed after := by
    have hend : endsWith (t ++ [d] ++ trimEnd after) "*/" = endsWith (trimEnd after) "*/" := by
      rw [endsWith, endsWith, List.isSuffixOf, List.isSuffixOf]
      simp only [List.reverse_append, List.append_assoc]
      exact isPrefixOf_append_cons (by rwa [List.mem_reverse]) _ _
    rw [hend, closed]
    split
    next h =>
      obtain ⟨rest, hrest⟩ := List.isSuffixOf_iff_suffix.1 h
      rw [← hrest, ← List.append_assoc, take_before_mark, take_before_mark]
    · rfl
  rw [blockRows, htrim]
  simp only [hopened]
  rw [← List.append_assoc, hclosed]

/-! ## The row of a tag -/

/-- What may stand in a row before a tag: white space, and a star in it. -/
def Leads (lead : Text) : Prop :=
  isBlank lead = true ∨
    ∃ front back, lead = front ++ CodePoint.ofChar '*' :: back ∧ isBlank front = true ∧ isBlank back = true

/-- A run of code points that are not white space. -/
def IsRun (word : Text) : Prop := word ≠ [] ∧ ∀ c ∈ word, c.isBlank = false

/-- White space inside a row. -/
def IsGap (sep : Text) : Prop := sep ≠ [] ∧ isBlank sep = true ∧ CodePoint.ofChar '\n' ∉ sep

theorem tagRow?_congr {other : Text} (h : trim row = trim other) : tagRow? row = tagRow? other := by
  rw [tagRow?, tagRow?, h]

theorem trim_blockRow_of_star (h : trim row = CodePoint.ofChar '*' :: t) : trim (blockRow row) = trim t := by
  rw [blockRow, h, trim_trimEnd]
  cases t with
  | nil => rfl
  | cons c t =>
    by_cases hc : c = CodePoint.ofChar ' '
    · subst hc
      exact (trim_blank_append (s := [CodePoint.ofChar ' ']) (by decide) t).symm
    · have hspace : startsWith (CodePoint.ofChar '*' :: c :: t) "* " = false := by
        simp [startsWith, Text.ofString, List.isPrefixOf, Ne.symm hc]
      rw [hspace]
      rfl

theorem trim_blockRow_of_not_star (h : trim row = c :: t) (hc : c ≠ CodePoint.ofChar '*') :
    trim (blockRow row) = trim row := by
  have hstar (rest : Text) : startsWith (c :: t) (CodePoint.ofChar '*' :: rest) = false := by
    simp [startsWith, List.isPrefixOf, Ne.symm hc]
  rw [blockRow, trim_trimEnd, h]
  show trim (if startsWith (c :: t) (CodePoint.ofChar '*' :: " ") then _ else
    if startsWith (c :: t) (CodePoint.ofChar '*' :: []) then _ else c :: t) = _
  rw [hstar, hstar, if_neg Bool.false_ne_true, if_neg Bool.false_ne_true, ← h, trim_trim]

/-- What stands before a tag in its row does not matter. -/
theorem trim_blockRow (h : Leads lead) (u : Text) :
    trim (blockRow (lead ++ CodePoint.ofChar '@' :: u)) = trim (CodePoint.ofChar '@' :: u) := by
  rcases h with hblank | ⟨front, back, rfl, hfront, hback⟩
  · have htrim : trim (lead ++ CodePoint.ofChar '@' :: u) = CodePoint.ofChar '@' :: trimEnd u :=
      (trim_blank_append hblank _).trans (trim_cons (by decide) u)
    rw [trim_blockRow_of_not_star htrim (by decide), trim_blank_append hblank]
  · have htrim : trim (front ++ CodePoint.ofChar '*' :: back ++ CodePoint.ofChar '@' :: u) =
        CodePoint.ofChar '*' :: trimEnd (back ++ CodePoint.ofChar '@' :: u) := by
      rw [List.append_assoc, trim_blank_append hfront]
      exact trim_cons (by decide) _
    rw [trim_blockRow_of_star htrim, trim_trimEnd, trim_blank_append hback]

theorem not_mem_of_isRun (h : IsRun word) : CodePoint.ofChar ' ' ∉ word := fun hmem => by
  cases h.2 _ hmem

theorem trim_run_append (h : IsRun word) (t : Text) : trim (word ++ t) = trimEnd (word ++ t) := by
  obtain ⟨c, word, rfl⟩ := List.exists_cons_of_ne_nil h.1
  have hc := h.2 c List.mem_cons_self
  rw [List.cons_append, trim_cons hc, trimEnd_cons hc]

theorem trim_run (h : IsRun word) : trim word = word := by
  have hlast : ∀ hne : word ≠ [], ¬ (word.getLast hne).isBlank = true := fun hne => by
    rw [h.2 _ (List.getLast_mem hne)]
    exact Bool.false_ne_true
  have htrim := trim_run_append h []
  rw [List.append_nil] at htrim
  exact htrim.trans (List.rdropWhile_eq_self_iff.2 hlast)

/-- A name ends where nothing else stands in the row, or where a space comes before anything else. -/
theorem tagRow?_of_space (hword : IsRun word) (hsep : isBlank sep = true)
    (h : isBlank rest = true ∨ CodePoint.ofChar ' ' ∈ sep) :
    tagRow? (CodePoint.ofChar '@' :: (word ++ sep ++ rest)) = some (word, trim rest) := by
  have htrim : trim (CodePoint.ofChar '@' :: (word ++ sep ++ rest)) =
      CodePoint.ofChar '@' :: trimEnd (word ++ sep ++ rest) := trim_cons (by decide) _
  cases hrest : isBlank rest with
  | true =>
    have hend : trimEnd (word ++ sep ++ rest) = word := by
      rw [trimEnd_append_blank _ hrest, trimEnd_append_blank _ hsep, trimEnd_of_trim (trim_run hword)]
    rw [hend] at htrim
    rw [tagRow?_of_trim hword.1 htrim, splitFirst_self (not_mem_of_isRun hword), trim_run hword,
      trim_eq_nil_iff.2 hrest]
    rfl
  | false =>
    have hspace : CodePoint.ofChar ' ' ∈ sep := h.resolve_left (by rw [hrest]; exact Bool.false_ne_true)
    obtain ⟨front, back, rfl, hfront⟩ := List.eq_append_cons_of_mem hspace
    rw [trimEnd_append _ hrest] at htrim
    have hblank : isBlank front = true ∧ isBlank back = true := by
      rw [isBlank_append, Bool.and_eq_true] at hsep
      exact ⟨hsep.1, ((isBlank_append (s := [CodePoint.ofChar ' ']) (t := back)).symm.trans hsep.2)⟩
    have hname : CodePoint.ofChar ' ' ∉ word ++ front := fun h =>
      (List.mem_append.1 h).elim (not_mem_of_isRun hword) hfront
    have hsplit : splitFirst ' ' (word ++ (front ++ CodePoint.ofChar ' ' :: back) ++ trimEnd rest) =
        (word ++ front, back ++ trimEnd rest) := by
      have hassoc : word ++ (front ++ CodePoint.ofChar ' ' :: back) ++ trimEnd rest =
          (word ++ front) ++ CodePoint.ofChar ' ' :: (back ++ trimEnd rest) := by simp
      rw [hassoc, splitFirst_append hname, splitFirst_space, List.append_nil]
    rw [tagRow?_of_trim (by simp) htrim, hsplit, trim_append_blank _ hblank.1, trim_run hword,
      trim_blank_append hblank.2, trim_trimEnd]

/-- Without a space, what separates the name from more goes to the name with it. -/
theorem tagRow?_of_not_space (hword : IsRun word) (hc : c.isBlank = false) (t : Text) :
    ∃ joined line, joined ≠ [] ∧ ∀ sep, CodePoint.ofChar ' ' ∉ sep →
      tagRow? (CodePoint.ofChar '@' :: (word ++ sep ++ c :: t)) = some (word ++ sep ++ joined, line) := by
  have hne : c ≠ CodePoint.ofChar ' ' := by
    rintro rfl
    cases hc
  obtain ⟨first, line, hsplit⟩ : ∃ first line, splitFirst ' ' (c :: trimEnd t) = (c :: first, line) :=
    ⟨_, _, splitFirst_cons hne _⟩
  refine ⟨trimEnd (c :: first), trim line, ?_, fun sep hspace => ?_⟩
  · rw [trimEnd_cons hc]
    exact List.cons_ne_nil _ _
  have htrim : trim (CodePoint.ofChar '@' :: (word ++ sep ++ c :: t)) =
      CodePoint.ofChar '@' :: (word ++ sep ++ c :: trimEnd t) := by
    have hblank : isBlank (c :: t) = false := by rw [isBlank, List.all_cons, hc]; rfl
    rw [trim_cons (by decide), trimEnd_append _ hblank, trimEnd_cons hc]
  have hname : CodePoint.ofChar ' ' ∉ word ++ sep := fun h =>
    (List.mem_append.1 h).elim (not_mem_of_isRun hword) hspace
  have hblank : isBlank (c :: first) = false := by rw [isBlank, List.all_cons, hc]; rfl
  rw [tagRow?_of_trim (by simp) htrim, splitFirst_append hname, hsplit]
  show some (trim (word ++ sep ++ c :: first), trim line) = _
  rw [List.append_assoc, trim_run_append hword, ← List.append_assoc, trimEnd_append _ hblank]

/-! ## Names -/

/-- The tags are those that rows start, in order. -/
theorem names_ofRows (rows : List Text) : (ofRows rows).tags.map (·.name) = (rows.filterMap tagRow?).map (·.1) := by
  have hnames : (groupRows rows).2.map (·.1) = (rows.filterMap tagRow?).map (·.1) := by
    induction rows with
    | nil => rfl
    | cons row rows ih =>
      cases hrow : tagRow? row with
      | none => rw [groupRows_plain hrow, List.filterMap_cons_none hrow, ih]
      | some tag => rw [groupRows_tag hrow, List.filterMap_cons_some hrow, List.map_cons, List.map_cons, ih]
  rw [← hnames, ofRows, List.map_map]
  rfl

theorem ofRows_congr {front back : List Text} {other : Text} {tag : Text × Text} (hrow : tagRow? row = some tag)
    (hother : tagRow? other = some tag) : ofRows (front ++ row :: back) = ofRows (front ++ other :: back) := by
  have hgroup : groupRows (front ++ row :: back) = groupRows (front ++ other :: back) := by
    induction front with
    | nil => rw [List.nil_append, List.nil_append, groupRows_tag hrow, groupRows_tag hother]
    | cons first front ih => rw [List.cons_append, List.cons_append, groupRows, groupRows, ih]
  rw [ofRows, ofRows, hgroup]

theorem name_of_ofRows {front back : List Text} {other name name' line line' : Text}
    (h : ofRows (front ++ row :: back) = ofRows (front ++ other :: back)) (hrow : tagRow? row = some (name, line))
    (hother : tagRow? other = some (name', line')) : name = name' := by
  have hnames := (names_ofRows _).symm.trans ((congrArg (fun doc => doc.tags.map (·.name)) h).trans (names_ofRows _))
  rw [List.filterMap_append, List.filterMap_append, List.filterMap_cons_some hrow, List.filterMap_cons_some hother,
    List.map_append, List.map_append, List.append_cancel_left_eq] at hnames
  exact List.head_eq_of_cons_eq hnames

/-! ## Other separators -/

/-- The name of a tag is the run behind the `@`, and its first line is what is left
of the row, just where nothing is left or a space separates the two. -/
theorem tagRow?_iff {t : Text} (h : trim row = CodePoint.ofChar '@' :: t) (hfirst : ∃ c ∈ t.head?, c.isBlank = false) :
    tagRow? row = some (t.takeWhile (!·.isBlank), trim (t.dropWhile (!·.isBlank))) ↔
      t.dropWhile (!·.isBlank) = [] ∨
        CodePoint.ofChar ' ' ∈ (t.dropWhile (!·.isBlank)).takeWhile CodePoint.isBlank := by
  let word := t.takeWhile (!·.isBlank)
  let behind := t.dropWhile (!·.isBlank)
  let sep := behind.takeWhile CodePoint.isBlank
  let rest := behind.dropWhile CodePoint.isBlank
  have hsplit : t = word ++ sep ++ rest := by
    rw [List.append_assoc, List.takeWhile_append_dropWhile, List.takeWhile_append_dropWhile]
  have hbehind : behind = sep ++ rest := List.takeWhile_append_dropWhile.symm
  have hsep : isBlank sep = true := isBlank_iff.2 fun c => List.mem_takeWhile_imp
  have hword : IsRun word := by
    obtain ⟨c, hc, hblank⟩ := hfirst
    cases t with
    | nil => cases hc
    | cons d t =>
      cases hc
      refine ⟨?_, fun c hc => by simpa using List.mem_takeWhile_imp hc⟩
      simp only [word]
      rw [List.takeWhile_cons_of_pos (by rw [hblank]; rfl)]
      exact List.cons_ne_nil _ _
  have hrow : tagRow? row = tagRow? (CodePoint.ofChar '@' :: (word ++ sep ++ rest)) := by
    rw [← hsplit, ← h]
    exact tagRow?_congr (trim_trim row).symm
  have htrim : trim behind = trim rest := by rw [hbehind, trim_blank_append hsep]
  show tagRow? row = some (word, trim behind) ↔ behind = [] ∨ CodePoint.ofChar ' ' ∈ sep
  rw [hrow, htrim]
  constructor
  · intro htag
    by_cases hspace : CodePoint.ofChar ' ' ∈ sep
    · exact .inr hspace
    cases hrest : rest with
    | nil =>
      have hend : trimEnd t = t := by
        have htrimmed : trimEnd (trim row) = trim row := trimEnd_trim row
        rw [h, trimEnd_cons (by decide)] at htrimmed
        exact List.tail_eq_of_cons_eq htrimmed
      rw [hrest, List.append_nil] at hsplit
      rw [hsplit, trimEnd_append_blank _ hsep, trimEnd_of_trim (trim_run hword), List.self_eq_append_right] at hend
      rw [hbehind, hrest, hend]
      exact .inl rfl
    | cons c after =>
      have hc : c.isBlank = false := not_of_dropWhile_eq_cons hrest
      -- Something of the rest would be in the name.
      obtain ⟨joined, line, hne, hjoined⟩ := tagRow?_of_not_space hword hc after
      rw [hrest, hjoined sep hspace, Option.some_inj, Prod.mk.injEq] at htag
      have heq := htag.1.symm
      rw [List.append_assoc, List.self_eq_append_right, List.append_eq_nil_iff] at heq
      exact absurd heq.2 hne
  · rintro (hnil | hspace)
    · exact tagRow?_of_space hword hsep (.inl (by simp [rest, hnil, isBlank]))
    · exact tagRow?_of_space hword hsep (.inr hspace)

theorem prefix_closed (after : Text) : closed after <+: after := by
  have htrim : trimEnd after <+: after := List.rdropWhile_prefix _ _
  rw [closed]
  split
  · exact (List.take_prefix _ _).trans htrim
  · exact htrim

/-- What is left of a row begins with something else than white space. -/
theorem exists_of_firstRow (hafter : ∀ c ∈ after.head?, c.isBlank = true → c = '\n')
    (h : isBlank (firstRow (closed after)) = false) : ∃ c t, firstRow (closed after) = c :: t ∧ c.isBlank = false := by
  have hne : firstRow (closed after) ≠ [] := by
    rintro hnil
    rw [hnil] at h
    cases h
  obtain ⟨c, t, hrow⟩ := List.exists_cons_of_ne_nil hne
  refine ⟨c, t, hrow, Bool.eq_false_iff.2 fun hblank => ?_⟩
  have hmem : c ∈ (closed after).takeWhile (· ≠ CodePoint.ofChar '\n') := by
    rw [← firstRow, hrow]
    exact List.mem_cons_self
  obtain ⟨rest, hrest⟩ := (List.takeWhile_prefix _).trans (prefix_closed after)
  rw [← firstRow, hrow] at hrest
  have hline := hafter c (by rw [← hrest]; rfl) hblank
  exact absurd (List.mem_takeWhile_imp hmem) (by simp [hline])

/-- A block whose rows are the same but for the one of a tag. -/
theorem exists_ofBlock_eq (before : Text) (hword : IsRun word) (hrest : isBlank after = false) : ∃ front back, ∀ sep, IsGap sep →
    ofBlock (before ++ "@" ++ word ++ sep ++ after) = ofRows (front ++ blockRow (Layout.lastRow (opened before) ++
      CodePoint.ofChar '@' :: (word ++ sep ++ firstRow (closed after))) :: back) := by
  obtain ⟨front, back, hrows⟩ := exists_rows_between (opened before) (closed after)
  refine ⟨front.map blockRow, back.map blockRow, fun sep hsep => ?_⟩
  obtain ⟨hne, hblank, hline⟩ := hsep
  obtain ⟨gap, d, rfl⟩ : ∃ gap d, sep = gap ++ [d] := ⟨_, _, (List.dropLast_append_getLast hne).symm⟩
  have hd : d ∉ ("*/" : Text) := by
    have hdblank : d.isBlank = true := isBlank_iff.1 hblank d (by simp)
    intro hmem
    rcases List.mem_cons.1 hmem with rfl | hmem
    · cases hdblank
    · rw [List.mem_singleton.1 hmem] at hdblank
      cases hdblank
  have hmid : CodePoint.ofChar '\n' ∉ CodePoint.ofChar '@' :: (word ++ gap) ++ [d] := by
    have hrun : CodePoint.ofChar '\n' ∉ word := fun hmem => by cases hword.2 _ hmem
    simp only [List.mem_append, List.mem_cons, not_or] at hline ⊢
    exact ⟨⟨by decide, hrun, hline.1⟩, hline.2⟩
  have htext : before ++ "@" ++ word ++ (gap ++ [d]) ++ after =
      before ++ (CodePoint.ofChar '@' :: (word ++ gap) ++ [d]) ++ after := by
    simp only [List.append_assoc, List.cons_append]
    rfl
  rw [htext, ofBlock_eq, blockRows_between (by decide) (by decide) hd hrest, hrows _ hmid, List.map_append,
    List.map_cons]
  simp only [List.append_assoc, List.cons_append]

/-- With another separator behind the name of a tag the documentation is the same just
where nothing else stands in the row or both separators have a space. -/
theorem ofBlock_separator_iff (hlead : Leads (Layout.lastRow (opened before))) (hword : IsRun word) (hsep : IsGap sep)
    (hsep' : IsGap sep') (hafter : ∀ c ∈ after.head?, c.isBlank = true → c = '\n') :
    ofBlock (before ++ "@" ++ word ++ sep ++ after) = ofBlock (before ++ "@" ++ word ++ sep' ++ after) ↔
      sep = sep' ∨ isBlank (firstRow (closed after)) = true ∨
        CodePoint.ofChar ' ' ∈ sep ∧ CodePoint.ofChar ' ' ∈ sep' := by
  cases hrest : isBlank after with
  | true =>
    have hnothing (sep : Text) (hsep : IsGap sep) :
        ofBlock (before ++ "@" ++ word ++ sep ++ after) = ofBlock (before ++ "@" ++ word) := by
      rw [ofBlock_eq, ofBlock_eq, blockRows, blockRows, trim_append_blank _ hrest, trim_append_blank _ hsep.2.1]
    have hclosed : isBlank (firstRow (closed after)) = true := by
      rw [closed, trimEnd_eq_nil_iff.2 hrest]
      rfl
    rw [hnothing sep hsep, hnothing sep' hsep']
    exact iff_of_true rfl (.inr (.inl hclosed))
  | false =>
    obtain ⟨front, back, hblock⟩ := exists_ofBlock_eq before hword hrest
    have htag (sep : Text) : tagRow? (blockRow (Layout.lastRow (opened before) ++
        CodePoint.ofChar '@' :: (word ++ sep ++ firstRow (closed after)))) =
          tagRow? (CodePoint.ofChar '@' :: (word ++ sep ++ firstRow (closed after))) :=
      tagRow?_congr (trim_blockRow hlead _)
    rw [hblock sep hsep, hblock sep' hsep']
    constructor
    · intro heq
      cases hleft : isBlank (firstRow (closed after)) with
      | true => exact .inr (.inl rfl)
      | false =>
        obtain ⟨c, t, hrow, hc⟩ := exists_of_firstRow hafter hleft
        obtain ⟨joined, line, hne, hjoined⟩ := tagRow?_of_not_space hword hc t
        rw [hrow] at htag heq
        -- The two blocks have the same names, and a separator without a space is part of one.
        have hname {name name' line line' : Text}
            (h : tagRow? (CodePoint.ofChar '@' :: (word ++ sep ++ c :: t)) = some (name, line))
            (h' : tagRow? (CodePoint.ofChar '@' :: (word ++ sep' ++ c :: t)) = some (name', line')) : name = name' :=
          name_of_ofRows heq ((htag sep).trans h) ((htag sep').trans h')
        by_cases hspace : CodePoint.ofChar ' ' ∈ sep <;> by_cases hspace' : CodePoint.ofChar ' ' ∈ sep'
        · exact .inr (.inr ⟨hspace, hspace'⟩)
        · have heq' := hname (tagRow?_of_space hword hsep.2.1 (.inr hspace)) (hjoined sep' hspace')
          rw [List.append_assoc, List.self_eq_append_right, List.append_eq_nil_iff] at heq'
          exact absurd heq'.2 hne
        · have heq' := (hname (hjoined sep hspace) (tagRow?_of_space hword hsep'.2.1 (.inr hspace'))).symm
          rw [List.append_assoc, List.self_eq_append_right, List.append_eq_nil_iff] at heq'
          exact absurd heq'.2 hne
        · have heq' := hname (hjoined sep hspace) (hjoined sep' hspace')
          exact .inl (List.append_cancel_left (List.append_cancel_right heq'))
    · rintro (rfl | hsame)
      · rfl
      · exact ofRows_congr ((htag sep).trans (tagRow?_of_space hword hsep.2.1 (hsame.imp_right And.left)))
          ((htag sep').trans (tagRow?_of_space hword hsep'.2.1 (hsame.imp_right And.right)))

/-- Whatever white space follows it, the name of a tag is the run behind the `@` and
the rest of the row its first line, just where nothing else stands in the row or a
space separates the two. So another separator leaves the documentation as it is
just where both have a space or nothing else stands in the row. -/
theorem tag_separators (row t before word sep sep' after : Text) :
    (trim row = CodePoint.ofChar '@' :: t → (∃ c ∈ t.head?, c.isBlank = false) →
      (tagRow? row = some (t.takeWhile (!·.isBlank), trim (t.dropWhile (!·.isBlank))) ↔
        t.dropWhile (!·.isBlank) = [] ∨
          CodePoint.ofChar ' ' ∈ (t.dropWhile (!·.isBlank)).takeWhile CodePoint.isBlank)) ∧
    (Leads (Layout.lastRow (opened before)) → IsRun word → IsGap sep → IsGap sep' →
      (∀ c ∈ after.head?, c.isBlank = true → c = '\n') →
      (ofBlock (before ++ "@" ++ word ++ sep ++ after) = ofBlock (before ++ "@" ++ word ++ sep' ++ after) ↔
        sep = sep' ∨ isBlank (firstRow (closed after)) = true ∨
          CodePoint.ofChar ' ' ∈ sep ∧ CodePoint.ofChar ' ' ∈ sep')) :=
  ⟨tagRow?_iff, fun hlead hword hsep hsep' hafter => ofBlock_separator_iff hlead hword hsep hsep' hafter⟩

/-- Spaces, however many, separate a tag from its text; a tab does not. -/
theorem tag_separators_spaces :
    tagRow? " @model Other" = some (Text.ofString "model", Text.ofString "Other") ∧
      ofBlock "/** @model  Other */" = ofBlock "/** @model Other */" ∧
      ofBlock "/** @model\tOther */" ≠ ofBlock "/** @model Other */" := by
  have hrow := (tag_separators " @model Other" "model Other" "/** " "model" "  " " " "Other */").1 (by decide) (by decide)
  have hrun : IsRun "model" := ⟨by decide, by decide⟩
  have hlead : Leads (Layout.lastRow (opened "/** ")) := .inl (by decide)
  have hspace : IsGap " " := ⟨by decide, by decide, by decide⟩
  have hspaces := (tag_separators [] [] "/** " "model" "  " " " "Other */").2 hlead hrun ⟨by decide, by decide, by decide⟩
    hspace (by decide)
  have htab := (tag_separators [] [] "/** " "model" "\t" " " "Other */").2 hlead hrun ⟨by decide, by decide, by decide⟩
    hspace (by decide)
  refine ⟨hrow.2 (.inr (by decide)), hspaces.2 (.inr (.inr (by decide))), fun hsame => ?_⟩
  rcases htab.1 hsame with heq | hblank | hboth
  · exact absurd heq (by decide)
  · exact absurd hblank (by decide)
  · exact absurd hboth.1 (by decide)

/-- Behind a tab the text of a tag goes to its name. -/
theorem tag_behind_tab :
    tagRow? "@model\tOther" ≠ some (Text.ofString "model", Text.ofString "Other") ∧
    (ofBlock "/** @model\tOther */").hasTag "model" = false ∧
    (ofBlock "/** @model Other */").hasTag "model" = true := by decide

end DocComment

end

end WireSchema
