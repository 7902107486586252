import WireSchema.Proofs.Doc.Separators
import WireSchema.Proofs.Layout.Placeholders
/-!
# Values on the lines of a template

The further rows of a value should stand at the indentation of the template's own line, as
if all placeholders were replaced at once. They are put in from the left, though, and each
measures the row that the text so far ends with. The two agree where the values before it
on the line leave the indentation of that row as the template has it.
-/

namespace WireSchema

open Text

/-! ## The row a text ends with -/

namespace Layout

section
variable {s t u lead : Text} {c : CodePoint}

theorem lastRow_append_of_line (s : Text) (h : CodePoint.ofChar '\n' ∉ t) : lastRow (s ++ t) = lastRow s ++ t := by
  have hall : ∀ c ∈ t.reverse, decide (c ≠ CodePoint.ofChar '\n') = true := fun c hc =>
    decide_eq_true fun heq => h (List.mem_reverse.1 (heq ▸ hc))
  rw [lastRow, List.reverse_append, List.takeWhile_append_of_pos hall, List.reverse_append, List.reverse_reverse, lastRow]

theorem lastRow_newline (s : Text) : lastRow (s ++ [CodePoint.ofChar '\n']) = [] := by
  rw [lastRow, List.reverse_append]
  rfl

theorem getLast?_rows (t : Text) : (rows t).getLast? = some (lastRow t) := by
  obtain ⟨front, hfront⟩ := rows_append_lastRow t
  have hrows := hfront []
  rw [List.append_nil, List.append_nil, rows_of_line (line_lastRow t)] at hrows
  rw [hrows, List.getLast?_concat]

theorem lastRow_append_of_mem (s : Text) (h : CodePoint.ofChar '\n' ∈ t) : lastRow (s ++ t) = lastRow t := by
  obtain ⟨front, back, rfl⟩ := List.mem_iff_append.1 h
  have hlast (u : Text) : (rows (u ++ CodePoint.ofChar '\n' :: back)).getLast? = (rows back).getLast? := by
    rw [rows_newline_append]
    exact List.getLast?_append_of_ne_nil _ (splitOn_ne_nil _ back)
  rw [← Option.some_inj, ← getLast?_rows, ← getLast?_rows, ← List.append_assoc, hlast, hlast]

theorem hang_of_line (lead : Text) (h : CodePoint.ofChar '\n' ∉ t) : hang lead t = t := by
  rw [hang, rows_of_line h]
  rfl

/-- The last of several rows hangs with the others. -/
theorem lastRow_hang (hlead : CodePoint.ofChar '\n' ∉ lead) (h : CodePoint.ofChar '\n' ∈ t) :
    CodePoint.ofChar '\n' ∈ hang lead t ∧ lastRow (hang lead t) = leadRow lead (lastRow t) := by
  obtain ⟨first, others, hrows⟩ := exists_rows t
  have hne : others ≠ [] := by
    rintro rfl
    have hline : CodePoint.ofChar '\n' ∉ first := line_of_mem_rows (hrows ▸ List.mem_cons_self)
    rw [← unrows_rows t, hrows] at h
    exact hline h
  have hhang := rows_hang hlead hrows
  have hlast : others.getLast? = some (lastRow t) := by
    rw [← getLast?_rows, hrows, List.getLast?_cons_of_ne_nil hne]
  constructor
  · by_contra hline
    rw [rows_of_line hline, List.cons.injEq] at hhang
    exact hne (List.map_eq_nil_iff.1 hhang.2.symm)
  · have hmap : (others.map (leadRow lead)).getLast? = some (leadRow lead (lastRow t)) := by
      rw [List.getLast?_map, hlast]
      rfl
    rw [← Option.some_inj, ← getLast?_rows, hhang, List.getLast?_cons_of_ne_nil (by simpa using hne), hmap]

end

/-! ## Rows with the same indentation -/

/-- The row is nothing but indentation. -/
def IsBare (row : Text) : Prop := margin row = row

/-- Both rows have the same indentation, and neither or both have something behind it. -/
structure Alike (row other : Text) : Prop where
  margin_eq : margin row = margin other
  bare_iff : IsBare row ↔ IsBare other

section
variable {row other s t : Text} {c : CodePoint}

theorem margin_append_bare (h : IsBare row) (t : Text) : margin (row ++ t) = row ++ margin t := by
  have hlength : (row.takeWhile CodePoint.isIndent).length = row.length := congrArg List.length h
  rw [margin, List.takeWhile_append, if_pos hlength, margin]

theorem margin_append_of_not_bare (h : ¬IsBare row) (t : Text) : margin (row ++ t) = margin row := by
  have hlength : ¬(row.takeWhile CodePoint.isIndent).length = row.length := fun hlength =>
    h ((List.takeWhile_prefix CodePoint.isIndent).eq_of_length hlength)
  rw [margin, List.takeWhile_append, if_neg hlength, margin]

theorem isBare_append_iff : IsBare (row ++ t) ↔ IsBare row ∧ IsBare t := by
  by_cases h : IsBare row
  · rw [IsBare, margin_append_bare h, List.append_cancel_left_eq]
    exact ⟨fun ht => ⟨h, ht⟩, And.right⟩
  · rw [IsBare, margin_append_of_not_bare h]
    refine ⟨fun heq => absurd ?_ h, fun hboth => absurd hboth.1 h⟩
    have hle := congrArg List.length heq
    have hprefix : (margin row).length ≤ row.length := (List.takeWhile_prefix CodePoint.isIndent).length_le
    rw [List.length_append] at hle
    exact (List.takeWhile_prefix CodePoint.isIndent).eq_of_length (by unfold margin at *; omega)

theorem isBare_margin (row : Text) : IsBare (margin row) :=
  List.takeWhile_eq_self_iff.2 fun _ => List.mem_takeWhile_imp

theorem not_isBare_iff : ¬IsBare row ↔ ∃ c ∈ row, c.isIndent = false := by
  rw [IsBare, margin, List.takeWhile_eq_self_iff]
  simp

/-- A text that begins with something else than indentation. -/
def Visible (t : Text) : Prop := ∃ c ∈ t.head?, c.isIndent = false

theorem Visible.margin_append (h : Visible t) (hbare : IsBare row) : margin (row ++ t) = row := by
  obtain ⟨c, hc, hindent⟩ := h
  obtain ⟨rest, rfl⟩ := List.head?_eq_some_iff.1 hc
  rw [margin_append_bare hbare, margin, List.takeWhile_cons_of_neg (by simp [hindent]), List.append_nil]

theorem Visible.not_isBare (h : Visible t) (row : Text) : ¬IsBare (row ++ t) := by
  obtain ⟨c, hc, hindent⟩ := h
  exact not_isBare_iff.2 ⟨c, List.mem_append_right row (List.mem_of_mem_head? hc), hindent⟩

theorem Alike.refl (row : Text) : Alike row row := ⟨rfl, Iff.rfl⟩

theorem Alike.eq_of_bare (h : Alike row other) (hbare : IsBare row) : row = other := by
  rw [← hbare, h.margin_eq, h.bare_iff.1 hbare]

theorem Alike.append (h : Alike row other) (t : Text) : Alike (row ++ t) (other ++ t) := by
  by_cases hbare : IsBare row
  · rw [h.eq_of_bare hbare]
    exact .refl _
  · have hother : ¬IsBare other := fun hb => hbare (h.bare_iff.2 hb)
    constructor
    · rw [margin_append_of_not_bare hbare, margin_append_of_not_bare hother, h.margin_eq]
    · rw [isBare_append_iff, isBare_append_iff, h.bare_iff]

/-- Rows stay alike where both go on with something that is no indentation. -/
theorem Alike.append_visible (h : Alike row other) (hs : Visible s) (ht : Visible t) : Alike (row ++ s) (other ++ t) := by
  refine ⟨?_, iff_of_false (hs.not_isBare row) (ht.not_isBare other)⟩
  by_cases hbare : IsBare row
  · rw [← h.eq_of_bare hbare, hs.margin_append hbare, ht.margin_append hbare]
  · have hother : ¬IsBare other := fun hb => hbare (h.bare_iff.2 hb)
    rw [margin_append_of_not_bare hbare, margin_append_of_not_bare hother, h.margin_eq]

/-- A row that has something else than indentation may go on with anything. -/
theorem Alike.append_behind (h : Alike row other) (hother : ¬IsBare other) (s t : Text) : Alike (row ++ s) (other ++ t) := by
  have hrow : ¬IsBare row := fun hb => hother (h.bare_iff.1 hb)
  constructor
  · rw [margin_append_of_not_bare hrow, margin_append_of_not_bare hother, h.margin_eq]
  · rw [isBare_append_iff, isBare_append_iff]
    exact iff_of_false (fun hboth => hrow hboth.1) fun hboth => hother hboth.1

/-- A row that hangs at the indentation of another one. -/
theorem alike_leadRow (hs : Visible s) (ht : Visible t) : Alike (leadRow (margin row) s) (row ++ t) := by
  have hne : s.isEmpty = false := by
    obtain ⟨c, hc, -⟩ := hs
    exact List.isEmpty_eq_false_iff.2 (List.ne_nil_of_mem (List.mem_of_mem_head? hc))
  rw [leadRow, if_neg (by rw [hne]; exact Bool.false_ne_true)]
  refine ⟨?_, iff_of_false (hs.not_isBare _) (ht.not_isBare row)⟩
  rw [hs.margin_append (isBare_margin row)]
  by_cases hbare : IsBare row
  · rw [ht.margin_append hbare, hbare]
  · rw [margin_append_of_not_bare hbare]

end

/-! ## All placeholders at once -/

namespace Piece

/-- What the piece stands for. -/
def value (values : List (Text × Layout)) : Piece → Text
  | plain c => [c]
  | dollar => "$"
  | hole name _ => ((values.lookup name).getD default).render

/-- The piece is a placeholder whose value has more rows than one. -/
def Spans (values : List (Text × Layout)) : Piece → Prop
  | hole name isBraced => CodePoint.ofChar '\n' ∈ (hole name isBraced).value values
  | _ => False

/-- What is put for the piece behind `front`, which is text of the template. -/
def filling (values : List (Text × Layout)) (front : Text) : Piece → Text
  | hole name isBraced => hang (margin (lastRow front)) ((hole name isBraced).value values)
  | piece => piece.value values

end Piece

/-- The text of pieces with every placeholder replaced by its value at once, the further
rows of a value at the indentation that the template's line has. -/
def substituted (values : List (Text × Layout)) (front : Text) : List Piece → Text
  | [] => []
  | piece :: pieces => piece.filling values front ++ substituted values (front ++ piece.text) pieces

/-- Before each value of several rows, the line has the indentation of the template's. -/
def Unmoved (values : List (Text × Layout)) (pieces : List Piece) : Prop :=
  ∀ before piece after, pieces = before ++ piece :: after → piece.Spans values →
    margin (lastRow (substituted values [] before)) = margin (lastRow (written before))

/-- The value of a placeholder leaves the indentation of its line: its last row begins with
something else, or it is one row and something else stands before it in the template. -/
def Keeps (values : List (Text × Layout)) (before : List Piece) (piece : Piece) : Prop :=
  Visible (lastRow (piece.value values)) ∨
    CodePoint.ofChar '\n' ∉ piece.value values ∧ ∃ c ∈ lastRow (written before), c.isIndent = false

/-- Each placeholder leaves the indentation of its line if a value of several rows comes
behind it on the line. -/
def LinesKept (values : List (Text × Layout)) (pieces : List Piece) : Prop :=
  ∀ before name isBraced between piece after,
    pieces = before ++ .hole name isBraced :: (between ++ piece :: after) → Piece.plain (CodePoint.ofChar '\n') ∉ between →
      piece.Spans values → Keeps values before (.hole name isBraced)

section
variable {values : List (Text × Layout)} {pieces before after : List Piece} {piece : Piece} {front template : Text}

theorem substituted_append (front : Text) (before after : List Piece) : substituted values front (before ++ after) =
    substituted values front before ++ substituted values (front ++ written before) after := by
  induction before generalizing front with
  | nil => rw [List.nil_append, written_nil, List.append_nil]; rfl
  | cons piece before ih =>
    rw [List.cons_append, substituted, substituted, ih, written_cons, List.append_assoc, List.append_assoc]

theorem substituted_concat (before : List Piece) (piece : Piece) : substituted values [] (before ++ [piece]) =
    substituted values [] before ++ piece.filling values (written before) := by
  rw [substituted_append, substituted, substituted, List.append_nil, List.nil_append]

theorem written_concat (before : List Piece) (piece : Piece) : written (before ++ [piece]) = written before ++ piece.text := by
  rw [written_append, written_cons, written_nil, List.append_nil]

/-- The fold from the left replaces all placeholders at once. -/
theorem renderValues_assembled (before : List Piece) (h : Unmoved values (before ++ pieces)) :
    renderValues (substituted values [] before ++ (assembled values pieces ([], [])).1) (assembled values pieces ([], [])).2 =
      substituted values [] (before ++ pieces) := by
  induction pieces generalizing before with
  | nil =>
    rw [List.append_nil]
    exact List.append_nil _
  | cons piece pieces ih =>
    have hnext := ih (before ++ [piece]) (by rwa [List.append_assoc])
    rw [List.append_assoc, List.cons_append, List.nil_append, substituted_concat] at hnext
    rw [← hnext]
    cases piece with
    | plain c => rw [List.append_assoc]; rfl
    | dollar => rw [List.append_assoc]; rfl
    | hole name isBraced =>
      have hplace : place (substituted values [] before) ((Piece.hole name isBraced).value values) =
          substituted values [] before ++ (Piece.hole name isBraced).filling values (written before) := by
        by_cases hspans : (Piece.hole name isBraced).Spans values
        · rw [place, h before _ pieces rfl hspans]
          rfl
        · rw [place, hang_of_line _ hspans, Piece.filling, hang_of_line _ hspans]
      rw [← hplace]
      show renderValues (substituted values [] before ++ []) _ = _
      rw [List.append_nil]
      rfl

theorem line_name {name : Text} (h : IsValueName name) : CodePoint.ofChar '\n' ∉ name := by
  obtain ⟨c, rest, rfl, hc, hrest⟩ := h
  rw [List.mem_cons, not_or]
  constructor
  · rintro rfl
    exact absurd hc (by decide)
  · intro hmem
    exact absurd (hrest _ hmem) (by decide)

theorem line_text_hole {name : Text} {isBraced : Bool} (h : IsValueName name) :
    CodePoint.ofChar '\n' ∉ (Piece.hole name isBraced).text := by
  have hname := line_name h
  cases isBraced with
  | true =>
    have hopen : CodePoint.ofChar '\n' ∉ Text.ofString "$\x7b" := by decide
    have hclose : CodePoint.ofChar '\n' ∉ Text.ofString "\x7d" := by decide
    simp only [Piece.text, List.mem_append, not_or]
    exact ⟨⟨hopen, hname⟩, hclose⟩
  | false =>
    have hopen : CodePoint.ofChar '\n' ∉ Text.ofString "$" := by decide
    simp only [Piece.text, List.mem_append, not_or]
    exact ⟨hopen, hname⟩

theorem line_margin (row : Text) : CodePoint.ofChar '\n' ∉ margin row := fun hmem =>
  absurd (List.mem_takeWhile_imp hmem) (by decide)

theorem Scanned.isValueName {left name : Text} {isBraced : Bool} (h : Scanned left pieces template)
    (hmem : .hole name isBraced ∈ pieces) : IsValueName name := by
  obtain ⟨before, after, rfl⟩ := List.mem_iff_append.1 hmem
  obtain ⟨behind, -, hfits, -⟩ := h.split
  exact hfits.1

/-- A placeholder that keeps its line leaves alike rows alike. -/
theorem Keeps.alike {name : Text} {isBraced : Bool} (h : Keeps values before (.hole name isBraced)) (hname : IsValueName name)
    (halike : Alike (lastRow (substituted values [] before)) (lastRow (written before))) :
    Alike (lastRow (substituted values [] (before ++ [.hole name isBraced])))
      (lastRow (written (before ++ [.hole name isBraced]))) := by
  have htext : Visible (Piece.hole name isBraced).text := by
    obtain ⟨rest, htext⟩ := exists_text_hole name isBraced
    exact ⟨_, by rw [htext]; rfl, by decide⟩
  rw [substituted_concat, written_concat, lastRow_append_of_line (written before) (line_text_hole hname), Piece.filling]
  by_cases hspans : CodePoint.ofChar '\n' ∈ (Piece.hole name isBraced).value values
  · rcases h with hvisible | ⟨hline, -⟩
    · obtain ⟨hmem, hlast⟩ := lastRow_hang (line_margin (lastRow (written before))) hspans
      rw [lastRow_append_of_mem _ hmem, hlast]
      exact alike_leadRow hvisible htext
    · exact absurd hspans hline
  · rw [hang_of_line _ hspans, lastRow_append_of_line _ hspans]
    rcases h with hvisible | ⟨-, hseen⟩
    · rw [lastRow_of_line hspans] at hvisible
      exact halike.append_visible hvisible htext
    · exact halike.append_behind (not_isBare_iff.2 hseen) _ _

/-- Up to a value of several rows, the line is indented as the template's line is. -/
theorem alike_of_linesKept (hscanned : Scanned [] pieces template) (h : LinesKept values pieces) (before : List Piece) :
    ∀ between piece after, pieces = before ++ (between ++ piece :: after) → Piece.plain (CodePoint.ofChar '\n') ∉ between →
      piece.Spans values → Alike (lastRow (substituted values [] before)) (lastRow (written before)) := by
  -- by induction on the pieces before, from the last: only what stands on its line matters
  induction before using List.reverseRecOn with
  | nil => exact fun _ _ _ _ _ _ => .refl _
  | append_singleton before last ih =>
    intro between piece after heq hline hspans
    rw [List.append_assoc, List.cons_append, List.nil_append] at heq
    have hbefore (hlast : last ≠ .plain (CodePoint.ofChar '\n')) :
        Alike (lastRow (substituted values [] before)) (lastRow (written before)) := by
      refine ih (last :: between) piece after heq ?_ hspans
      rw [List.mem_cons, not_or]
      exact ⟨Ne.symm hlast, hline⟩
    cases last with
    | plain c =>
      rw [substituted_concat, written_concat]
      by_cases hc : c = '\n'
      · subst hc
        show Alike (lastRow (_ ++ [_])) (lastRow (_ ++ [_]))
        rw [lastRow_newline, lastRow_newline]
        exact .refl _
      · have hc' : CodePoint.ofChar '\n' ∉ [c] := by simpa using Ne.symm hc
        show Alike (lastRow (_ ++ [c])) (lastRow (_ ++ [c]))
        rw [lastRow_append_of_line _ hc', lastRow_append_of_line _ hc']
        exact (hbefore fun heq => hc (Piece.plain.inj heq)).append [c]
    | dollar =>
      rw [substituted_concat, written_concat]
      show Alike (lastRow (_ ++ Text.ofString "$")) (lastRow (_ ++ Text.ofString "$$"))
      rw [lastRow_append_of_line _ (by decide), lastRow_append_of_line _ (by decide)]
      exact (hbefore nofun).append_visible ⟨_, rfl, by decide⟩ ⟨_, rfl, by decide⟩
    | hole name isBraced =>
      have hmem : .hole name isBraced ∈ pieces := by
        rw [heq]
        exact List.mem_append_right before List.mem_cons_self
      have hkeeps := h before name isBraced between piece after heq hline hspans
      exact hkeeps.alike (hscanned.isValueName hmem) (hbefore nofun)

end

/-- A template is rendered as if all placeholders were replaced at once, the further rows of
each value at the indentation of its line in the template, as long as the values before it
on the line leave that indentation as it is. They do if nothing in their last rows is taken
for it. -/
theorem hung_by_template_line (values : List (Text × Layout)) (template : Text) (pieces : List Piece)
    (hscanned : Scanned [] pieces template) (hknown : ∀ piece ∈ pieces, piece.Known values) :
    (LinesKept values pieces → Unmoved values pieces) ∧
    (Unmoved values pieces → ∃ layout, ofTemplate template values = .ok layout ∧
      layout.render = Text.dedent (substituted values [] pieces)) := by
  constructor
  · intro hkept before piece after heq hspans
    exact (alike_of_linesKept hscanned hkept before [] piece after heq List.not_mem_nil hspans).margin_eq
  · intro hunmoved
    refine ⟨_, ofTemplate_of_scanned hscanned hknown, ?_⟩
    rw [ofPieces, render]
    exact congrArg Text.dedent (renderValues_assembled [] hunmoved)

/-- Two values of several rows on one line, each of which ends at the line's indentation. -/
theorem hung_by_template_line_bracket :
    ∃ layout, ofTemplate "  $a $b" [("a", .text "f(\n)"), ("b", .text "[\n  z\n]")] = .ok layout ∧
      layout.render = "f(\n) [\n  z\n]" := by
  let values : List (Text × Layout) := [("a", .text "f(\n)"), ("b", .text "[\n  z\n]")]
  let pieces : List Piece :=
    [.plain (CodePoint.ofChar ' '), .plain (CodePoint.ofChar ' '), .hole "a" false, .plain (CodePoint.ofChar ' '), .hole "b" false]
  have hnamed {name behind : Text} (hname : IsValueName name) (hstop : ∀ c ∈ behind.head?, continuesName c = false) :
      (Piece.hole name false).Fits behind := ⟨hname, fun _ => hstop⟩
  have ha : IsValueName "a" := ⟨'a', [], rfl, by decide, nofun⟩
  have hb : IsValueName "b" := ⟨'b', [], rfl, by decide, nofun⟩
  have hscanned : Scanned [] pieces "  $a $b" :=
    .cons (by decide : ¬CodePoint.ofChar ' ' = '$') (.cons (by decide : ¬CodePoint.ofChar ' ' = '$')
      (.cons (hnamed ha (by decide)) (.cons (by decide : ¬CodePoint.ofChar ' ' = '$') (.cons (hnamed hb nofun) .nil))))
  have hknown : ∀ piece ∈ pieces, piece.Known values := by
    simp only [pieces, List.forall_mem_cons]
    exact ⟨trivial, trivial, rfl, trivial, rfl, nofun⟩
  have hkept : LinesKept values pieces := by
    intro before name isBraced between piece after heq _ _
    have hmem : .hole name isBraced ∈ pieces := heq ▸ List.mem_append_right before List.mem_cons_self
    simp only [pieces, List.mem_cons, List.not_mem_nil, or_false, reduceCtorEq, false_or, Piece.hole.injEq] at hmem
    rcases hmem with ⟨rfl, rfl⟩ | ⟨rfl, rfl⟩
    · exact .inl ⟨_, rfl, by decide⟩
    · exact .inl ⟨_, rfl, by decide⟩
  have hall := hung_by_template_line values "  $a $b" pieces hscanned hknown
  obtain ⟨layout, hlayout, hrender⟩ := hall.2 (hall.1 hkept)
  exact ⟨layout, hlayout, hrender.trans (by decide)⟩

/-- The second value is hung at the spaces that the first one ends with, although the line of
the template has no indentation. -/
theorem hung_by_value_before :
    ∃ (values : List (Text × Layout)) (template : Text) (pieces : List Piece) (layout : Layout),
      Scanned [] pieces template ∧ (∀ piece ∈ pieces, piece.Known values) ∧ ofTemplate template values = .ok layout ∧
      layout.render ≠ Text.dedent (substituted values [] pieces) := by
  have ha : (Piece.hole "a" false).Fits " $b" := ⟨⟨'a', [], rfl, by decide, nofun⟩, by decide⟩
  have hb : (Piece.hole "b" false).Fits [] := ⟨⟨'b', [], rfl, by decide, nofun⟩, by decide⟩
  refine ⟨[("a", .text "(\n  x"), ("b", .text "p\nq")], "$a $b", [.hole "a" false, .plain (CodePoint.ofChar ' '), .hole "b" false],
    _, .cons ha (.cons (by decide : ¬CodePoint.ofChar ' ' = '$') (.cons hb .nil)), ?_, rfl, by decide⟩
  simp only [List.forall_mem_cons]
  exact ⟨rfl, trivial, rfl, nofun⟩

end Layout

end WireSchema
