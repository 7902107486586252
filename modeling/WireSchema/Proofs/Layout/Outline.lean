import WireSchema.Proofs.Layout.Rows
/-!
# Outlines

An outline is a text with blocks, as a plain pretty-printer has it: each row knows how
many blocks it stands in, and is printed behind two spaces for each of them. A layout
that is made like an outline is rendered as its rows are printed, although it hangs the
inside of a block behind the row it starts on and takes the shared indentation off the
whole. What is shared is the indentation of the braces' own template: taken off, the rows
with the braces have none.
-/

namespace WireSchema

/-! ## Blocks -/

namespace Layout

open Text

variable {parts : List Layout}

/-- The row behind two spaces, or nothing if it is blank. -/
def inset (row : Text) : Text := if isBlank row then [] else Text.ofString "  " ++ row

/-- The rows of a field between braces. -/
def fieldRows (field : Text) : List Text := (rows (field ++ Text.ofString ";")).map inset

theorem unlessBlank_spaces (row : Text) : unlessBlank (Text.ofString "  " ++ row) = inset row := by
  have hblank : isBlank (Text.ofString "  " ++ row) = isBlank row := by
    rw [isBlank, List.all_append]
    rfl
  rw [unlessBlank, inset, hblank]

theorem unlessBlank_leadRow (row : Text) : unlessBlank (leadRow "  " row) = inset row := by
  cases row with
  | nil => rfl
  | cons c row => exact unlessBlank_spaces (c :: row)

theorem rows_statements (hne : parts ≠ []) :
    rows (statements parts).render = parts.flatMap fun part => rows (part.render ++ Text.ofString ";") := by
  have hne' : (parts.map render).map (· ++ Text.ofString ";") ≠ [] := by simpa using hne
  rw [statements, render, renderAll_eq_map]
  show rows (unrows _) = _
  rw [rows_unrows hne', List.flatMap_map, List.flatMap_map]

theorem lastRow_of_line {t : Text} (h : CodePoint.ofChar '\n' ∉ t) : lastRow t = t := by
  show (firstRow t.reverse).reverse = t
  rw [firstRow_of_line fun hmem => h (List.mem_reverse.1 hmem), List.reverse_reverse]

/-- Behind a row without indentation nothing hangs. -/
theorem place_of_line {out : Text} (h : CodePoint.ofChar '\n' ∉ out) (hmargin : margin out = []) (value : Text) :
    place out value = out ++ value := by
  rw [place, lastRow_of_line h, hmargin, hang_nil]

/-- Fields between braces stand on rows of their own, two spaces to the right: the row
of the first brace has no indentation, so none is taken off. -/
theorem rows_block (hne : parts ≠ []) :
    rows (braced (statements parts)).render =
      ("\x7b" : Text) :: (parts.flatMap fun part => fieldRows part.render) ++ [("\x7d" : Text)] := by
  obtain ⟨first, others, hrows⟩ := exists_rows (statements parts).render
  have hmargin : margin (lastRow "\x7b\n  ") = "  " := by decide
  have hhang : rows (Text.ofString "  " ++ hang "  " (statements parts).render) =
      (Text.ofString "  " ++ first) :: others.map (leadRow "  ") := by
    rw [rows_append, rows_hang (by decide) hrows]
    rfl
  have hplaced : rows (place "\x7b\n  " (statements parts).render ++ "\n\x7d") =
      ("\x7b" : Text) :: ((Text.ofString "  " ++ first) :: others.map (leadRow "  ")) ++ [("\x7d" : Text)] := by
    have hclose := rows_newline_append (Text.ofString "  " ++ hang "  " (statements parts).render) "\x7d"
    have hopen := rows_newline_append "\x7b"
      ((Text.ofString "  " ++ hang "  " (statements parts).render) ++ CodePoint.ofChar '\n' :: Text.ofString "\x7d")
    rw [hclose, hhang] at hopen
    rw [place, hmargin, List.append_assoc]
    exact hopen
  have hinset : (parts.flatMap fun part => fieldRows part.render) = (first :: others).map inset := by
    rw [← hrows, rows_statements hne, List.map_flatMap]
    rfl
  rw [render_braced, render, renderValues, renderValues, rows_dedent, hplaced, hinset]
  · simp only [List.map_append, List.map_cons, List.map_map, Function.comp_def, unlessBlank_spaces,
      unlessBlank_leadRow, List.map_nil]
    rfl
  · rw [hplaced]
    rintro row ⟨⟩
    exact ⟨by decide, by decide⟩
  · rw [hplaced, List.getLast?_concat]
    rintro row ⟨⟩
    decide

end Layout

/-! ## Rows in blocks -/

/-- A row and how many blocks it stands in. -/
structure Row where
  depth : Nat
  text : Text
deriving DecidableEq

namespace Row

instance : Append Row := ⟨fun row next => { row with text := row.text ++ next.text }⟩

/-- The row behind two spaces for each block. -/
def print (row : Row) : Text := Text.leadRow (Text.times "  " row.depth) row.text

/-- A row outside of blocks. -/
def flush (text : Text) : Row := ⟨0, text⟩

/-- The row without its text if that is blank. -/
def tidy (row : Row) : Row := { row with text := Text.unlessBlank row.text }

/-- The row in one more block, where blank rows are empty. -/
def deeper (row : Row) : Row := ⟨row.depth + 1, Text.unlessBlank row.text⟩

theorem print_of_flush {row : Row} (h : row.depth = 0) : row.print = row.text := by
  rw [print, h, Text.leadRow]
  split
  · rfl
  · rfl

theorem isBlank_times (n : Nat) : Text.isBlank (Text.times "  " n) = true := by
  induction n with
  | zero => rfl
  | succ n ih =>
    rw [Text.times, Text.isBlank, List.all_append, ← Text.isBlank, ← Text.isBlank, ih]
    rfl

theorem isBlank_print (row : Row) : Text.isBlank row.print = Text.isBlank row.text := by
  rw [print, Text.leadRow]
  split
  · rfl
  · rw [Text.isBlank, List.all_append, ← Text.isBlank, ← Text.isBlank, isBlank_times, Bool.true_and]

theorem print_tidy (row : Row) : row.tidy.print = Text.unlessBlank row.print := by
  rw [Text.unlessBlank, isBlank_print, tidy, print, Text.unlessBlank]
  split
  · rfl
  · rfl

theorem print_deeper (row : Row) : row.deeper.print = Layout.inset row.print := by
  rw [Layout.inset, isBlank_print, print, deeper, Text.unlessBlank]
  cases hblank : Text.isBlank row.text with
  | true => rfl
  | false =>
    have hne : row.text.isEmpty = false := by
      cases htext : row.text with
      | nil => rw [htext] at hblank; cases hblank
      | cons => rfl
    simp only [Bool.false_eq_true, if_false, print, Text.leadRow, hne]
    rw [Text.times, List.append_assoc]

end Row

namespace Outline

open Text

/-- The rows of a text outside of blocks. -/
def flushRows (t : Text) : List Row := (rows t).map Row.flush

/-- The rows begin and end outside of blocks. -/
structure Level (parts : List Row) : Prop where
  first : ∃ row ∈ parts.head?, row.depth = 0
  last : ∃ row ∈ parts.getLast?, row.depth = 0

variable {parts next : List Row}

theorem level_flushRows (t : Text) : Level (flushRows t) := by
  obtain ⟨first, others, hrows⟩ := exists_rows t
  rw [flushRows, hrows]
  refine ⟨⟨Row.flush first, rfl, rfl⟩, ?_⟩
  rw [List.getLast?_map, List.getLast?_cons]
  exact ⟨_, rfl, rfl⟩

theorem map_print_flushRows (t : Text) : (flushRows t).map Row.print = rows t := by
  rw [flushRows, List.map_map]
  exact (List.map_congr_left fun row _ => Row.print_of_flush rfl).trans (List.map_id _)

theorem Level.continued (h : Level parts) (hnext : Level next) : Level (continued parts next) where
  first := by
    obtain ⟨row, hrow, hdepth⟩ := h.first
    match parts, next, hrow with
    | [_], [], rfl => exact ⟨row, rfl, hdepth⟩
    | [_], other :: _, rfl => exact ⟨row ++ other, rfl, hdepth⟩
    | _ :: _ :: _, _, rfl => exact ⟨row, rfl, hdepth⟩
  last := by
    have hclose := h.last
    clear h
    induction parts with
    | nil => exact hnext.last
    | cons row rest ih =>
      cases rest with
      | nil =>
        obtain ⟨_, hmem, hdepth⟩ := hclose
        cases hmem
        match next, hnext.last with
        | [], ⟨_, hmem, _⟩ => cases hmem
        | [other], _ => exact ⟨row ++ other, rfl, hdepth⟩
        | _ :: _ :: _, hlast => exact hlast
      | cons second rest =>
        obtain ⟨last, hlast, hdepth⟩ := ih hclose
        refine ⟨last, ?_, hdepth⟩
        rw [Text.continued, List.getLast?_cons, hlast]
        rfl

/-- Rows that go on are printed one behind the other, as both stand outside of blocks. -/
theorem map_print_continued (h : Level parts) (hnext : Level next) :
    (continued parts next).map Row.print = continued (parts.map Row.print) (next.map Row.print) := by
  have hclose := h.last
  clear h
  induction parts with
  | nil => rfl
  | cons row rest ih =>
    cases rest with
    | nil =>
      obtain ⟨_, hmem, hrow⟩ := hclose
      cases hmem
      match next, hnext.first with
      | [], ⟨_, hmem, _⟩ => cases hmem
      | other :: others, ⟨_, rfl, hother⟩ =>
        have hrow : row.depth = 0 := hrow
        have hprint : (row ++ other).print = row.print ++ other.print := by
          rw [Row.print_of_flush hrow, Row.print_of_flush hother]
          exact Row.print_of_flush hrow
        rw [Text.continued, List.map_cons, List.map_cons, hprint]
        rfl
    | cons second rest =>
      rw [Text.continued, List.map_cons, ih hclose]
      rfl

/-- Rows put together with a separator between them. -/
def joinRows (separator : Text) : List (List Row) → List Row
  | [] => flushRows []
  | [part] => part
  | part :: other :: rest => continued part (continued (flushRows separator) (joinRows separator (other :: rest)))

/-- The rows of fields between braces. -/
def blockRows (fields : List (List Row)) : List Row :=
  .flush "\x7b" :: (fields.flatMap fun field => (continued field (flushRows ";")).map Row.deeper) ++ [.flush "\x7d"]

theorem level_joinRows (separator : Text) {lists : List (List Row)} (h : ∀ parts ∈ lists, Level parts) :
    Level (joinRows separator lists) := by
  match lists with
  | [] => exact level_flushRows []
  | [part] => exact h part List.mem_cons_self
  | part :: other :: rest =>
    have hrest := level_joinRows separator fun parts hparts => h parts (List.mem_cons_of_mem part hparts)
    exact (h part List.mem_cons_self).continued ((level_flushRows separator).continued hrest)

theorem level_blockRows (fields : List (List Row)) : Level (blockRows fields) where
  first := ⟨.flush "\x7b", rfl, rfl⟩
  last := by
    rw [blockRows, List.getLast?_concat]
    exact ⟨_, rfl, rfl⟩

/-- Joined texts have joined rows. -/
theorem rows_join {α : Type} {texts : α → Text} {lists : α → List Row} (separator : Text) {parts : List α}
    (h : ∀ part ∈ parts, rows (texts part) = (lists part).map Row.print) (hlevel : ∀ part ∈ parts, Level (lists part)) :
    rows (join separator (parts.map texts)) = (joinRows separator (parts.map lists)).map Row.print := by
  match parts with
  | [] => rfl
  | [part] => exact h part List.mem_cons_self
  | part :: other :: rest =>
    have hlevel' : ∀ part ∈ other :: rest, Level (lists part) := fun u hu => hlevel u (List.mem_cons_of_mem part hu)
    have hrest := rows_join separator (fun u hu => h u (List.mem_cons_of_mem part hu)) hlevel'
    have hjoined := level_joinRows separator (List.forall_mem_map.2 hlevel')
    have hfirst := hlevel part List.mem_cons_self
    rw [List.map_cons, List.map_cons] at hrest
    rw [List.map_cons] at hjoined
    rw [List.map_cons, List.map_cons, List.map_cons, List.map_cons, join, joinRows, List.append_assoc, rows_append,
      rows_append, hrest, h part List.mem_cons_self,
      map_print_continued hfirst ((level_flushRows separator).continued hjoined),
      map_print_continued (level_flushRows separator) hjoined, map_print_flushRows]

/-- Fields have their rows between braces, one block deeper. -/
theorem rows_fields {α : Type} {layouts : α → Layout} {lists : α → List Row} {fields : List α} (hne : fields ≠ [])
    (h : ∀ field ∈ fields, rows (layouts field).render = (lists field).map Row.print)
    (hlevel : ∀ field ∈ fields, Level (lists field)) :
    rows (Layout.braced (.statements (fields.map layouts))).render =
      (blockRows (fields.map lists)).map Row.print := by
  have hfield (field : α) (hmem : field ∈ fields) : Layout.fieldRows (layouts field).render =
      ((continued (lists field) (flushRows ";")).map Row.deeper).map Row.print := by
    rw [Layout.fieldRows, rows_append, h field hmem, ← map_print_flushRows ";",
      ← map_print_continued (hlevel field hmem) (level_flushRows ";"), List.map_map, List.map_map]
    exact List.map_congr_left fun row _ => (Row.print_deeper row).symm
  rw [Layout.rows_block (by simpa using hne), blockRows, List.map_append, List.map_cons, List.map_flatMap,
    List.flatMap_map, List.flatMap_map, List.flatMap_def, List.map_congr_left hfield, ← List.flatMap_def]
  rfl

end Outline

/-! ## Outlines -/

/-- A text with blocks. -/
inductive Outline where
  | text (t : Text)
  | joined (separator : Text) (parts : List Outline)
  /-- The literal of a documentation. -/
  | doc (literal : Text)
  /-- Fields between braces, one at least. -/
  | block (first : Outline) (others : List Outline)

namespace Outline

open Text

mutual

/-- The layout that is made like the outline. -/
def layout : Outline → Layout
  | text t => .text t
  | joined separator parts => .join separator (layoutAll parts)
  | doc literal => .template "@doc(" [(.text literal, ")")]
  | block first others => .braced (.statements (layout first :: layoutAll others))

/-- The layouts that are made like several outlines. -/
def layoutAll : List Outline → List Layout
  | [] => []
  | part :: rest => layout part :: layoutAll rest

end

mutual

/-- The rows of a plain pretty-printer. -/
def rows : Outline → List Row
  | text t => flushRows t
  | joined separator parts => joinRows separator (rowsAll parts)
  | doc literal => (flushRows ("@doc(" ++ literal ++ ")")).map Row.tidy
  | block first others => blockRows (rows first :: rowsAll others)

/-- The rows of several outlines. -/
def rowsAll : List Outline → List (List Row)
  | [] => []
  | part :: rest => rows part :: rowsAll rest

end

@[simp] theorem layoutAll_eq_map (parts : List Outline) : layoutAll parts = parts.map layout := by
  induction parts with
  | nil => rfl
  | cons part rest ih => rw [layoutAll, ih, List.map_cons]

@[simp] theorem rowsAll_eq_map (parts : List Outline) : rowsAll parts = parts.map rows := by
  induction parts with
  | nil => rfl
  | cons part rest ih => rw [rowsAll, ih, List.map_cons]

theorem map_print_tidy (parts : List Row) :
    (parts.map Row.tidy).map Row.print = (parts.map Row.print).map unlessBlank := by
  rw [List.map_map, List.map_map]
  exact List.map_congr_left fun row _ => Row.print_tidy row

theorem Level.tidy {parts : List Row} (h : Level parts) : Level (parts.map Row.tidy) := by
  obtain ⟨⟨row, hrow, hdepth⟩, row', hrow', hdepth'⟩ := h
  refine ⟨⟨row.tidy, ?_, hdepth⟩, row'.tidy, ?_, hdepth'⟩
  · rw [List.head?_map, hrow]
    rfl
  · rw [List.getLast?_map, hrow']
    rfl

theorem level_rows (o : Outline) : Level o.rows := by
  match o with
  | text t => exact level_flushRows t
  | joined separator parts =>
    rw [rows, rowsAll_eq_map]
    exact level_joinRows separator (List.forall_mem_map.2 fun part _ => level_rows part)
  | doc literal => exact (level_flushRows _).tidy
  | block first others => exact level_blockRows _

/-- A layout is rendered as the rows of its outline are printed. -/
theorem rows_render (o : Outline) : Text.rows o.layout.render = o.rows.map Row.print := by
  match o with
  | text t => exact (map_print_flushRows t).symm
  | joined separator parts =>
    rw [layout, rows, layoutAll_eq_map, rowsAll_eq_map, Layout.join, Layout.render, Layout.renderAll_eq_map, List.map_map]
    exact rows_join separator (fun part _ => rows_render part) fun part _ => level_rows part
  | doc literal =>
    have hrows : Text.rows (dedent ("@doc(" ++ literal ++ ")")) = (Text.rows ("@doc(" ++ literal ++ ")")).map unlessBlank :=
      rows_dedent_between (by decide) (by decide) (by decide) (by decide) (by decide) literal
    rw [layout, rows, Layout.render, Layout.renderValues, Layout.renderValues, Layout.render,
      Layout.place_of_line (by decide) (by decide), hrows, ← map_print_flushRows, map_print_tidy]
  | block first others =>
    rw [layout, rows, layoutAll_eq_map, rowsAll_eq_map, ← List.map_cons, ← List.map_cons]
    exact rows_fields (List.cons_ne_nil _ _) (fun field _ => rows_render field) fun field _ => level_rows field

/-- The rows of a statement: the one it begins with, going on as those of what it states
and a semicolon. Blank rows are empty. -/
def statementRows (opening : Text) (o : Outline) : List Row :=
  (continued (flushRows opening) (continued o.rows (flushRows ";"))).map Row.tidy

/-- A statement that begins on one row is rendered as its rows are printed. -/
theorem rows_statement {start head between : Text} (hstart : CodePoint.ofChar '\n' ∉ start)
    (hblank : isBlank start = false) (hmargin : margin start = []) (hhead : CodePoint.ofChar '\n' ∉ head)
    (hbetween : CodePoint.ofChar '\n' ∉ between) (o : Outline) :
    Text.rows (Layout.template start [(.text head, between), (o.layout, ";")]).render =
      (statementRows (start ++ head ++ between) o).map Row.print := by
  have hline : CodePoint.ofChar '\n' ∉ start ++ head ++ between := by
    simp only [List.mem_append, not_or]
    exact ⟨⟨hstart, hhead⟩, hbetween⟩
  have hseen : isBlank (start ++ head ++ between) = false := isBlank_append_left (isBlank_append_left hblank _) _
  have hflush : margin (start ++ head ++ between) = [] :=
    margin_append (isBlank_append_left hblank _) (margin_append hblank hmargin _) _
  have hrows := rows_dedent_between hline hseen hflush (by decide : CodePoint.ofChar '\n' ∉ Text.ofString ";")
    (by decide) o.layout.render
  have hlevel := level_rows o
  rw [Layout.render, Layout.renderValues, Layout.renderValues, Layout.renderValues, Layout.render,
    Layout.place_of_line hstart hmargin, Layout.place_of_line hline hflush, hrows, statementRows, map_print_tidy,
    List.append_assoc _ _ (Text.ofString ";"),
    rows_append (start ++ head ++ between), rows_append o.layout.render, rows_render, ← map_print_flushRows,
    ← map_print_flushRows ";",
    map_print_continued (level_flushRows _) (hlevel.continued (level_flushRows _)),
    map_print_continued hlevel (level_flushRows _)]

end Outline

end WireSchema
