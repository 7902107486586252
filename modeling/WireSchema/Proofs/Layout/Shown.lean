import WireSchema.Proofs.Grammar.Printed
import WireSchema.Proofs.Layout.Blank
import WireSchema.Proofs.Layout.Rows
import WireSchema.Proofs.Lexing.Tokens
/-!
# Texts that spell types wherever they hang

A layout puts a text of several rows at an indentation, which adds white space
behind its line feeds. `Shown e t` says that `t` spells the type `e` whatever
white space is added there.
-/

namespace WireSchema

open TypeGrammar Text Source

namespace Text

variable {s t lead : Text}

theorem Spaces.isGap (h : Spaces lead) : IsGap (CodePoint.ofChar '\n' :: lead) := by
  intro c hc
  rcases List.mem_cons.1 hc with rfl | hc
  · decide
  · rw [h c hc]
    decide

theorem line_of_isName (h : isName t = true) : CodePoint.ofChar '\n' ∉ t := by
  intro hc
  cases t with
  | nil => cases hc
  | cons c t =>
    simp only [isName, Bool.and_eq_true, List.all_eq_true] at h
    rcases List.mem_cons.1 hc with rfl | hc
    · exact absurd h.1.1.1 (by decide)
    · exact absurd (h.2 _ hc) (by decide)

theorem isBlank_of_isName (h : isName t = true) : isBlank t = false := by
  cases t with
  | nil => cases h
  | cons c t =>
    simp only [isName, Bool.and_eq_true, Bool.not_eq_true'] at h
    rw [isBlank, List.all_cons, h.1.1.2, Bool.false_and]

/-- Names with dots between them stand on one line. -/
theorem line_of_names {names : List Text} (h : ∀ v ∈ names, isName v = true) :
    CodePoint.ofChar '\n' ∉ names.flatMap (Text.ofString "." ++ ·) := by
  intro hc
  obtain ⟨v, hv, hc⟩ := List.mem_flatMap.1 hc
  rcases List.mem_append.1 hc with hc | hc
  · exact absurd hc (by decide)
  · exact line_of_isName (h v hv) hc

end Text

namespace TypeExpr

/-- The text spells the type, also with spaces put behind its line feeds. -/
structure Shown (e : TypeExpr) (t : Text) : Prop where
  solid : Solid t
  printed : ∀ lead, Spaces lead → Printed e.tier e (hangAll lead t)

section
variable {e : TypeExpr} {t : Text}

theorem shown_line (hline : CodePoint.ofChar '\n' ∉ t) (hblank : Text.isBlank t = false)
    (h : Printed e.tier e t) : Shown e t := by
  refine ⟨solid_of_line hline hblank, fun lead _ => ?_⟩
  rwa [hangAll_of_line hline]

theorem shown_keyword {name : Text} (hk : name ∈ keywords) : Shown (.keyword name) name := by
  have hname : ∀ k ∈ keywords, Text.isName k = true := by decide
  exact shown_line (line_of_isName (hname name hk)) (isBlank_of_isName (hname name hk)) (printed_keyword hk)

theorem shown_literal (h : LiteralText t) : Shown (.literal t) t := by
  refine shown_line ?_ ?_ (printed_literal h)
  · cases h with
    | string value =>
      have hquotes := (quoteInside_quotes value).line
      have hmark : CodePoint.ofChar '\n' ∉ Text.ofString "\"" := by decide
      simp only [quote, List.mem_append, not_or]
      exact ⟨⟨hmark, hquotes⟩, hmark⟩
    | number hraw => exact line_of_isNumeral hraw
    | negative gap hraw =>
      have hgap : CodePoint.ofChar '\n' ∉ gapText gap := by cases gap <;> decide
      have hmark : CodePoint.ofChar '\n' ∉ Text.ofString "-" := by decide
      simp only [List.mem_append, not_or]
      exact ⟨hmark, hgap, line_of_isNumeral hraw⟩
    | boolean hb => rcases hb with rfl | rfl <;> decide
  · cases h with
    | string value => exact isBlank_append_left (isBlank_append_left (by decide) _) _
    | number hraw =>
      cases t with
      | nil => cases hraw
      | cons c rest =>
        simp only [isNumeral, Bool.and_eq_true, Bool.not_eq_true'] at hraw
        rw [isBlank, List.all_cons, hraw.1.1, Bool.false_and]
    | negative gap hraw => exact isBlank_append_left (by decide) _
    | boolean hb => rcases hb with rfl | rfl <;> decide

theorem line_of_dotted {names : List Text} (h : DottedText names t) : CodePoint.ofChar '\n' ∉ t := by
  induction h with
  | nil => exact List.not_mem_nil
  | cons before behind hw _ ih =>
    have hgap : ∀ gap, CodePoint.ofChar '\n' ∉ gapText gap := by decide
    have hdot : CodePoint.ofChar '\n' ∉ Text.ofString "." := by decide
    simp only [List.mem_append, not_or]
    exact ⟨⟨hgap before, hdot⟩, ⟨hgap behind, line_of_isName hw⟩, ih⟩

theorem shown_reference {name : Text} (h : ReferenceText name t) (hreserved : name ∉ reservedWords)
    (x : Text) : Shown (.reference name [] x) t := by
  refine shown_line ?_ ?_ (printed_reference h hreserved x)
  · cases h with
    | name hw _ hdotted =>
      rw [List.mem_append, not_or]
      exact ⟨line_of_isName hw, line_of_dotted hdotted⟩
    | brackets gap hw _ hdotted =>
      have hgap : CodePoint.ofChar '\n' ∉ gapText gap := by cases gap <;> decide
      have hopen : CodePoint.ofChar '\n' ∉ Text.ofString "<" := by decide
      have hclose : CodePoint.ofChar '\n' ∉ Text.ofString ">" := by decide
      simp only [List.mem_append, not_or]
      exact ⟨⟨line_of_isName hw, line_of_dotted hdotted⟩, hopen, hgap, hclose⟩
  · cases h with
    | name hw _ _ => exact isBlank_append_left (isBlank_of_isName hw) _
    | brackets gap hw _ _ => exact isBlank_append_left (isBlank_append_left (isBlank_of_isName hw) _) _

theorem isName_of_dottedText {names : List Text} (h : DottedText names t) :
    ∀ v ∈ names, Text.isName v = true := by
  induction h with
  | nil => simp
  | cons _ _ hw _ ih => exact List.forall_mem_cons.2 ⟨hw, ih⟩

/-- A name is a way to write the reference to it. -/
theorem referenceText_name {name : Text} (h : ReferenceText name t) : ReferenceText name name := by
  cases h with
  | name hw hlead hdotted =>
    have := ReferenceText.name hw hlead (dottedText_flatMap (isName_of_dottedText hdotted))
    rwa [← join_cons] at this
  | brackets _ hw hlead hdotted =>
    have := ReferenceText.name hw hlead (dottedText_flatMap (isName_of_dottedText hdotted))
    rwa [← join_cons] at this

theorem shown_empty (x : Text) : Shown (.object [] x) "\x7b\x7d" := by
  refine shown_line (by decide) (by decide) ?_
  have := @printed_object [] (·.name) _ (by simp) isGap_space
    (fun rest => breaks_mark (by decide) rest) _ isGap_nil (fun rest => breaks_mark (by decide) rest) x
  exact this

theorem Shown.array (h : Shown e t) (x : Text) :
    Shown (.array e x) (parenthesize e.isChained t ++ "[]") := by
  have hbrackets : CodePoint.ofChar '\n' ∉ Text.ofString "[]" := by decide
  refine ⟨?_, fun lead hlead => ?_⟩
  · refine .append ?_ (hanging_of_line hbrackets)
    cases e.isChained with
    | false => exact h.solid
    | true => exact (h.solid.behind (s := "(") (by decide)).append (hanging_of_line (t := ")") (by decide))
  · have := (h.printed lead hlead).to_operand.array x
    show Printed .operand (.array e x) _
    cases hc : e.isChained with
    | false => simpa [parenthesize, hc, hangAll_of_line hbrackets] using this
    | true =>
      have hopen : hangAll lead "(" = "(" := hangAll_of_line (by decide)
      have hclose : hangAll lead ")" = ")" := hangAll_of_line (by decide)
      simpa [parenthesize, hc, hangAll_of_line hbrackets, hopen, hclose] using this

variable {ps : List (TypeExpr × Text)}

theorem Shown.hangAll_all (h : ∀ p ∈ ps, Shown p.1 p.2) {lead : Text} (hlead : Spaces lead) :
    ∀ p ∈ ps.map fun p => (p.1, hangAll lead p.2), Printed p.1.tier p.1 p.2 :=
  List.forall_mem_map.2 fun p hp => (h p hp).printed lead hlead

theorem Shown.hanging_all (h : ∀ p ∈ ps, Shown p.1 p.2) : ∀ t ∈ ps.map (·.2), Hanging t :=
  List.forall_mem_map.2 fun p hp => (h p hp).solid.others

theorem shown_tuple (h : ∀ p ∈ ps, Shown p.1 p.2) (x : Text) :
    Shown (.tuple (ps.map (·.1)) x false) ("[" ++ join ", " (ps.map (·.2)) ++ "]") := by
  have hsep : CodePoint.ofChar '\n' ∉ Text.ofString ", " := by decide
  have hopen : CodePoint.ofChar '\n' ∉ Text.ofString "[" := by decide
  have hclose : CodePoint.ofChar '\n' ∉ Text.ofString "]" := by decide
  refine ⟨?_, fun lead hlead => ?_⟩
  · have hinner := hanging_join (hanging_of_line hsep) (Shown.hanging_all h)
    exact ((solid_of_line hopen (by decide)).append hinner).append (hanging_of_line hclose)
  · have := printed_tuple (fun p hp => (Shown.hangAll_all h hlead p hp).to_union) x
    show Printed .primary _ _
    simp only [List.map_map, Function.comp_def] at this
    simpa [hangAll_join, hangAll_of_line hsep, hangAll_of_line hopen, hangAll_of_line hclose,
      Function.comp_def] using this

theorem shown_union (hlen : 2 ≤ ps.length) (hflat : ∀ p ∈ ps, p.1.isUnion = false)
    (h : ∀ p ∈ ps, Shown p.1 p.2) (x : Text) :
    Shown (.union (ps.map (·.1)) x) (join " | " (ps.map (·.2))) := by
  have hsep : CodePoint.ofChar '\n' ∉ Text.ofString " | " := by decide
  refine ⟨⟨?_, hanging_join (hanging_of_line hsep) (Shown.hanging_all h)⟩, fun lead hlead => ?_⟩
  · match ps, hlen with
    | p :: q :: rest, _ =>
      rw [List.map_cons, List.map_cons, join, List.append_assoc]
      exact firstRow_append (h p List.mem_cons_self).solid.first _
  · have hmember : ∀ p ∈ ps.map fun p => (p.1, hangAll lead p.2), Printed .intersection p.1 p.2 := by
      refine List.forall_mem_map.2 fun p hp => ?_
      have := ((h p hp).printed lead hlead).to_intersection
      rwa [hflat p hp] at this
    have := printed_union (by simpa using hlen) hmember x
    show Printed .union _ _
    simp only [List.map_map, Function.comp_def] at this
    simpa [hangAll_join, hangAll_of_line hsep, Function.comp_def] using this

theorem shown_application {w : Text} {names : List Text} (h : ∀ p ∈ ps, Shown p.1 p.2)
    (hnames : ∀ v ∈ w :: names, Text.isName v = true) (hlead : w ∉ leadingWords)
    (hreserved : Text.join "." (w :: names) ∉ reservedWords) (x : Text) :
    Shown (.reference (Text.join "." (w :: names)) (ps.map (·.1)) x)
      (Text.join "." (w :: names) ++ "<" ++ join ", " (ps.map (·.2)) ++ ">") := by
  have hw := line_of_isName (hnames w List.mem_cons_self)
  have hdots := line_of_names fun v hv => hnames v (List.mem_cons_of_mem _ hv)
  have hname : CodePoint.ofChar '\n' ∉ Text.join "." (w :: names) := by
    rw [join_cons, List.mem_append, not_or]
    exact ⟨hw, hdots⟩
  have hsep : CodePoint.ofChar '\n' ∉ Text.ofString ", " := by decide
  have hopen : CodePoint.ofChar '\n' ∉ Text.ofString "<" := by decide
  have hclose : CodePoint.ofChar '\n' ∉ Text.ofString ">" := by decide
  refine ⟨?_, fun lead' hspaces => ?_⟩
  · have hinner := hanging_join (hanging_of_line hsep) (Shown.hanging_all h)
    have hfirst : Solid (Text.join "." (w :: names)) := by
      rw [join_cons]
      exact (solid_of_line hw (isBlank_of_isName (hnames w List.mem_cons_self))).append
        (hanging_of_line hdots)
    exact ((hfirst.append (hanging_of_line hopen)).append hinner).append (hanging_of_line hclose)
  · have := printed_application (fun p hp => (Shown.hangAll_all h hspaces p hp).to_union) hnames hlead
      (by rintro rfl; exact hreserved) x
    show Printed .primary _ _
    simp only [List.map_map, Function.comp_def] at this
    simpa [hangAll_join, hangAll_of_line hsep, hangAll_of_line hopen, hangAll_of_line hclose,
      hangAll_of_line hname, Function.comp_def] using this

end

/-! ## Object shapes -/

/-- The text of a field. -/
def fieldText (name : Text) (isOptional : Bool) (type : Text) : Text :=
  name ++ optionalMark isOptional ++ ": " ++ type

/-- A field on a row of its own, with its semicolon. -/
def fieldRow (t : Text) : Text := "\n  " ++ hangAll "  " t ++ ";"

/-- Fields between braces, each on a row of its own. -/
def bodyText (fields : List Text) : Text := "\x7b" ++ fields.flatMap fieldRow ++ "\n\x7d"

section
variable {fields : List Text}

theorem solid_bodyText (h : ∀ t ∈ fields, Solid t) : Solid (bodyText fields) := by
  have hrow : ∀ t ∈ fields, Hanging (fieldRow t) := by
    intro t ht
    have hspaced : Solid (Text.ofString "  " ++ hangAll "  " t) :=
      ((h t ht).hangAll spaces_two).behind spaces_two.line
    exact Hanging.append hspaced.newline (hanging_of_line (by decide))
  have hopen : Solid "\x7b" := solid_of_line (by decide) (by decide)
  have hclose : Solid "\x7d" := solid_of_line (by decide) (by decide)
  exact (hopen.append (hanging_flatMap hrow)).append hclose.newline

/-- The braces that a layout puts around fields. -/
theorem render_body {parts : List Layout} (hne : parts ≠ [])
    (h : ∀ part ∈ parts, Solid part.render) :
    (Layout.braced (.statements parts)).render = bodyText (parts.map (·.render)) := by
  have hsolid : ∀ t ∈ parts.map (·.render), Solid t := List.forall_mem_map.2 h
  have hrows : Solid (unrows ((parts.map (·.render)).map (· ++ Text.ofString ";"))) := by
    refine solid_unrows (by simpa using hne) (List.forall_mem_map.2 fun t ht => ?_)
    exact (hsolid t ht).append (hanging_of_line (by decide))
  have hrender : (Layout.statements parts).render =
      unrows ((parts.map (·.render)).map (· ++ Text.ofString ";")) := by
    rw [Layout.statements, Layout.render, Layout.renderAll_eq_map]
    rfl
  have hplace : Layout.place "\x7b\n  " (Layout.statements parts).render ++ "\n\x7d" =
      bodyText (parts.map (·.render)) := by
    have hmargin : margin (Layout.lastRow "\x7b\n  ") = "  " := by decide
    have hbreak : hangAll "  " (Text.ofString "\n") = "\n  " := by decide
    rw [Layout.place, hmargin, hrender, hang_eq hrows.others, unrows, hangAll_join, hbreak]
    obtain ⟨part, rest, rfl⟩ := List.exists_cons_of_ne_nil hne
    have hsemi : hangAll "  " (Text.ofString ";") = ";" := by decide
    rw [List.map_cons, List.map_cons, List.map_cons, join_cons, bodyText]
    simp only [List.map_map, List.flatMap_map, Function.comp_def, hangAll_append, hsemi, List.flatMap_cons,
      fieldRow, List.append_assoc]
    rfl
  rw [Layout.render_braced, Layout.render, Layout.renderValues, Layout.renderValues, hplace]
  refine dedent_eq (solid_bodyText hsolid) ?_
  obtain ⟨part, rest, rfl⟩ := List.exists_cons_of_ne_nil hne
  rfl

theorem hangAll_bodyText (lead : Text) :
    hangAll lead (bodyText fields) =
      "\x7b" ++ (fields.flatMap fun t =>
        (CodePoint.ofChar '\n' :: (lead ++ "  ")) ++ (hangAll (lead ++ "  ") t ++ Text.ofString ";")) ++
      ((CodePoint.ofChar '\n' :: lead) ++ "\x7d") := by
  have hrow (t : Text) : hangAll lead (fieldRow t) =
      (CodePoint.ofChar '\n' :: (lead ++ "  ")) ++ (hangAll (lead ++ "  ") t ++ Text.ofString ";") := by
    have hbreak : hangAll lead "\n  " = CodePoint.ofChar '\n' :: (lead ++ "  ") := hangAll_newline _
    have hsemi : hangAll lead ";" = ";" := hangAll_of_line (by decide)
    rw [fieldRow, hangAll_append, hangAll_append, hbreak, hsemi, hangAll_hangAll spaces_two.line,
      List.append_assoc]
  have hopen : hangAll lead "\x7b" = "\x7b" := hangAll_of_line (by decide)
  have hclose : hangAll lead "\n\x7d" = (CodePoint.ofChar '\n' :: lead) ++ "\x7d" := hangAll_newline _
  rw [bodyText, hangAll_append, hangAll_append, hopen, hclose, hangAll_flatMap]
  simp only [hrow]

/-- What stands before the type of a field is on its line. -/
theorem line_of_field {name : Text} (hname : Text.isName name = true) (isOptional : Bool) :
    CodePoint.ofChar '\n' ∉ name ++ optionalMark isOptional ++ ": " := by
  have hmark : CodePoint.ofChar '\n' ∉ optionalMark isOptional := by cases isOptional <;> decide
  have hcolon : CodePoint.ofChar '\n' ∉ Text.ofString ": " := by decide
  simp only [List.mem_append, not_or]
  exact ⟨⟨line_of_isName hname, hmark⟩, hcolon⟩

theorem shown_object {ps : List (Property TypeExpr × Text)}
    (h : ∀ p ∈ ps, Text.isName p.1.name = true ∧ p.1.docs = {} ∧ Shown p.1.type p.2) (x : Text) :
    Shown (.object (ps.map (·.1)) x)
      (bodyText (ps.map fun p => fieldText p.1.name p.1.isOptional p.2)) := by
  refine ⟨solid_bodyText (List.forall_mem_map.2 fun p hp => ?_), fun lead hlead => ?_⟩
  · obtain ⟨hname, _, htype⟩ := h p hp
    exact htype.solid.behind (line_of_field hname p.1.isOptional)
  · have hmember : ∀ p ∈ ps.map fun p => (p.1, hangAll (lead ++ "  ") p.2),
        PrintedMember (·.name) p.1 p.2 := by
      refine List.forall_mem_map.2 fun p hp => ?_
      obtain ⟨hname, hdocs, htype⟩ := h p hp
      exact ⟨.word hname, hdocs, (htype.printed _ (hlead.append spaces_two)).to_union⟩
    have hend : ∀ s rest : Text, Breaks ((CodePoint.ofChar '\n' :: s) ++ rest) := fun s rest =>
      breaks_cons (by decide) (s ++ rest)
    have := printed_object hmember (hlead.append spaces_two).isGap (hend _) hlead.isGap
      (fun rest => by rw [List.append_assoc]; exact hend _ _) x
    show Printed .primary _ _
    rw [hangAll_bodyText]
    simp only [List.map_map, List.flatMap_map, Function.comp_def] at this ⊢
    -- the fields hang as their types do
    have hrows : ∀ p ∈ ps, (CodePoint.ofChar '\n' :: (lead ++ "  ")) ++
          (hangAll (lead ++ "  ") (fieldText p.1.name p.1.isOptional p.2) ++ Text.ofString ";") =
        (CodePoint.ofChar '\n' :: (lead ++ "  ")) ++
          memberText p.1.name p.1.isOptional (hangAll (lead ++ "  ") p.2) := by
      intro p hp
      rw [fieldText, hangAll_append, hangAll_of_line (line_of_field (h p hp).1 _)]
      rfl
    rw [List.flatMap_def, List.map_congr_left hrows, ← List.flatMap_def]
    exact this

end

end TypeExpr

end WireSchema
