import WireSchema.Layout.Template
import WireSchema.Proofs.Text.Trimming
/-!
# Scanning templates

A template is a row of pieces: code points that stand for themselves, doubled dollar signs
and placeholders. The scan takes them from the left, the name of a placeholder without
braces as long as it goes, and ends where a dollar sign opens no piece. Text whose dollar
signs are doubled is given back as it was, and what is put for a name is not scanned again.
-/

namespace WireSchema.Layout

/-- A name that a placeholder may have. -/
def IsValueName (name : Text) : Prop :=
  ∃ c rest, name = c :: rest ∧ beginsName c = true ∧ ∀ d ∈ rest, continuesName d = true

/-- A piece of a template. -/
inductive Piece where
  | plain (c : CodePoint)
  | dollar
  | hole (name : Text) (isBraced : Bool)
deriving DecidableEq

namespace Piece

/-- How a piece is written. -/
def text : Piece → Text
  | plain c => [c]
  | dollar => "$$"
  | hole name true => "$\x7b" ++ name ++ "\x7d"
  | hole name false => "$" ++ name

/-- The piece may stand before `behind`: what is plain is no dollar sign, and a name without
braces ends there. -/
def Fits (behind : Text) : Piece → Prop
  | plain c => c ≠ '$'
  | dollar => True
  | hole name isBraced =>
    IsValueName name ∧ (isBraced = false → ∀ c ∈ behind.head?, continuesName c = false)

/-- What the dollar sign of the piece is read as. -/
def opens (piece : Piece) : Placeholder :=
  match piece with
  | hole name _ => .named name (piece.text.length - 1)
  | _ => .dollar

/-- The piece needs no value, or there is one for its name. -/
def Known (values : List (Text × Layout)) : Piece → Prop
  | hole name _ => (values.lookup name).isSome = true
  | _ => True

/-- The fixed text and the values of a template with the piece before them. -/
def add (values : List (Text × Layout)) (parts : Text × List (Layout × Text)) :
    Piece → Text × List (Layout × Text)
  | plain c => (c :: parts.1, parts.2)
  | dollar => (CodePoint.ofChar '$' :: parts.1, parts.2)
  | hole name _ => ([], ((values.lookup name).getD default, parts.1) :: parts.2)

end Piece

/-- How pieces are written. -/
def written (pieces : List Piece) : Text := pieces.flatMap Piece.text

/-- The fixed text and the values that pieces stand for. -/
def assembled (values : List (Text × Layout)) (pieces : List Piece) (parts : Text × List (Layout × Text)) :
    Text × List (Layout × Text) :=
  pieces.foldr (fun piece parts => piece.add values parts) parts

/-- A text begins with pieces, each of which fits before what comes behind it. -/
inductive Scanned (left : Text) : List Piece → Text → Prop
  | nil : Scanned left [] left
  | cons {piece : Piece} {pieces : List Piece} {behind : Text} :
    piece.Fits behind → Scanned left pieces behind → Scanned left (piece :: pieces) (piece.text ++ behind)

/-- A dollar sign before `rest` opens nothing: it is neither doubled nor followed by a name
or a name in braces. -/
def OpensNothing (rest : Text) : Prop :=
  ∀ (piece : Piece) (behind : Text), piece.Fits behind → CodePoint.ofChar '$' :: rest ≠ piece.text ++ behind

/-- A placeholder with the value of its name and the fixed text behind it. -/
structure Slot where
  name : Text
  value : Layout
  behind : Text

/-- The text with each dollar sign doubled. -/
def doubled (t : Text) : Text := t.flatMap fun c : CodePoint => if c = '$' then [c, c] else [c]

section
variable {values : List (Text × Layout)} {template t left rest behind name : Text} {c : CodePoint} {piece : Piece}
  {pieces : List Piece} {isBraced : Bool} {offset : Nat}

/-! ## What a dollar sign opens -/

theorem text_braced (name behind : Text) : (Piece.hole name true).text ++ behind =
    CodePoint.ofChar '$' :: CodePoint.ofChar '\x7b' :: (name ++ CodePoint.ofChar '\x7d' :: behind) := by
  show _ :: _ :: (name ++ Text.ofString "\x7d" ++ behind) = _
  rw [List.append_assoc]
  rfl

theorem length_text_braced (name : Text) : (Piece.hole name true).text.length = name.length + 3 := by
  have h := congrArg List.length (text_braced name [])
  rwa [List.append_nil, List.length_cons, List.length_cons, List.length_append] at h

theorem leadingName?_append (hname : IsValueName name) (hstop : ∀ c ∈ behind.head?, continuesName c = false) :
    leadingName? (name ++ behind) = some name := by
  obtain ⟨c, rest, rfl, hc, hrest⟩ := hname
  rw [List.cons_append, leadingName?, if_pos hc, takeWhile_of_stop hrest hstop]

theorem leadingName?_eq_some (h : leadingName? t = some name) :
    IsValueName name ∧ ∃ behind, t = name ++ behind ∧ ∀ c ∈ behind.head?, continuesName c = false := by
  cases t with
  | nil => cases h
  | cons c rest =>
    rw [leadingName?] at h
    split at h
    next hc =>
      cases h
      refine ⟨⟨c, _, rfl, hc, fun d => List.mem_takeWhile_imp⟩, rest.dropWhile continuesName, ?_, ?_⟩
      · rw [List.cons_append, List.takeWhile_append_dropWhile]
      · intro d hd
        obtain ⟨after, hafter⟩ := List.head?_eq_some_iff.1 hd
        exact not_of_dropWhile_eq_cons hafter
    · cases h

theorem placeholder?_brace (t : Text) :
    placeholder? (CodePoint.ofChar '\x7b' :: t) = (leadingName? t).bind fun name =>
      if (t.drop name.length).head? = some (CodePoint.ofChar '\x7d') then some (.named name (name.length + 2))
      else none := by
  rw [placeholder?, if_neg (by decide), if_pos rfl]
  cases leadingName? t with
  | none => rfl
  | some name =>
    simp only [Option.bind_some, bind, guard, beq_iff_eq]
    split <;> rfl

theorem placeholder?_braced (hname : IsValueName name) (behind : Text) :
    placeholder? (CodePoint.ofChar '\x7b' :: (name ++ CodePoint.ofChar '\x7d' :: behind)) =
      some (.named name (name.length + 2)) := by
  have hbrace : ∀ c ∈ (CodePoint.ofChar '\x7d' :: behind).head?, continuesName c = false := by
    simp only [List.head?_cons, Option.mem_some_iff, forall_eq']
    decide
  rw [placeholder?_brace, leadingName?_append hname hbrace, Option.bind_some, List.drop_left]
  exact if_pos rfl

theorem placeholder?_bare (hname : IsValueName name) (hstop : ∀ c ∈ behind.head?, continuesName c = false) :
    placeholder? (name ++ behind) = some (.named name name.length) := by
  have hlead := leadingName?_append hname hstop
  obtain ⟨c, rest, rfl, hc, -⟩ := hname
  have hdollar : c ≠ '$' := by rintro rfl; exact absurd hc (by decide)
  have hbrace : c ≠ '\x7b' := by rintro rfl; exact absurd hc (by decide)
  rw [List.cons_append] at hlead ⊢
  rw [placeholder?, if_neg hdollar, if_neg hbrace, hlead]
  rfl

/-- A dollar sign is read as the piece that it opens. -/
theorem placeholder?_of_fits (hfits : piece.Fits behind) (h : CodePoint.ofChar '$' :: rest = piece.text ++ behind) :
    placeholder? rest = some piece.opens := by
  cases piece with
  | plain c => exact absurd (List.cons.inj h).1.symm hfits
  | dollar =>
    cases h
    rfl
  | hole name isBraced =>
    cases isBraced with
    | true =>
      rw [text_braced] at h
      rw [(List.cons.inj h).2, placeholder?_braced hfits.1, Piece.opens, length_text_braced]
      rfl
    | false =>
      cases (List.cons.inj h).2
      exact placeholder?_bare hfits.1 (hfits.2 rfl)

/-- A dollar sign that is read as something opens a piece. -/
theorem exists_fits {p : Placeholder} (h : placeholder? rest = some p) :
    ∃ (piece : Piece) (behind : Text), piece.Fits behind ∧ CodePoint.ofChar '$' :: rest = piece.text ++ behind := by
  cases rest with
  | nil => cases h
  | cons c rest =>
    by_cases hdollar : c = '$'
    · subst hdollar
      exact ⟨.dollar, rest, trivial, rfl⟩
    by_cases hbrace : c = '\x7b'
    · subst hbrace
      rw [placeholder?_brace] at h
      obtain ⟨name, hlead, h⟩ := Option.bind_eq_some_iff.1 h
      obtain ⟨hname, behind, rfl, -⟩ := leadingName?_eq_some hlead
      rw [List.drop_left] at h
      split at h
      next hclose =>
        obtain ⟨after, rfl⟩ := List.head?_eq_some_iff.1 hclose
        exact ⟨.hole name true, after, ⟨hname, nofun⟩, (text_braced name after).symm⟩
      · cases h
    · rw [placeholder?, if_neg hdollar, if_neg hbrace] at h
      obtain ⟨name, hlead, -⟩ := Option.bind_eq_some_iff.1 h
      obtain ⟨hname, behind, heq, hstop⟩ := leadingName?_eq_some hlead
      exact ⟨.hole name false, behind, ⟨hname, fun _ => hstop⟩, congrArg _ heq⟩

theorem placeholder?_eq_none : placeholder? rest = none ↔ OpensNothing rest := by
  constructor
  · intro hnone piece behind hfits h
    rw [placeholder?_of_fits hfits h] at hnone
    cases hnone
  · intro hnothing
    cases h : placeholder? rest with
    | none => rfl
    | some p =>
      obtain ⟨piece, behind, hfits, heq⟩ := exists_fits h
      exact absurd heq (hnothing piece behind hfits)

/-! ## One piece -/

theorem templateParts_skip (front t : Text) (offset : Nat) :
    templateParts values front.length offset (front ++ t) = templateParts values 0 (offset + front.length) t := by
  induction front generalizing offset with
  | nil => rfl
  | cons c front ih =>
    rw [List.cons_append, List.length_cons, templateParts, ih, Nat.add_assoc, Nat.add_comm 1]

/-- A piece that is not plain begins with the dollar sign that it is read by. -/
theorem templateParts_opens {rest : Text} (htext : piece.text = CodePoint.ofChar '$' :: rest) (hfits : piece.Fits behind)
    (offset : Nat) : templateParts values 0 offset (piece.text ++ behind) =
      match piece.opens with
      | .dollar => (templateParts values 1 (offset + 1) (rest ++ behind)).map fun parts =>
        (CodePoint.ofChar '$' :: parts.1, parts.2)
      | .named name taken =>
        match values.lookup name with
        | none => .error (.missing name)
        | some value => (templateParts values taken (offset + 1) (rest ++ behind)).map fun parts =>
          ([], (value, parts.1) :: parts.2) := by
  have hopens : placeholder? (rest ++ behind) = some piece.opens :=
    placeholder?_of_fits hfits (by rw [htext, List.cons_append])
  rw [htext, List.cons_append, templateParts, if_pos rfl, hopens]
  cases piece.opens with
  | dollar => cases templateParts values 1 (offset + 1) (rest ++ behind) <;> rfl
  | named name taken =>
    dsimp only
    cases values.lookup name with
    | none => rfl
    | some value =>
      dsimp only
      cases templateParts values taken (offset + 1) (rest ++ behind) <;> rfl

theorem exists_text_hole (name : Text) (isBraced : Bool) :
    ∃ rest, (Piece.hole name isBraced).text = CodePoint.ofChar '$' :: rest := by
  cases isBraced with
  | true => exact ⟨_, rfl⟩
  | false => exact ⟨name, rfl⟩

/-- A piece is taken off the front, and the scan goes on behind it. -/
theorem templateParts_piece (hfits : piece.Fits behind) (hknown : piece.Known values) (offset : Nat) :
    templateParts values 0 offset (piece.text ++ behind) =
      (templateParts values 0 (offset + piece.text.length) behind).map fun parts => piece.add values parts := by
  cases piece with
  | plain c =>
    show templateParts values 0 offset (c :: behind) = (templateParts values 0 (offset + 1) behind).map _
    rw [templateParts, if_neg hfits]
    cases templateParts values 0 (offset + 1) behind <;> rfl
  | dollar =>
    have htext : Piece.dollar.text = CodePoint.ofChar '$' :: "$" := rfl
    rw [templateParts_opens htext hfits]
    exact congrArg (Except.map fun parts => (CodePoint.ofChar '$' :: parts.1, parts.2))
      (templateParts_skip "$" behind (offset + 1))
  | hole name isBraced =>
    obtain ⟨rest, htext⟩ := exists_text_hole name isBraced
    obtain ⟨value, hvalue⟩ := Option.isSome_iff_exists.1 hknown
    have hlength : (Piece.hole name isBraced).text.length = rest.length + 1 := by rw [htext, List.length_cons]
    rw [templateParts_opens htext hfits, Piece.opens, hlength, Nat.add_sub_cancel]
    dsimp only
    rw [hvalue, templateParts_skip, Nat.add_right_comm, Nat.add_assoc]
    dsimp only [Piece.add]
    rw [hvalue]
    rfl

theorem templateParts_unknown (hfits : (Piece.hole name isBraced).Fits behind) (hunknown : values.lookup name = none)
    (offset : Nat) :
    templateParts values 0 offset ((Piece.hole name isBraced).text ++ behind) = .error (.missing name) := by
  obtain ⟨rest, htext⟩ := exists_text_hole name isBraced
  rw [templateParts_opens htext hfits, Piece.opens]
  dsimp only
  rw [hunknown]

theorem templateParts_stuck (h : OpensNothing rest) (offset : Nat) :
    templateParts values 0 offset (CodePoint.ofChar '$' :: rest) = .error (.placeholder offset) := by
  rw [templateParts, if_pos rfl, placeholder?_eq_none.2 h]

/-! ## All pieces -/

@[simp] theorem written_nil : written [] = [] := rfl

@[simp] theorem written_cons (piece : Piece) (pieces : List Piece) :
    written (piece :: pieces) = piece.text ++ written pieces := List.flatMap_cons

theorem written_append (front back : List Piece) : written (front ++ back) = written front ++ written back :=
  List.flatMap_append

theorem text_ne_nil (piece : Piece) : piece.text ≠ [] := by
  cases piece with
  | plain c => exact List.cons_ne_nil c []
  | dollar => exact List.cons_ne_nil _ _
  | hole name isBraced =>
    obtain ⟨rest, htext⟩ := exists_text_hole name isBraced
    rw [htext]
    exact List.cons_ne_nil _ _

/-- Every text is scanned to its end or to a dollar sign that opens nothing. -/
theorem exists_scanned (t : Text) :
    ∃ pieces left, Scanned left pieces t ∧ (left = [] ∨ ∃ rest, left = CodePoint.ofChar '$' :: rest ∧ OpensNothing rest) := by
  induction hlength : t.length using Nat.strong_induction_on generalizing t with
  | _ n ih =>
  cases t with
  | nil => exact ⟨[], [], .nil, .inl rfl⟩
  | cons c rest =>
    have hnext {piece : Piece} {behind : Text} (hfits : piece.Fits behind) (htext : c :: rest = piece.text ++ behind) :
        ∃ pieces left, Scanned left pieces (c :: rest) ∧
          (left = [] ∨ ∃ rest, left = CodePoint.ofChar '$' :: rest ∧ OpensNothing rest) := by
      have hlt : behind.length < n := by
        rw [← hlength, htext, List.length_append]
        have := List.length_pos_iff.2 (text_ne_nil piece)
        omega
      obtain ⟨pieces, left, hscanned, hleft⟩ := ih _ hlt behind rfl
      exact ⟨piece :: pieces, left, htext ▸ .cons hfits hscanned, hleft⟩
    by_cases hc : c = '$'
    · subst hc
      cases hopen : placeholder? rest with
      | none => exact ⟨[], _, .nil, .inr ⟨rest, rfl, placeholder?_eq_none.1 hopen⟩⟩
      | some p =>
        obtain ⟨piece, behind, hfits, heq⟩ := exists_fits hopen
        exact hnext hfits heq
    · have hplain : (Piece.plain c).Fits rest := hc
      exact hnext hplain rfl

/-- What the scan makes of pieces that need no value or have one. -/
theorem templateParts_scanned (h : Scanned left pieces t) (hknown : ∀ piece ∈ pieces, piece.Known values) (offset : Nat) :
    templateParts values 0 offset t =
      (templateParts values 0 (offset + (written pieces).length) left).map (assembled values pieces) := by
  induction h generalizing offset with
  | nil =>
    rw [written_nil, List.length_nil, Nat.add_zero]
    cases templateParts values 0 offset left <;> rfl
  | cons hfits _ ih =>
    rw [templateParts_piece hfits (hknown _ List.mem_cons_self),
      ih fun piece hpiece => hknown piece (List.mem_cons_of_mem _ hpiece), written_cons, List.length_append, Nat.add_assoc]
    cases templateParts values 0 _ left <;> rfl

theorem Scanned.split {before after : List Piece} (h : Scanned left (before ++ piece :: after) t) :
    ∃ behind, Scanned (piece.text ++ behind) before t ∧ piece.Fits behind ∧ Scanned left after behind := by
  induction before generalizing t with
  | nil =>
    cases h with
    | cons hfits h => exact ⟨_, .nil, hfits, h⟩
  | cons first before ih =>
    cases h with
    | cons hfits h =>
      obtain ⟨behind, hbefore, hrest⟩ := ih h
      exact ⟨behind, .cons hfits hbefore, hrest⟩

/-- All pieces have what they need, or there is a first one that does not. -/
theorem known_or_exists (values : List (Text × Layout)) (pieces : List Piece) :
    (∀ piece ∈ pieces, piece.Known values) ∨
      ∃ before name isBraced after, pieces = before ++ .hole name isBraced :: after ∧
        (∀ piece ∈ before, piece.Known values) ∧ values.lookup name = none := by
  induction pieces with
  | nil => exact .inl nofun
  | cons piece pieces ih =>
    by_cases hpiece : piece.Known values
    · rcases ih with hall | ⟨before, name, isBraced, after, rfl, hbefore, hnone⟩
      · exact .inl (List.forall_mem_cons.2 ⟨hpiece, hall⟩)
      · exact .inr ⟨piece :: before, name, isBraced, after, rfl, List.forall_mem_cons.2 ⟨hpiece, hbefore⟩, hnone⟩
    · cases piece with
      | plain c => exact absurd trivial hpiece
      | dollar => exact absurd trivial hpiece
      | hole name isBraced => exact .inr ⟨[], name, isBraced, pieces, rfl, nofun, Option.not_isSome_iff_eq_none.1 hpiece⟩

/-! ## Whole templates -/

/-- The layout that pieces stand for. -/
def ofPieces (values : List (Text × Layout)) (pieces : List Piece) : Layout :=
  .template (assembled values pieces ([], [])).1 (assembled values pieces ([], [])).2

theorem ofTemplate_of_scanned (h : Scanned [] pieces template) (hknown : ∀ piece ∈ pieces, piece.Known values) :
    ofTemplate template values = .ok (ofPieces values pieces) := by
  rw [ofTemplate, templateParts_scanned h hknown]
  rfl

theorem ofTemplate_of_stuck (h : Scanned (CodePoint.ofChar '$' :: rest) pieces template) (hrest : OpensNothing rest)
    (hknown : ∀ piece ∈ pieces, piece.Known values) :
    ofTemplate template values = .error (.placeholder (written pieces).length) := by
  rw [ofTemplate, templateParts_scanned h hknown, templateParts_stuck hrest, Nat.zero_add]
  rfl

theorem ofTemplate_of_unknown (h : Scanned ((Piece.hole name isBraced).text ++ behind) pieces template)
    (hfits : (Piece.hole name isBraced).Fits behind) (hknown : ∀ piece ∈ pieces, piece.Known values)
    (hnone : values.lookup name = none) : ofTemplate template values = .error (.missing name) := by
  rw [ofTemplate, templateParts_scanned h hknown, templateParts_unknown hfits hnone]
  rfl

/-- What comes first from the left: the end, a dollar sign that opens nothing, or a name
without a value. -/
theorem ofTemplate_cases (template : Text) (values : List (Text × Layout)) :
    (∃ pieces, Scanned [] pieces template ∧ ∀ piece ∈ pieces, piece.Known values) ∨
      (∃ pieces rest, Scanned (CodePoint.ofChar '$' :: rest) pieces template ∧ OpensNothing rest ∧
        ∀ piece ∈ pieces, piece.Known values) ∨
      ∃ pieces name isBraced behind, Scanned ((Piece.hole name isBraced).text ++ behind) pieces template ∧
        (Piece.hole name isBraced).Fits behind ∧ (∀ piece ∈ pieces, piece.Known values) ∧ values.lookup name = none := by
  obtain ⟨pieces, left, hscanned, hleft⟩ := exists_scanned template
  rcases known_or_exists values pieces with hknown | ⟨before, name, isBraced, after, rfl, hknown, hnone⟩
  · rcases hleft with rfl | ⟨rest, rfl, hrest⟩
    · exact .inl ⟨pieces, hscanned, hknown⟩
    · exact .inr (.inl ⟨pieces, rest, hscanned, hrest, hknown⟩)
  · obtain ⟨behind, hbefore, hfits, -⟩ := hscanned.split
    exact .inr (.inr ⟨before, name, isBraced, behind, hbefore, hfits, hknown, hnone⟩)

/-! ## Doubled dollar signs -/

/-- The pieces of a text whose dollar signs are doubled. -/
def plainly (t : Text) : List Piece := t.map fun c : CodePoint => if c = '$' then .dollar else .plain c

theorem written_plainly (t : Text) : written (plainly t) = doubled t := by
  induction t with
  | nil => rfl
  | cons c t ih =>
    have hdoubled : doubled (c :: t) = (if c = '$' then [c, c] else [c]) ++ doubled t := List.flatMap_cons
    rw [plainly, List.map_cons, written_cons, ← plainly, ih, hdoubled]
    by_cases hc : c = '$'
    · subst hc
      rfl
    · rw [if_neg hc, if_neg hc]
      rfl

theorem assembled_plainly (t : Text) (pieces : List Piece) (parts : Text × List (Layout × Text)) :
    assembled values (plainly t ++ pieces) parts =
      (t ++ (assembled values pieces parts).1, (assembled values pieces parts).2) := by
  induction t with
  | nil => rfl
  | cons c t ih =>
    have hstep : assembled values (plainly (c :: t) ++ pieces) parts =
        (if c = '$' then Piece.dollar else .plain c).add values (assembled values (plainly t ++ pieces) parts) := rfl
    rw [hstep, ih]
    by_cases hc : c = '$'
    · subst hc
      rfl
    · rw [if_neg hc]
      rfl

/-- Pieces that fit before everything are scanned wherever they are written. -/
theorem scanned_written (h : ∀ piece ∈ pieces, ∀ behind, piece.Fits behind) : Scanned [] pieces (written pieces) := by
  induction pieces with
  | nil => exact .nil
  | cons piece pieces ih =>
    rw [written_cons]
    exact .cons (h piece List.mem_cons_self _) (ih fun p hp => h p (List.mem_cons_of_mem piece hp))

/-- What stands on one line is put where its placeholder stands. -/
theorem renderValues_of_lines {holes : List (Layout × Text)} (h : ∀ hole ∈ holes, CodePoint.ofChar '\n' ∉ hole.1.render)
    (out : Text) : renderValues out holes = out ++ holes.flatMap fun hole => hole.1.render ++ hole.2 := by
  induction holes generalizing out with
  | nil => rw [renderValues, List.flatMap_nil, List.append_nil]
  | cons hole holes ih =>
    obtain ⟨value, behind⟩ := hole
    have hplace : place out value.render = out ++ value.render := by
      rw [place, Text.hang, Text.rows_of_line (h _ List.mem_cons_self)]
      rfl
    rw [renderValues, hplace, ih fun hole hhole => h hole (List.mem_cons_of_mem _ hhole), List.flatMap_cons,
      ← List.append_assoc, ← List.append_assoc]

end

namespace Slot

/-- How a slot is written: the placeholder in braces, and the text with its dollar signs doubled. -/
def text (slot : Slot) : Text := (Piece.hole slot.name true).text ++ doubled slot.behind

/-- The slot with the value in it. -/
def filled (slot : Slot) : Text := slot.value.render ++ slot.behind

/-- The placeholder, and the text code point by code point. -/
def pieces (slot : Slot) : List Piece := .hole slot.name true :: plainly slot.behind

end Slot

section
variable {values : List (Text × Layout)} {slots : List Slot} {t : Text} {piece : Piece}

theorem fits_plainly (h : piece ∈ plainly t) (behind : Text) : piece.Fits behind := by
  obtain ⟨c, -, rfl⟩ := List.mem_map.1 h
  split
  · trivial
  · assumption

theorem known_plainly (h : piece ∈ plainly t) (values : List (Text × Layout)) : piece.Known values := by
  obtain ⟨c, -, rfl⟩ := List.mem_map.1 h
  split <;> trivial

theorem written_slots (slots : List Slot) : written (slots.flatMap Slot.pieces) = slots.flatMap Slot.text := by
  induction slots with
  | nil => rfl
  | cons slot slots ih =>
    rw [List.flatMap_cons, List.flatMap_cons, written_append, ih, Slot.pieces, written_cons, written_plainly, Slot.text]

theorem assembled_slots (h : ∀ slot ∈ slots, values.lookup slot.name = some slot.value) :
    assembled values (slots.flatMap Slot.pieces) ([], []) = ([], slots.map fun slot => (slot.value, slot.behind)) := by
  induction slots with
  | nil => rfl
  | cons slot slots ih =>
    have hrest := ih fun other hother => h other (List.mem_cons_of_mem slot hother)
    rw [List.flatMap_cons, Slot.pieces, List.cons_append]
    show (Piece.hole slot.name true).add values
      (assembled values (plainly slot.behind ++ slots.flatMap Slot.pieces) ([], [])) = _
    rw [assembled_plainly, hrest, Piece.add, h slot List.mem_cons_self, List.append_nil]
    rfl

/-- Texts whose dollar signs are doubled are given back with the values between them. -/
theorem ofTemplate_doubled (start : Text)
    (h : ∀ slot ∈ slots, IsValueName slot.name ∧ values.lookup slot.name = some slot.value) :
    ofTemplate (doubled start ++ slots.flatMap Slot.text) values =
      .ok (.template start (slots.map fun slot => (slot.value, slot.behind))) := by
  have hpieces : ∀ piece ∈ plainly start ++ slots.flatMap Slot.pieces,
      (∀ behind, piece.Fits behind) ∧ piece.Known values := by
    intro piece hpiece
    rcases List.mem_append.1 hpiece with hpiece | hpiece
    · exact ⟨fits_plainly hpiece, known_plainly hpiece values⟩
    · obtain ⟨slot, hslot, hpiece⟩ := List.mem_flatMap.1 hpiece
      obtain ⟨hname, hvalue⟩ := h slot hslot
      rcases List.mem_cons.1 hpiece with rfl | hpiece
      · exact ⟨fun _ => ⟨hname, nofun⟩, Option.isSome_of_eq_some hvalue⟩
      · exact ⟨fits_plainly hpiece, known_plainly hpiece values⟩
  have hscanned := scanned_written fun piece hpiece => (hpieces piece hpiece).1
  rw [written_append, written_plainly, written_slots] at hscanned
  rw [ofTemplate_of_scanned hscanned fun piece hpiece => (hpieces piece hpiece).2, ofPieces, assembled_plainly,
    assembled_slots fun slot hslot => (h slot hslot).2, List.append_nil]

end

/-- Texts whose dollar signs are doubled and placeholders between them make a template that is
rendered as the texts and the values, whatever dollar signs the values have. A template is
refused if and only if a dollar sign that opens nothing or a name without a value comes
before its end, and the error tells what comes first. -/
theorem placeholders_scanned (values : List (Text × Layout)) :
    (∀ (start : Text) (slots : List Slot),
      (∀ slot ∈ slots, IsValueName slot.name ∧ values.lookup slot.name = some slot.value ∧
        CodePoint.ofChar '\n' ∉ slot.value.render) →
      ∃ layout, ofTemplate (doubled start ++ slots.flatMap Slot.text) values = .ok layout ∧
        layout.render = Text.dedent (start ++ slots.flatMap Slot.filled)) ∧
    ∀ template,
      (∀ offset, ofTemplate template values = .error (.placeholder offset) ↔
        ∃ pieces rest, Scanned (CodePoint.ofChar '$' :: rest) pieces template ∧ OpensNothing rest ∧
          (∀ piece ∈ pieces, piece.Known values) ∧ (written pieces).length = offset) ∧
      ∀ name, ofTemplate template values = .error (.missing name) ↔
        ∃ pieces isBraced behind, Scanned ((Piece.hole name isBraced).text ++ behind) pieces template ∧
          (Piece.hole name isBraced).Fits behind ∧ (∀ piece ∈ pieces, piece.Known values) ∧
          values.lookup name = none := by
  refine ⟨fun start slots h => ?doubled, fun template => ⟨fun offset => ⟨fun herror => ?stuck, ?stuck_of_scanned⟩,
    fun name => ⟨fun herror => ?unknown, ?unknown_of_scanned⟩⟩⟩
  case doubled =>
    refine ⟨_, ofTemplate_doubled start fun slot hslot => ⟨(h slot hslot).1, (h slot hslot).2.1⟩, ?_⟩
    rw [render, renderValues_of_lines (List.forall_mem_map.2 fun slot hslot => (h slot hslot).2.2), List.flatMap_map]
    rfl
  -- the three ways in which a scan ends exclude each other
  case stuck =>
    rcases ofTemplate_cases template values with ⟨pieces, hscanned, hknown⟩ | ⟨pieces, rest, hscanned, hrest, hknown⟩ |
      ⟨pieces, name, isBraced, behind, hscanned, hfits, hknown, hnone⟩
    · rw [ofTemplate_of_scanned hscanned hknown] at herror
      cases herror
    · rw [ofTemplate_of_stuck hscanned hrest hknown] at herror
      cases herror
      exact ⟨pieces, rest, hscanned, hrest, hknown, rfl⟩
    · rw [ofTemplate_of_unknown hscanned hfits hknown hnone] at herror
      cases herror
  case stuck_of_scanned =>
    rintro ⟨pieces, rest, hscanned, hrest, hknown, rfl⟩
    exact ofTemplate_of_stuck hscanned hrest hknown
  case unknown =>
    rcases ofTemplate_cases template values with ⟨pieces, hscanned, hknown⟩ | ⟨pieces, rest, hscanned, hrest, hknown⟩ |
      ⟨pieces, other, isBraced, behind, hscanned, hfits, hknown, hnone⟩
    · rw [ofTemplate_of_scanned hscanned hknown] at herror
      cases herror
    · rw [ofTemplate_of_stuck hscanned hrest hknown] at herror
      cases herror
    · rw [ofTemplate_of_unknown hscanned hfits hknown hnone] at herror
      cases herror
      exact ⟨pieces, isBraced, behind, hscanned, hfits, hknown, hnone⟩
  case unknown_of_scanned =>
    rintro ⟨pieces, isBraced, behind, hscanned, hfits, hknown, hnone⟩
    exact ofTemplate_of_unknown hscanned hfits hknown hnone

/-- A price with a dollar sign before it, and one in the value. -/
theorem placeholders_scanned_price :
    ∃ layout, ofTemplate "$$\n  $$$\x7bprice\x7d$$" [("price", .text "1$2")] = .ok layout ∧
      layout.render = "$\n  $1$2$" := by
  refine (placeholders_scanned [("price", .text "1$2")]).1 "$\n  $" [⟨"price", .text "1$2", "$"⟩] ?_
  intro slot hslot
  rw [List.mem_singleton.1 hslot]
  exact ⟨⟨'p', "rice", rfl, by decide, by decide⟩, rfl, by decide⟩

end WireSchema.Layout
