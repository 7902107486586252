import WireSchema.Config.File
import WireSchema.Proofs.Datum.ReadBack
import WireSchema.Proofs.Steps
import WireSchema.Proofs.Files.Replaced
/-!
# Configurations that are saved

The mapping of a configuration has a value for every field that the field takes as it is,
but for tags: the marks before a tag are dropped after the white space around them, so white
space behind the marks stays, and is dropped when the configuration is read again.
-/

namespace WireSchema.Config

open Text

/-! ## Tags -/

/-- A name that a tag can have: it begins with no mark, and no white space stands behind it. -/
structure IsTag (name : Text) : Prop where
  ne_nil : name ≠ []
  unmarked : ∀ c ∈ name.head?, c ≠ '@'
  trimEnd_eq : trimEnd name = name

/-- The text begins with white space. -/
def BeginsBlank (t : Text) : Prop := ∃ c ∈ t.head?, c.isBlank = true

section
variable {d : Datum} {name t u : Text}

theorem trimEnd_of_append (h : trimEnd (t ++ u) = t ++ u) (hne : u ≠ []) : trimEnd u = u := by
  rw [trimEnd_eq, List.rdropWhile_eq_self_iff] at h ⊢
  intro _
  have hlast := h (List.append_ne_nil_of_right_ne_nil t hne)
  rwa [List.getLast_append_of_ne_nil _ hne] at hlast

theorem tagValue_eq_ok : tagValue d = .ok name ↔
    ∃ t, textValue d = .ok t ∧ (trim t).dropWhile (· == CodePoint.ofChar '@') = name ∧ name ≠ [] := by
  rw [tagValue, Except.bind_eq_ok]
  refine exists_congr fun t => and_congr_right fun _ => ?_
  dsimp only
  split
  next hempty =>
    rw [List.isEmpty_iff] at hempty
    refine ⟨nofun, fun h => absurd ?_ h.2⟩
    rw [← h.1, hempty]
  next hempty =>
    rw [List.isEmpty_iff] at hempty
    constructor
    · rintro ⟨⟩
      exact ⟨rfl, hempty⟩
    · rintro ⟨rfl, -⟩
      rfl

/-- What is taken for a tag can be the name of one. -/
theorem isTag_of_tagValue (h : tagValue d = .ok name) : IsTag name := by
  obtain ⟨t, -, heq, hne⟩ := tagValue_eq_ok.1 h
  refine ⟨hne, fun c hc => ?_, ?_⟩
  · obtain ⟨rest, rfl⟩ := List.head?_eq_some_iff.1 hc
    simpa using not_of_dropWhile_eq_cons heq
  · have hends := trimEnd_trim t
    rw [← List.takeWhile_append_dropWhile (p := (· == CodePoint.ofChar '@')) (l := trim t), heq] at hends
    exact trimEnd_of_append hends hne

/-- A tag is taken as it is if and only if no white space comes first. -/
theorem tagValue_again (h : IsTag name) : tagValue (.text name) = .ok name ↔ ¬BeginsBlank name := by
  obtain ⟨c, rest, rfl⟩ := List.exists_cons_of_ne_nil h.ne_nil
  have hbegins : BeginsBlank (c :: rest) ↔ c.isBlank = true := by simp [BeginsBlank]
  rw [tagValue_eq_ok, hbegins, Bool.not_eq_true]
  constructor
  · rintro ⟨_, ⟨⟩, heq, -⟩
    by_contra hblank
    rw [Bool.not_eq_false] at hblank
    -- the white space is gone for good
    have hlength := congrArg List.length heq
    have hmarks := (List.dropWhile_suffix (l := trim (c :: rest)) (· == CodePoint.ofChar '@')).length_le
    have htrim : trim (c :: rest) = trim rest := trim_blank_append (s := [c]) (by simpa [isBlank] using hblank) rest
    have hrest := (dropEnds_sublist (p := CodePoint.isBlank) rest).length_le
    rw [← trim_eq, ← htrim] at hrest
    rw [List.length_cons] at hlength
    omega
  · intro hblank
    refine ⟨_, rfl, ?_, h.ne_nil⟩
    rw [trim_cons hblank, ← trimEnd_cons hblank, h.trimEnd_eq]
    exact List.dropWhile_cons_of_neg (by simpa using h.unmarked c rfl)

end

/-! ## Fields -/

/-- The value that a field has in the entries, or its default. -/
def fieldValue {α : Type} (entries : List (Datum × Datum)) (field : Text) (default : α) (read : Datum → Except ConfigProblem α) :
    Except ConfigProblem α :=
  match Datum.get? entries field with
  | none => .ok default
  | some d => read d

/-- Every field of the configuration has its value in the entries. -/
structure Holds (entries : List (Datum × Datum)) (c : Config) : Prop where
  exportTag : fieldValue entries "export_tag" ({} : Config).exportTag tagValue = .ok c.exportTag
  decoratorTag : fieldValue entries "decorator_tag" ({} : Config).decoratorTag tagValue = .ok c.decoratorTag
  docLineLimit : fieldValue entries "doc_line_limit" ({} : Config).docLineLimit limitValue = .ok c.docLineLimit
  numberType : fieldValue entries "number_type" ({} : Config).numberType textValue = .ok c.numberType
  recordStyle : fieldValue entries "record_style" ({} : Config).recordStyle recordStyleValue = .ok c.recordStyle
  outputName : fieldValue entries "output_name" ({} : Config).outputName fileNameValue = .ok c.outputName

section
variable {α : Type} {entries : List (Datum × Datum)} {field : Text} {default value : α}
  {read : Datum → Except ConfigProblem α} {c : Config}

theorem fieldValue_eq_ok : fieldValue entries field default read = .ok value ↔
    (readField entries field default read).1 = value ∧ (readField entries field default read).2 = [] := by
  rw [readField, fieldValue]
  cases Datum.get? entries field with
  | none => simp
  | some d =>
    dsimp only
    cases read d <;> simp

theorem holds_iff : Holds entries c ↔
    fieldValue entries "export_tag" ({} : Config).exportTag tagValue = .ok c.exportTag ∧
    fieldValue entries "decorator_tag" ({} : Config).decoratorTag tagValue = .ok c.decoratorTag ∧
    fieldValue entries "doc_line_limit" ({} : Config).docLineLimit limitValue = .ok c.docLineLimit ∧
    fieldValue entries "number_type" ({} : Config).numberType textValue = .ok c.numberType ∧
    fieldValue entries "record_style" ({} : Config).recordStyle recordStyleValue = .ok c.recordStyle ∧
    fieldValue entries "output_name" ({} : Config).outputName fileNameValue = .ok c.outputName :=
  ⟨fun h => ⟨h.1, h.2, h.3, h.4, h.5, h.6⟩, fun ⟨h₁, h₂, h₃, h₄, h₅, h₆⟩ => ⟨h₁, h₂, h₃, h₄, h₅, h₆⟩⟩

/-- A configuration is made of its fields' values, if no other fields are named. -/
theorem check_eq_ok : check entries = .ok c ↔ Holds entries c ∧ unknownFields entries = [] := by
  obtain ⟨v₁, v₂, v₃, v₄, v₅, v₆⟩ := c
  simp only [holds_iff, fieldValue_eq_ok, check]
  constructor
  · intro h
    split at h
    next hnil =>
      cases h
      simp only [List.append_eq_nil_iff] at hnil
      obtain ⟨⟨⟨⟨⟨⟨h₁, h₂⟩, h₃⟩, h₄⟩, h₅⟩, h₆⟩, h₇⟩ := hnil
      exact ⟨⟨⟨rfl, h₁⟩, ⟨rfl, h₂⟩, ⟨rfl, h₃⟩, ⟨rfl, h₄⟩, ⟨rfl, h₅⟩, rfl, h₆⟩, h₇⟩
    · cases h
  · rintro ⟨⟨⟨rfl, h₁⟩, ⟨rfl, h₂⟩, ⟨rfl, h₃⟩, ⟨rfl, h₄⟩, ⟨rfl, h₅⟩, rfl, h₆⟩, h₇⟩
    rw [h₁, h₂, h₃, h₄, h₅, h₆, h₇]
    rfl

/-- The fields' values are such that the fields take them, but for white space before a tag. -/
structure IsSound (c : Config) : Prop where
  exportTag : IsTag c.exportTag
  decoratorTag : IsTag c.decoratorTag
  docLineLimit : 0 < c.docLineLimit
  outputName : isFileName c.outputName = true

theorem limitValue_eq_ok {d : Datum} {limit : Nat} : limitValue d = .ok limit ↔
    ∃ n : Int, wholeNumber d = .ok n ∧ 0 < n ∧ n.toNat = limit := by
  rw [limitValue, Except.bind_eq_ok]
  refine exists_congr fun n => and_congr_right fun _ => ?_
  by_cases hn : n ≤ 0
  · rw [if_pos hn]
    exact ⟨nofun, fun h => absurd h.1 (Int.not_lt.2 hn)⟩
  · rw [if_neg hn]
    exact ⟨fun h => ⟨Int.not_le.1 hn, Except.ok.inj h⟩, fun h => congrArg Except.ok h.2⟩

theorem fileNameValue_eq_ok {d : Datum} {name : Text} :
    fileNameValue d = .ok name ↔ textValue d = .ok name ∧ isFileName name = true := by
  rw [fileNameValue, Except.bind_eq_ok]
  constructor
  · rintro ⟨t, ht, h⟩
    split at h
    next hname =>
      cases h
      exact ⟨ht, hname⟩
    · cases h
  · rintro ⟨ht, hname⟩
    exact ⟨name, ht, if_pos hname⟩

theorem recordStyleValue_name (style : RecordStyle) : recordStyleValue (.text (recordStyleName style)) = .ok style := by
  cases style <;> rfl

theorem default_or_read (h : fieldValue entries field default read = .ok value) : value = default ∨ ∃ d, read d = .ok value := by
  rw [fieldValue] at h
  split at h
  · exact .inl (Except.ok.inj h).symm
  · exact .inr ⟨_, h⟩

theorem isSound_default : IsSound {} where
  exportTag := ⟨by decide, by decide, by decide⟩
  decoratorTag := ⟨by decide, by decide, by decide⟩
  docLineLimit := by decide
  outputName := by decide

theorem isSound_of_check (h : check entries = .ok c) : IsSound c := by
  obtain ⟨h, -⟩ := check_eq_ok.1 h
  constructor
  · rcases default_or_read h.exportTag with heq | ⟨d, hd⟩
    · exact heq ▸ isSound_default.exportTag
    · exact isTag_of_tagValue hd
  · rcases default_or_read h.decoratorTag with heq | ⟨d, hd⟩
    · exact heq ▸ isSound_default.decoratorTag
    · exact isTag_of_tagValue hd
  · rcases default_or_read h.docLineLimit with heq | ⟨d, hd⟩
    · exact heq ▸ isSound_default.docLineLimit
    · obtain ⟨n, -, hn, heq⟩ := limitValue_eq_ok.1 hd
      omega
  · rcases default_or_read h.outputName with heq | ⟨d, hd⟩
    · exact heq ▸ isSound_default.outputName
    · exact (fileNameValue_eq_ok.1 hd).2

end

/-! ## Reading again -/

/-- No tag begins with white space. -/
def IsSettled (c : Config) : Prop := ¬BeginsBlank c.exportTag ∧ ¬BeginsBlank c.decoratorTag

section
variable {c c' : Config}

theorem ofDatum_toDatum_eq_ok : ofDatum c.toDatum = .ok c' ↔
    Holds (c.entries.map fun (field, value) => (.text field, value)) c' := by
  have hknown : unknownFields (c.entries.map fun (field, value) => (.text field, value)) = [] := rfl
  have hread : ofDatum c.toDatum = (check (c.entries.map fun (field, value) => (.text field, value))).mapError .refused := rfl
  rw [hread, Except.mapError_eq_ok, check_eq_ok, hknown]
  exact and_iff_left rfl

/-- Only the tags can be taken otherwise, or not at all. -/
theorem ofDatum_toDatum (h : IsSound c) : ofDatum c.toDatum = .ok c' ↔
    tagValue (.text c.exportTag) = .ok c'.exportTag ∧ tagValue (.text c.decoratorTag) = .ok c'.decoratorTag ∧
      c' = { c with exportTag := c'.exportTag, decoratorTag := c'.decoratorTag } := by
  have hlimit : limitValue (.int c.docLineLimit) = .ok c.docLineLimit :=
    limitValue_eq_ok.2 ⟨_, rfl, Int.natCast_pos.2 h.docLineLimit, Int.toNat_natCast _⟩
  have hname : fileNameValue (.text c.outputName) = .ok c.outputName := fileNameValue_eq_ok.2 ⟨rfl, h.outputName⟩
  rw [ofDatum_toDatum_eq_ok]
  constructor
  · rintro ⟨h₁, h₂, h₃, h₄, h₅, h₆⟩
    refine ⟨h₁, h₂, ?_⟩
    obtain ⟨exportTag, decoratorTag, docLineLimit, numberType, recordStyle, outputName⟩ := c'
    cases hlimit.symm.trans h₃
    cases h₄
    cases (recordStyleValue_name c.recordStyle).symm.trans h₅
    cases hname.symm.trans h₆
    rfl
  · rintro ⟨h₁, h₂, heq⟩
    rw [heq]
    exact ⟨h₁, h₂, hlimit, rfl, recordStyleValue_name c.recordStyle, hname⟩

theorem ofDatum_toDatum_self (h : IsSound c) : ofDatum c.toDatum = .ok c ↔ IsSettled c := by
  rw [ofDatum_toDatum h, tagValue_again h.exportTag, tagValue_again h.decoratorTag, IsSettled]
  exact and_congr_right fun _ => and_iff_left rfl

/-- What JSON holds of a configuration is its mapping, if no text has a pair of halves. -/
theorem read_save_json (h : ∀ t ∈ [c.exportTag, c.decoratorTag, c.numberType, c.outputName], Datum.Json.Unpaired t) :
    Format.json.codec.read (save .json c) = .ok c.toDatum := by
  simp only [List.forall_mem_cons] at h
  obtain ⟨hexport, hdecorator, hnumber, houtput, -⟩ := h
  have hstyle : Datum.Json.Unpaired (recordStyleName c.recordStyle) := by
    refine Datum.Json.unpaired_of_forall ?_
    cases c.recordStyle <;> decide
  have hkey (key : Text) (hkey : ∀ c ∈ key, c.isHighHalf = false) {d : Datum} (hd : Datum.Json.Scalar d) :
      Datum.Json.Unpaired key ∧ Datum.Json.Scalar d := ⟨Datum.Json.unpaired_of_forall hkey, hd⟩
  have hscalar : ∀ field ∈ c.entries, Datum.Json.Unpaired field.1 ∧ Datum.Json.Scalar field.2 := by
    simp only [entries, List.forall_mem_cons]
    exact ⟨hkey _ (by decide) (.text hexport), hkey _ (by decide) (.text hdecorator), hkey _ (by decide) (.int _),
      hkey _ (by decide) (.text hnumber), hkey _ (by decide) (.text hstyle), hkey _ (by decide) (.text houtput), nofun⟩
  have hread := Datum.Json.parse?_record hscalar
  rw [save, Codec.save, toDatum]
  dsimp only [Format.codec]
  rw [hread]
  rfl

end

/-- A configuration is built again from its own mapping, or loaded from the file it was saved
in, if and only if none of its tags begins with white space, which a mark before the white
space lets through. That holds of any way to write files which reads the mapping back that it
wrote, so for both formats. Otherwise only such tags change, if they are taken at all. What a
JSON file holds is the mapping, unless a text has two halves of a pair side by side. -/
theorem saved_again (entries : List (Datum × Datum)) (c : Config) (h : check entries = .ok c) :
    (ofDatum c.toDatum = .ok c ↔ IsSettled c) ∧
    (∀ c', ofDatum c.toDatum = .ok c' ↔
      tagValue (.text c.exportTag) = .ok c'.exportTag ∧ tagValue (.text c.decoratorTag) = .ok c'.decoratorTag ∧
        c' = { c with exportTag := c'.exportTag, decoratorTag := c'.decoratorTag }) ∧
    (∀ codec : Codec, codec.read (codec.write c.entries) = .ok c.toDatum →
      (codec.load (codec.save c) = .ok c ↔ IsSettled c)) ∧
    (∀ format : Format, format.codec.read (save format c) = .ok c.toDatum →
      (load format (save format c) = .ok c ↔ IsSettled c)) ∧
    ((∀ t ∈ [c.exportTag, c.decoratorTag, c.numberType, c.outputName], Datum.Json.Unpaired t) →
      Format.json.codec.read (save .json c) = .ok c.toDatum) := by
  have hsound := isSound_of_check h
  have hcodec (codec : Codec) (hread : codec.read (codec.write c.entries) = .ok c.toDatum) :
      codec.load (codec.save c) = .ok c ↔ IsSettled c := by
    rw [Codec.load, Codec.save, hread]
    exact ofDatum_toDatum_self hsound
  exact ⟨ofDatum_toDatum_self hsound, fun c' => ofDatum_toDatum hsound, hcodec, fun format => hcodec format.codec,
    read_save_json⟩

/-- A tag that is given with marks and white space around it. -/
theorem saved_again_marked :
    check [(.text "export_tag", .text " @@api ")] = .ok { exportTag := "api" } ∧
      load .json (save .json { exportTag := "api" }) = .ok { exportTag := "api" } := by
  have hcheck : check [(.text "export_tag", .text " @@api ")] = .ok { exportTag := "api" } := by rfl
  have hsettled : IsSettled { exportTag := "api" } := ⟨by simp [BeginsBlank]; decide, by simp [BeginsBlank]; decide⟩
  obtain ⟨-, -, -, hload, hjson⟩ := saved_again _ _ hcheck
  refine ⟨hcheck, (hload .json (hjson ?_)).2 hsettled⟩
  simp only [List.forall_mem_cons]
  refine ⟨?_, ?_, ?_, ?_, nofun⟩ <;> exact Datum.Json.unpaired_of_forall (by decide)

/-- A mark lets white space through that does not come through again, or leaves no tag. -/
theorem saved_again_blank :
    check [(.text "export_tag", .text "@ x")] = .ok { exportTag := " x" } ∧
      ofDatum ({ exportTag := " x" } : Config).toDatum = .ok { exportTag := "x" } ∧
      check [(.text "export_tag", .text "@ @")] = .ok { exportTag := " @" } ∧
      ofDatum ({ exportTag := " @" } : Config).toDatum = .error (.refused [⟨"export_tag", .refused⟩]) := ⟨rfl, rfl, rfl, rfl⟩

end WireSchema.Config
