import WireSchema.Proofs.Layout.Outline
import WireSchema.Proofs.Project.Named
import WireSchema.Proofs.TypeSpec.Vacant
/-!
# Bodies are indented as by a pretty-printer

All that is written of types is made of texts, of parts with separators between them and
of blocks, so it is rendered as a plain pretty-printer prints it: what stands in `d` blocks
is `2 * d` spaces to the right.
-/

namespace WireSchema

open Project

namespace TypeSpec

variable {setting : Setting} {write : Writer} {path : List TypeId} {s s' : Store} {t : TypeId}

/-! ## Layouts of outlines -/

/-- The layout is made like an outline. -/
def Outlined (layout : Layout) : Prop := ∃ o : Outline, layout = o.layout

theorem exists_outlines {parts : List Layout} (h : ∀ part ∈ parts, Outlined part) :
    ∃ os : List Outline, parts = os.map Outline.layout := by
  induction parts with
  | nil => exact ⟨[], rfl⟩
  | cons part rest ih =>
    obtain ⟨o, rfl⟩ := h part List.mem_cons_self
    obtain ⟨os, rfl⟩ := ih fun other hother => h other (List.mem_cons_of_mem _ hother)
    exact ⟨o :: os, rfl⟩

theorem outlined_text (t : Text) : Outlined (.text t) := ⟨.text t, rfl⟩

theorem outlined_join (separator : Text) {parts : List Layout} (h : ∀ part ∈ parts, Outlined part) :
    Outlined (.join separator parts) := by
  obtain ⟨os, rfl⟩ := exists_outlines h
  exact ⟨.joined separator os, by rw [Outline.layout, Outline.layoutAll_eq_map]⟩

theorem outlined_block {fields : List Layout} (hne : fields ≠ []) (h : ∀ field ∈ fields, Outlined field) :
    Outlined (.braced (.statements fields)) := by
  obtain ⟨os, rfl⟩ := exists_outlines h
  cases os with
  | nil => exact absurd rfl hne
  | cons first others =>
    refine ⟨.block first others, ?_⟩
    rw [Outline.layout, Outline.layoutAll_eq_map, List.map_cons]

theorem outlined_decorators (config : Config) (doc : DocComment) :
    ∀ part ∈ decorators config doc, Outlined part := by
  intro part hpart
  rcases List.mem_append.1 hpart with hdescription | htag
  · split at hdescription
    · cases hdescription
    · rw [List.mem_singleton.1 hdescription]
      exact ⟨.doc _, rfl⟩
  · obtain ⟨tag, _, rfl⟩ := List.mem_map.1 htag
    exact outlined_join [] (by simp [outlined_text])

/-! ## Writing types -/

section
variable (hwrite : ∀ path t, Yields Outlined (write path t))

theorem yields_verbatim (t : TypeId) (reason : VerbatimReason) : Yields Outlined (verbatim t reason) :=
  .next fun _ => .next fun _ => .pure (outlined_text _)

include hwrite

theorem yields_reference (t : TypeId) : Yields Outlined (reference setting write path t) := by
  rw [reference]
  split
  · exact .pure (outlined_text _)
  · exact hwrite path t

theorem yields_references (types : List TypeId) :
    Yields (fun parts => ∀ part ∈ parts, Outlined part) (references setting write path types) :=
  .mapM (yields_reference hwrite) types

theorem yields_template (spans : List (Span TypeId)) : Yields Outlined (template setting write path spans) := by
  have hspan (span : Span TypeId) :
      Yields (fun parts => ∀ part ∈ parts, Outlined part) (TypeSpec.span setting write path span) := by
    cases span with
    | chunk t => exact .pure (List.forall_mem_singleton.2 (outlined_text _))
    | hole t =>
      exact (yields_reference hwrite t).bind fun written hwritten => .pure (by simp [outlined_text, hwritten])
  refine (Yields.mapM hspan spans).bind fun parts hparts => .pure (outlined_join [] ?_)
  simpa [outlined_text, or_imp, forall_and] using fun part list hlist hpart => hparts list hlist part hpart

theorem yields_arrayOf (element : TypeId) : Yields Outlined (arrayOf setting write path element) := by
  refine (yields_reference hwrite element).bind fun written hwritten => .next fun node => ?_
  split
  · exact .pure (outlined_join [] (by simp [outlined_text, hwritten]))
  · exact .pure (outlined_join [] (by simp [outlined_text, hwritten]))

theorem yields_application (name : Text) (types : List TypeId) :
    Yields Outlined (application setting write path name types) := by
  refine (yields_references hwrite types).bind fun written hwritten => .pure (outlined_join [] ?_)
  simp [outlined_text, outlined_join ", " hwritten]

theorem yields_instantiation (t : TypeId) (symbol : Option Text) (types : List TypeId) :
    Yields Outlined (instantiation setting write path t symbol types) := by
  cases symbol with
  | none => exact yields_verbatim t .unnamed
  | some name =>
    cases types with
    | nil => exact yields_application hwrite name []
    | cons first rest =>
      rw [instantiation]
      split
      · exact yields_arrayOf hwrite first
      · split
        · exact yields_application hwrite name _
        · exact yields_application hwrite name _

theorem yields_field (q : PropertyId) : Yields Outlined (field setting write path q) := by
  refine .next fun s => ?_
  split
  · exact .pure (outlined_join "\n" (List.forall_mem_nil _))
  next property _ =>
    refine .next fun type => (yields_reference hwrite type).bind fun written hwritten => .pure (outlined_join "\n" ?_)
    rw [List.forall_mem_append]
    refine ⟨outlined_decorators _ _, List.forall_mem_singleton.2 (outlined_join [] ?_)⟩
    simp [outlined_text, hwritten]

omit hwrite in
/-- A body with fields is their block. -/
theorem body_eq_block {ids : List PropertyId} (hne : ids ≠ []) {layout : Layout}
    (hrun : body setting write path ids s = some (layout, s')) :
    ∃ fields, ids.mapM (field setting write path) s = some (fields, s') ∧ fields ≠ [] ∧
      layout = .braced (.statements fields) := by
  rw [body, if_neg (by simpa using hne), Converting.bind_apply, Option.bind_eq_some_iff] at hrun
  obtain ⟨⟨fields, s₁⟩, hfields, hrun⟩ := hrun
  cases hrun
  refine ⟨fields, hfields, fun hnil => ?_, rfl⟩
  have hlength := Converting.length_mapM hfields
  rw [hnil, List.length_nil] at hlength
  exact hne (List.length_eq_zero_iff.1 hlength.symm)

theorem yields_body (ids : List PropertyId) : Yields Outlined (body setting write path ids) := by
  intro s layout s' hrun
  by_cases hne : ids = []
  · subst hne
    cases hrun
    exact outlined_text _
  · obtain ⟨fields, hfields, hne', rfl⟩ := body_eq_block hne hrun
    exact outlined_block hne' (Yields.mapM (yields_field hwrite) ids s fields s' hfields)

theorem yields_convertWith (path : List TypeId) (t : TypeId) : Yields Outlined (convertWith setting write path t) := by
  have henter {step : Converting Layout} (hstep : Yields Outlined step) :
      Yields Outlined (if path.contains t then verbatim t .recursive else step) := by
    split
    · exact yields_verbatim t .recursive
    · exact hstep
  refine .next fun node => ?_
  cases node.shape with
  | string => exact .pure (outlined_text _)
  | number => exact .pure (outlined_text _)
  | boolean => exact .pure (outlined_text _)
  | template spans => exact yields_template hwrite spans
  | array element =>
    cases element with
    | none => exact henter (yields_verbatim t .unsupported)
    | some element => exact henter (yields_arrayOf hwrite element)
  | tuple elements =>
    refine henter ((yields_references hwrite elements).bind fun written hwritten => .pure (outlined_join [] ?_))
    simp [outlined_text, outlined_join ", " hwritten]
  | instantiation arguments => exact henter (yields_instantiation hwrite t node.symbol arguments)
  | object => exact henter (.next fun ids => yields_body hwrite ids)
  | union members =>
    exact henter ((yields_references hwrite members).bind fun written hwritten => .pure (outlined_join " | " hwritten))
  | intersection members => exact henter (.next fun ids => yields_body hwrite ids)
  | other => exact henter (yields_verbatim t .unsupported)

end

/-- Whatever is written of a type is made like an outline. -/
theorem yields_convertIn (depth : Nat) (path : List TypeId) (t : TypeId) :
    Yields Outlined (convertIn setting depth path t) := by
  induction depth generalizing path t with
  | zero => exact fun s layout s' hrun => nomatch hrun
  | succ depth ih => exact yields_convertWith ih path t

/-! ## What a plain pretty-printer writes -/

/-- The text of a field: its decorators, each from a new row on, then its name, its mark
and its type. -/
def fieldText (config : Config) (property : Property Resolution) (type : Text) : Text :=
  let mark : Text := if property.isOptional then "?" else []
  Text.unrows ((decorators config property.docs).map (·.render) ++ [fieldName property.name ++ mark ++ ": " ++ type])

/-- How the fields are found of a type that is written between braces. -/
def fieldsOf? (setting : Setting) (s : Store) (t : TypeId) : Option (Converting (List PropertyId)) :=
  match (s.node t).shape with
  | .object => some (setting.project.properties t)
  | .intersection members => some (mergedProperties setting (s.node t).text members)
  | _ => none

/-- What the statement of a model begins with. -/
def opening (model : Model) (isModel : Bool) : Text :=
  let head := model.displayName ++ placeholders model.parameterCount
  if isModel then "model " ++ head ++ " " else "alias " ++ head ++ " = "

/-- Types are written as by a plain pretty-printer. -/
structure PrettyPrinted (setting : Setting) : Prop where
  fields : ∀ (write : Writer) (path : List TypeId) (q : PropertyId) (s s' : Store) (layout : Layout)
    (property : Property Resolution), s.property? q = some property → field setting write path q s = some (layout, s') →
    ∃ type s₁ written, setting.project.propertyType q s = (type, s₁) ∧
      reference setting write path type s₁ = some (written, s') ∧
      layout.render = fieldText setting.config property written.render
  /-- Each field stands between the braces with a semicolon, its rows behind two spaces. -/
  bodies : ∀ (depth : Nat) (path : List TypeId) (t : TypeId) (s s' : Store) (layout : Layout)
    (find : Converting (List PropertyId)), fieldsOf? setting s t = some find → t ∉ path →
    convertIn setting (depth + 1) path t s = some (layout, s') → ∃ ids s₁, find s = some (ids, s₁) ∧
      (ids ≠ [] → ∃ parts, ids.mapM (field setting (convertIn setting depth) (t :: path)) s₁ = some (parts, s') ∧
        layout.render =
          Text.unrows (("\x7b" : Text) :: (parts.flatMap fun part => Layout.fieldRows part.render) ++ [("\x7d" : Text)]))
  /-- Each row is behind two spaces for each block that it stands in. -/
  types : ∀ (depth : Nat) (path : List TypeId) (t : TypeId) (s s' : Store) (layout : Layout),
    convertIn setting depth path t s = some (layout, s') →
    ∃ o : Outline, layout = o.layout ∧ layout.render = Text.unrows (o.rows.map Row.print)
  /-- It is so in the statements of models, where all blank rows are empty. -/
  models : ∀ (calls : List (Text × Text)) (config : Config) (s₀ : Store) (model : Model),
    model ∈ (Registry.build (Project.after calls) config s₀).1.models → ∀ (s s' : Store) (layout : Layout),
    convertModel setting model s = some (layout, s') → ∃ (o : Outline) (s₁ : Store),
      convert setting model.type s = some (o.layout, s₁) ∧
      layout.render = Text.unrows ((decorators setting.config model.docs).map (·.render) ++
        (o.statementRows (opening model (isModelLike setting.project model.type s₁).1)).map Row.print)

theorem render_field (config : Config) (property : Property Resolution) (written : Layout) :
    (Layout.lines (decorators config property.docs ++ [.concat [.text (fieldName property.name),
      .text (if property.isOptional then "?" else []), ": ", written]])).render =
      fieldText config property written.render := by
  rw [Layout.lines, Layout.render, Layout.renderAll_eq_map, List.map_append, List.map_singleton, render_concat]
  show Text.unrows _ = _
  simp [fieldText, Layout.render]

theorem line_ofNat (n : Nat) : CodePoint.ofChar '\n' ∉ Text.ofNat n := by
  intro hmem
  obtain ⟨c, hc, hfeed⟩ := List.mem_map.1 hmem
  have hdigit := CodePoint.isBlank_ofChar (Nat.isDigit_of_mem_toDigits (by decide) (by decide) hc)
  rw [hfeed] at hdigit
  exact absurd hdigit (by decide)

theorem line_join {separator : Text} (hseparator : CodePoint.ofChar '\n' ∉ separator) {parts : List Text}
    (h : ∀ t ∈ parts, CodePoint.ofChar '\n' ∉ t) : CodePoint.ofChar '\n' ∉ Text.join separator parts := by
  match parts with
  | [] => exact List.not_mem_nil
  | [t] => exact h t List.mem_cons_self
  | t :: u :: rest =>
    rw [Text.join, List.mem_append, List.mem_append, not_or, not_or]
    exact ⟨⟨h t List.mem_cons_self, hseparator⟩, line_join hseparator fun v hv => h v (List.mem_cons_of_mem t hv)⟩

theorem line_placeholders (count : Int) : CodePoint.ofChar '\n' ∉ placeholders count := by
  rw [placeholders]
  split
  · exact List.not_mem_nil
  · split
    · decide
    · have hname : ∀ t ∈ (List.range count.toNat).map fun i => "T" ++ Text.ofNat (i + 1), CodePoint.ofChar '\n' ∉ t := by
        refine List.forall_mem_map.2 fun i _ => ?_
        rw [List.mem_append, not_or]
        exact ⟨by decide, line_ofNat (i + 1)⟩
      have hnames := line_join (by decide : CodePoint.ofChar '\n' ∉ Text.ofString ", ") hname
      simp only [List.mem_append, not_or]
      exact ⟨⟨by decide, hnames⟩, by decide⟩

/-- The statement of a model is rendered as its rows are printed. -/
theorem rows_statement {model : Model}
    (hhead : CodePoint.ofChar '\n' ∉ model.displayName ++ placeholders model.parameterCount) (o : Outline) (isModel : Bool) :
    Text.rows (if isModel then
        Layout.template "model " [(.text (model.displayName ++ placeholders model.parameterCount), " "), (o.layout, ";")]
      else
        Layout.template "alias " [(.text (model.displayName ++ placeholders model.parameterCount), " = "),
          (o.layout, ";")]).render =
      (o.statementRows (opening model isModel)).map Row.print := by
  cases isModel with
  | true => exact Outline.rows_statement (by decide) (by decide) (by decide) hhead (by decide) o
  | false => exact Outline.rows_statement (by decide) (by decide) (by decide) hhead (by decide) o

/-- Whatever a conversion goes by, it writes types as a plain pretty-printer does. -/
theorem pretty_printed (setting : Setting) : PrettyPrinted setting where
  fields write path q s s' layout property hproperty hrun := by
    rw [field_eq hproperty, typed, Converting.bind_apply, Option.bind_eq_some_iff] at hrun
    obtain ⟨⟨type, s₁⟩, htype, hrun⟩ := hrun
    rw [Converting.bind_apply, Option.bind_eq_some_iff] at hrun
    obtain ⟨⟨written, s₂⟩, hwritten, hrun⟩ := hrun
    cases hrun
    exact ⟨type, s₁, written, Option.some.inj htype, hwritten, render_field _ _ _⟩
  bodies depth path t s s' layout find hfind hpath hrun := by
    have hstep : (find >>= body setting (convertIn setting depth) (t :: path)) s = some (layout, s') := by
      rw [convertIn, convertWith_apply] at hrun
      rw [fieldsOf?] at hfind
      split at hfind
      next hshape =>
        cases hfind
        simpa [hshape, hpath] using hrun
      next members hshape =>
        cases hfind
        simpa [hshape, hpath] using hrun
      · cases hfind
    rw [Converting.bind_apply, Option.bind_eq_some_iff] at hstep
    obtain ⟨⟨ids, s₁⟩, hfound, hbody⟩ := hstep
    refine ⟨ids, s₁, hfound, fun hne => ?_⟩
    obtain ⟨parts, hparts, hparts', rfl⟩ := body_eq_block hne hbody
    refine ⟨parts, hparts, ?_⟩
    rw [← Layout.rows_block hparts', Text.unrows_rows]
  types depth path t s s' layout hrun := by
    obtain ⟨o, rfl⟩ := yields_convertIn depth path t s layout s' hrun
    refine ⟨o, rfl, ?_⟩
    rw [← Outline.rows_render, Text.unrows_rows]
  models calls config s₀ model hmodel s s' layout hrun := by
    rw [convertModel, Converting.bind_apply, Option.bind_eq_some_iff] at hrun
    obtain ⟨⟨written, s₁⟩, hwritten, hrun⟩ := hrun
    obtain ⟨o, rfl⟩ : Outlined written := yields_convertIn _ [] model.type s written s₁ hwritten
    refine ⟨o, s₁, hwritten, ?_⟩
    -- the head of the statement is one line
    have hname := Registry.line_displayName hmodel
    have hhead : CodePoint.ofChar '\n' ∉ model.displayName ++ placeholders model.parameterCount := by
      rw [List.mem_append, not_or]
      exact ⟨hname, line_placeholders _⟩
    rw [Converting.bind_apply, Converting.lift_apply, Option.bind_some] at hrun
    generalize isModelLike setting.project model.type s₁ = answer at hrun ⊢
    obtain ⟨isModel, s₂⟩ := answer
    cases hrun
    rw [Layout.lines, Layout.render, Layout.renderAll_eq_map, List.map_append, List.map_singleton]
    show Text.unrows _ = _
    rw [← rows_statement hhead, Text.unrows_concat_rows]

/-! ## An object in an object -/

/-- An alias of an object whose documented field is an array of objects. -/
def nestedCalls : List (Text × Text) :=
  [("u", "/** @model */ type M = \x7b /** a\nb */ x: \x7b y: string \x7d[] \x7d")]

/-- The type of the field. -/
def nestedObjects : TypeExpr :=
  .array (.object [{ name := "y", isOptional := false, docs := {}, type := .keyword "string" }] "\x7b y: string \x7d")
    "\x7b y: string \x7d[]"

/-- The type of the alias. -/
def nestedObject : TypeExpr :=
  .object [{ name := "x", isOptional := false, docs := { description := "a\nb" }, type := nestedObjects }]
    "\x7b x: \x7b y: string \x7d[] \x7d"

def nestedProject : Project where
  units := [{ name := "u", declarations := [
    { name := "M", docs := { tags := [{ name := "model", text := [] }] }, body := .typeAlias [] nestedObject }] }]

set_option maxRecDepth 4000 in
theorem after_nestedCalls : Project.after nestedCalls = nestedProject := by
  have htokens : Source.tokenize "/** @model */ type M = \x7b /** a\nb */ x: \x7b y: string \x7d[] \x7d" 0
      ("/** @model */ type M = \x7b /** a\nb */ x: \x7b y: string \x7d[] \x7d" : Text).length =
      .ok [flatToken .word "type" 14 18 true ["/** @model */"], flatToken .word "M" 19 20 true [],
        flatToken .mark "=" 21 22 true [], flatToken .mark "\x7b" 23 24 true [],
        { flatToken .word "x" 36 37 true ["/** a\nb */"] with lineBreak := true },
        flatToken .mark ":" 37 38 false [], flatToken .mark "\x7b" 39 40 true [], flatToken .word "y" 41 42 true [],
        flatToken .mark ":" 42 43 false [], flatToken .word "string" 44 50 true [], flatToken .mark "\x7d" 51 52 true [],
        flatToken .mark "[" 52 53 false [], flatToken .mark "]" 53 54 false [], flatToken .mark "\x7d" 55 56 true [],
        flatToken .endOfInput [] 56 56 false []] := by cbv
  refine Project.after_parse ?_
  rw [Declaration.parse]
  exact (congrArg (· >>= _) htokens).trans rfl

/-- What a conversion of the alias goes by. -/
def nestedSetting : Setting where
  project := nestedProject
  registry := (Registry.build nestedProject {} {}).1

/-- What is written for the alias. -/
def nestedText : Text :=
  "model M \x7b\n  @doc(\"\"\"\n  a\n  b\n  \"\"\")\n  x: \x7b\n    y: string;\n  \x7d[];\n\x7d;"

/-- The rows of the documentation stand in one block, the field of the inner object in two. -/
theorem pretty_printed_nested : ∃ model ∈ (Registry.build (Project.after nestedCalls) {} {}).1.models,
    ∃ (layout : Layout) (s' : Store) (o : Outline) (s₁ : Store),
      convertModel nestedSetting model (Registry.build nestedProject {} {}).2 = some (layout, s') ∧
      convert nestedSetting model.type (Registry.build nestedProject {} {}).2 = some (o.layout, s₁) ∧
      layout.render = Text.unrows ((decorators {} model.docs).map (·.render) ++
        (o.statementRows (opening model (isModelLike nestedProject model.type s₁).1)).map Row.print) ∧
      layout.render = nestedText := by
  have htexts : (nestedSetting.registry.models.map fun model =>
      (convertModel nestedSetting model (Registry.build nestedProject {} {}).2).map (·.1.render)) =
      [some nestedText] := by cbv
  obtain ⟨model, hmodels, hrun⟩ := List.map_eq_singleton_iff.1 htexts
  obtain ⟨⟨layout, s'⟩, hrun, htext⟩ := Option.map_eq_some_iff.1 hrun
  have hmodel : model ∈ (Registry.build (Project.after nestedCalls) {} {}).1.models := by
    rw [after_nestedCalls]
    exact hmodels ▸ List.mem_singleton_self model
  obtain ⟨o, s₁, hwritten, hrows⟩ := (pretty_printed nestedSetting).models _ _ _ model hmodel _ s' layout hrun
  exact ⟨model, hmodel, layout, s', o, s₁, hrun, hwritten, hrows, htext⟩

end TypeSpec

end WireSchema
