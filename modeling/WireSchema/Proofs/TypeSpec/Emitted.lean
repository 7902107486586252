import WireSchema.Proofs.Layout.Blank
import WireSchema.Proofs.Project.History
import WireSchema.Proofs.TypeSpec.Answered
import WireSchema.Proofs.TypeSpec.Written
/-!
# What comes out of a project

The registry has one model for each exported declaration, in the order of the
declarations, whatever their names are and whichever types they share. The
section of a unit has the statements of the unit's own models in that order, and
none of them is left out for being blank.
-/

namespace WireSchema

open Project TypeSpec

variable {p : Project} {config : Config} {s s' : Store} {setting : Setting}

/-! ## Exported declarations -/

/-- The documentation of the declaration has the export tag. -/
def Declaration.isExported (config : Config) (d : Declaration) : Bool := d.docs.hasTag config.exportTag

/-- The declaration of an identity is there and is exported. -/
def Project.exports (p : Project) (config : Config) (id : DeclarationId) : Bool :=
  (p.declaration? id).any (·.isExported config)

/-- The identities of the exported declarations of a unit at a place, in the
order of the source. -/
def SourceUnit.exported (config : Config) (unit : SourceUnit) (place : Nat) : List DeclarationId :=
  ((List.range unit.declarations.length).filter fun index => unit.declarations[index]?.any (·.isExported config)).map
    fun index => { unit := place, index }

/-- The identities of the exported declarations, unit by unit. -/
def Project.exported (p : Project) (config : Config) : List (List DeclarationId) :=
  p.units.zipIdx.map fun (unit, place) => unit.exported config place

theorem Registry.isSome_exportName? (config : Config) (d : Declaration) :
    (exportName? config d).isSome = d.isExported config := by
  rw [exportName?, Declaration.isExported, DocComment.hasTag, DocComment.tagsNamed]
  cases htags : d.docs.tags.filter (·.name == config.exportTag) with
  | nil =>
    rw [List.filter_eq_nil_iff] at htags
    exact (List.any_eq_false.2 htags).symm
  | cons tag rest =>
    have htag : tag ∈ d.docs.tags.filter (·.name == config.exportTag) := htags ▸ List.mem_cons_self
    exact (List.any_eq_true.2 ⟨tag, List.mem_filter.1 htag⟩).symm

theorem Project.flatten_exported (p : Project) (config : Config) :
    (p.exported config).flatten = p.declarationIds.filter (p.exports config) := by
  have hunit (entry : SourceUnit × Nat) (hentry : entry ∈ p.units.zipIdx) : entry.1.exported config entry.2 =
      ((List.range entry.1.declarations.length).map fun index => ⟨entry.2, index⟩).filter (p.exports config) := by
    have hunit : p.unit? entry.2 = some entry.1 := List.mem_zipIdx_iff_getElem?.1 hentry
    rw [SourceUnit.exported, List.filter_map]
    congr 2
    funext index
    rw [Function.comp, Project.exports, declaration?, hunit]
    rfl
  rw [declarationIds, List.filter_flatMap, List.flatMap_def, Project.exported]
  congr 1
  exact List.map_congr_left hunit

theorem Project.nodup_exported (p : Project) (config : Config) : (p.exported config).flatten.Nodup := by
  rw [flatten_exported]
  exact (nodup_declarationIds p).filter _

/-! ## The registry, unit by unit -/

section
variable {α β : Type}

/-- A list whose images come in blocks comes in blocks. -/
theorem exists_blocks {f : α → β} {l : List α} {blocks : List (List β)} (h : l.map f = blocks.flatten) :
    ∃ parts : List (List α), parts.flatten = l ∧ parts.map (·.map f) = blocks := by
  induction blocks generalizing l with
  | nil => exact ⟨[], (List.map_eq_nil_iff.1 h).symm, rfl⟩
  | cons block rest ih =>
    rw [List.flatten_cons] at h
    obtain ⟨front, back, rfl, hfront, hback⟩ := List.map_eq_append_iff.1 h
    obtain ⟨parts, rfl, hparts⟩ := ih hback
    exact ⟨front :: parts, rfl, by rw [List.map_cons, hfront, hparts]⟩

/-- Where the members of each block have its number for a key, those with the key
are the members of the block. -/
theorem filter_flatten_eq_getElem? {key : α → Nat} {blocks : List (List α)} {first : Nat}
    (h : ∀ i block, blocks[i]? = some block → ∀ a ∈ block, key a = first + i) (i : Nat) :
    blocks.flatten.filter (key · == first + i) = blocks[i]?.getD [] := by
  induction blocks generalizing first i with
  | nil => rfl
  | cons block rest ih =>
    have hblock (a : α) (ha : a ∈ block) : key a = first := h 0 block rfl a ha
    have hrest (j : Nat) (b : List α) (hb : rest[j]? = some b) (a : α) (ha : a ∈ b) : key a = first + 1 + j := by
      rw [h (j + 1) b hb a ha, Nat.add_assoc, Nat.add_comm 1 j]
    rw [List.flatten_cons, List.filter_append]
    cases i with
    | zero =>
      have hnone : rest.flatten.filter (key · == first + 0) = [] := by
        refine List.filter_eq_nil_iff.2 fun a ha hkey => ?_
        obtain ⟨b, hb, hab⟩ := List.mem_flatten.1 ha
        obtain ⟨j, hj⟩ := List.mem_iff_getElem?.1 hb
        rw [beq_iff_eq, hrest j b hj a hab] at hkey
        omega
      rw [hnone, List.append_nil]
      exact List.filter_eq_self.2 fun a ha => beq_iff_eq.2 (hblock a ha)
    | succ i =>
      have hnone : block.filter (key · == first + (i + 1)) = [] := by
        refine List.filter_eq_nil_iff.2 fun a ha hkey => ?_
        rw [beq_iff_eq, hblock a ha] at hkey
        omega
      rw [hnone, List.nil_append, ← Nat.add_assoc, Nat.add_right_comm]
      exact ih hrest i

end

namespace Registry

theorem origin_modelOf? (p : Project) (config : Config) (id : DeclarationId) (s : Store) :
    (modelOf? p config id s).1.map (·.origin) = if p.exports config id then some id else none := by
  rw [modelOf?, Project.exports]
  cases p.declaration? id with
  | none => rfl
  | some d =>
    rw [Option.any_some, ← isSome_exportName?]
    simp only
    cases exportName? config d with
    | none => rfl
    | some name => rfl

theorem origins_modelOf? (p : Project) (config : Config) (ids : List DeclarationId) (s : Store) :
    ((ids.mapM (modelOf? p config) s).1.filterMap id).map (·.origin) = ids.filter (p.exports config) := by
  induction ids generalizing s with
  | nil => rfl
  | cons d rest ih =>
    have hfirst := origin_modelOf? p config d s
    rw [Resolving.mapM_cons, List.filter_cons]
    cases hfound : (modelOf? p config d s).1 with
    | none =>
      rw [hfound] at hfirst
      split at hfirst
      next => cases hfirst
      next hexports =>
        rw [if_neg hexports]
        exact ih _
    | some model =>
      rw [hfound] at hfirst
      split at hfirst
      next hexports =>
        have horigin : model.origin = d := Option.some.inj hfirst
        rw [if_pos hexports, List.filterMap_cons_some (show id (some model) = some model from rfl), List.map_cons,
          ih, horigin]
      next => cases hfirst

/-- The models are those of the exported declarations, in order. -/
theorem origins_build (p : Project) (config : Config) (s : Store) :
    (build p config s).1.models.map (·.origin) = (p.exported config).flatten := by
  rw [flatten_exported]
  exact origins_modelOf? p config p.declarationIds s

/-- The models come unit by unit, as the exported declarations do. -/
theorem exists_modelsIn (p : Project) (config : Config) (s : Store) :
    (List.range p.units.length).flatMap (build p config s).1.modelsIn = (build p config s).1.models ∧
      (List.range p.units.length).map (fun place => ((build p config s).1.modelsIn place).map (·.origin)) =
        p.exported config := by
  obtain ⟨blocks, hblocks, horigins⟩ := exists_blocks (origins_build p config s)
  have hlength : blocks.length = p.units.length := by
    rw [← List.length_map (·.map (·.origin)), horigins, Project.exported, List.length_map, List.length_zipIdx]
  have hkey (i : Nat) (block : List Model) (hblock : blocks[i]? = some block) (model : Model) (hmodel : model ∈ block) :
      model.origin.unit = 0 + i := by
    have hexported : (p.exported config)[i]? = some (block.map (·.origin)) := by
      rw [← horigins, List.getElem?_map, hblock]
      rfl
    rw [Project.exported, List.getElem?_map, List.getElem?_zipIdx, Option.map_map, Option.map_eq_some_iff] at hexported
    obtain ⟨unit, _, hunit⟩ := hexported
    obtain ⟨index, _, horigin⟩ := List.mem_map.1 (hunit ▸ List.mem_map_of_mem hmodel)
    rw [← horigin]
  have hmodels (place : Nat) : (build p config s).1.modelsIn place = blocks[place]?.getD [] := by
    rw [modelsIn, ← hblocks]
    have hkeyed := filter_flatten_eq_getElem? hkey place
    rwa [Nat.zero_add] at hkeyed
  have hall : (List.range p.units.length).map (build p config s).1.modelsIn = blocks := by
    refine List.ext_getElem? fun i => ?_
    rw [List.getElem?_map]
    by_cases hi : i < p.units.length
    · rw [List.getElem?_range hi, Option.map_some, hmodels, List.getElem?_eq_getElem (hlength.symm ▸ hi), Option.getD_some]
    · have hlen : (List.range p.units.length).length ≤ i := by rw [List.length_range]; exact Nat.le_of_not_lt hi
      rw [List.getElem?_eq_none hlen, List.getElem?_eq_none (hlength ▸ Nat.le_of_not_lt hi), Option.map_none]
  refine ⟨by rw [List.flatMap_def, hall, hblocks], ?_⟩
  rw [← horigins, ← hall, List.map_map]
  rfl

/-- What the registry has for a declaration is described by it, and has its type. -/
theorem modelOf?_exports (config : Config) (id : DeclarationId) (w : Stage p) :
    ∃ found w', modelOf? p config id w.store = (found, w'.store) ∧ w.LeadsTo w' ∧
      ∀ model, found = some model → ∃ d, Exports p config w'.store model d := by
  have hstay : w.LeadsTo w := .refl w.store w.chart
  rw [modelOf?]
  cases hd : p.declaration? id with
  | none => exact ⟨none, w, rfl, hstay, fun model hmodel => by cases hmodel⟩
  | some d =>
    simp only
    cases hname : exportName? config d with
    | none => exact ⟨none, w, rfl, hstay, fun model hmodel => by cases hmodel⟩
    | some displayName =>
      obtain ⟨t, w', hrun, hleads, hdeclared⟩ := w.declarationType ⟨d, hd⟩
      simp only
      rw [Resolving.bind_apply, hrun]
      refine ⟨_, w', rfl, hleads, fun model hmodel => ?_⟩
      cases hmodel
      exact ⟨d, hd, hname, hdeclared, rfl, rfl⟩

theorem build_exports (config : Config) (w : Stage p) :
    ∀ model ∈ (build p config w.store).1.models, ∃ d, Exports p config (build p config w.store).2 model d := by
  obtain ⟨found, w₁, hrun, _, hfound⟩ := Stage.mapM
    (fun hleads hone model hmodel => (hone model hmodel).imp fun _ hd => hd.mono hleads.toExtends)
    (modelOf?_exports config) p.declarationIds w
  obtain ⟨w₂, hstore, hleads⟩ := w₁.events (.registered (found.filterMap id).length :: w₁.store.events)
  have hbuilt : build p config w.store = ({ models := found.filterMap id }, w₂.store) := by
    rw [build, Resolving.bind_apply, hrun, hstore]
    rfl
  rw [hbuilt]
  intro model hmodel
  obtain ⟨one, hone, hmodel⟩ := List.mem_filterMap.1 hmodel
  obtain ⟨d, hd⟩ := hfound one hone model hmodel
  exact ⟨d, hd.mono hleads.toExtends⟩

end Registry

/-! ## The run -/

namespace TypeSpec

/-- Models are converted one after the other, with nothing but reports between
them. -/
inductive Emits (setting : Setting) : Store → List (Model × Layout) → Store → Prop where
  | done (s : Store) : Emits setting s [] s
  | report {s s' : Store} {emitted : List (Model × Layout)} (event : Event) :
    Emits setting { s with events := event :: s.events } emitted s' → Emits setting s emitted s'
  | model {s s₁ s' : Store} {model : Model} {layout : Layout} {emitted : List (Model × Layout)} :
    convertModel setting model s = some (layout, s₁) → Emits setting s₁ emitted s' →
      Emits setting s ((model, layout) :: emitted) s'

/-- A statement has its keyword, whatever the type is written as. -/
theorem visible_convertModel {model : Model} {layout : Layout} (h : convertModel setting model s = some (layout, s')) :
    Text.isBlank layout.render = false := by
  unfold convertModel at h
  rw [Converting.bind_apply, Option.bind_eq_some_iff] at h
  obtain ⟨⟨written, s₁⟩, _, h⟩ := h
  rw [Converting.bind_apply, Converting.lift_apply, Option.bind_some] at h
  split at h
  · cases h
    exact Layout.isBlank_join "\n" (List.mem_append_right _ List.mem_cons_self) (Layout.isBlank_template (by decide) _)
  · cases h
    exact Layout.isBlank_join "\n" (List.mem_append_right _ List.mem_cons_self) (Layout.isBlank_template (by decide) _)

namespace Emits

variable {s'' : Store} {emitted more : List (Model × Layout)}

theorem append (h : Emits setting s emitted s') (h' : Emits setting s' more s'') :
    Emits setting s (emitted ++ more) s'' := by
  induction h with
  | done s => exact h'
  | report event _ ih => exact .report event (ih h')
  | model hmodel _ ih => exact .model hmodel (ih h')

theorem visible (h : Emits setting s emitted s') {model : Model} {layout : Layout} (hmem : (model, layout) ∈ emitted) :
    Text.isBlank layout.render = false := by
  induction h with
  | done s => cases hmem
  | report event _ ih => exact ih hmem
  | model hfirst _ ih =>
    rcases List.mem_cons.1 hmem with hsame | hmem
    · cases hsame
      exact visible_convertModel hfirst
    · exact ih hmem

theorem mapM {models : List Model} {layouts : List Layout}
    (h : models.mapM (convertModel setting) s = some (layouts, s')) :
    ∃ emitted, Emits setting s emitted s' ∧ emitted.map (·.1) = models ∧ emitted.map (·.2) = layouts := by
  induction models generalizing s layouts with
  | nil =>
    cases h
    exact ⟨[], .done _, rfl, rfl⟩
  | cons model rest ih =>
    rw [List.mapM_cons] at h
    obtain ⟨⟨layout, s₁⟩, hmodel, h⟩ := Option.bind_eq_some_iff.1 h
    obtain ⟨⟨others, s₂⟩, hrest, h⟩ := Option.bind_eq_some_iff.1 h
    cases h
    obtain ⟨emitted, hemits, hmodels, hlayouts⟩ := ih hrest
    exact ⟨(model, layout) :: emitted, .model hmodel hemits, by rw [List.map_cons, hmodels],
      by rw [List.map_cons, hlayouts]⟩

end Emits

end TypeSpec

namespace Document

/-- The section of a unit that the models come out in. -/
def sectionOf (name : Text) (emitted : List (Model × Layout)) : Section :=
  .converted name (Text.join "\n\n" (emitted.map (·.2.render)))
    ((Layout.stanzas (emitted.map (·.2))).attach {}).usings

/-- No stanza is dropped. -/
theorem render_stanzas {parts : List Layout} (h : ∀ part ∈ parts, Text.isBlank part.render = false) :
    (Layout.stanzas parts).render = Text.join "\n\n" (parts.map (·.render)) := by
  rw [Layout.stanzas, Layout.render, Arrangement.combine, Layout.renderAll_eq_map]
  congr 1
  refine List.filter_eq_self.2 fun text htext => ?_
  obtain ⟨part, hpart, rfl⟩ := List.mem_map.1 htext
  rw [h part hpart]
  rfl

theorem convertUnit_emits {name : Text} {place : Nat} {result : Section}
    (hplace : setting.project.findUnit? name = some place) (h : convertUnit setting name s = some (result, s')) :
    ∃ emitted, Emits setting s emitted s' ∧ emitted.map (·.1) = setting.registry.modelsIn place ∧
      result = sectionOf name emitted := by
  rw [convertUnit, hplace] at h
  obtain ⟨⟨layouts, s₁⟩, hmodels, h⟩ := Option.bind_eq_some_iff.1 h
  obtain ⟨emitted, hemits, hemitted, rfl⟩ := Emits.mapM hmodels
  cases h
  refine ⟨emitted, ?_, hemitted, ?_⟩
  · rw [← List.append_nil emitted]
    exact hemits.append (.report _ (.done _))
  · have hvisible (part : Layout) (hpart : part ∈ emitted.map (·.2)) : Text.isBlank part.render = false := by
      obtain ⟨⟨model, layout⟩, hmem, rfl⟩ := List.mem_map.1 hpart
      exact hemits.visible hmem
    rw [sectionOf, render_stanzas hvisible, List.map_map]
    rfl

theorem convertUnits_emits {places : List Nat} {name : Nat → Text} {sections : List Section}
    (hplaces : ∀ place ∈ places, setting.project.findUnit? (name place) = some place)
    (h : (places.map name).mapM (convertUnit setting) s = some (sections, s')) :
    ∃ blocks : List (List (Model × Layout)), Emits setting s blocks.flatten s' ∧
      blocks.map (·.map (·.1)) = places.map setting.registry.modelsIn ∧
      sections = List.zipWith sectionOf (places.map name) blocks := by
  induction places generalizing s sections with
  | nil =>
    cases h
    exact ⟨[], .done _, rfl, rfl⟩
  | cons place rest ih =>
    rw [List.map_cons, List.mapM_cons] at h
    obtain ⟨⟨result, s₁⟩, hfirst, h⟩ := Option.bind_eq_some_iff.1 h
    obtain ⟨⟨others, s₂⟩, hrest, h⟩ := Option.bind_eq_some_iff.1 h
    cases h
    obtain ⟨block, hblock, hmodels, rfl⟩ := convertUnit_emits (hplaces place List.mem_cons_self) hfirst
    obtain ⟨blocks, hblocks, hothers, rfl⟩ := ih (fun other hother => hplaces other (List.mem_cons_of_mem _ hother)) hrest
    refine ⟨block :: blocks, hblock.append hblocks, ?_, rfl⟩
    rw [List.map_cons, hmodels, hothers, List.map_cons]

/-- What the conversion of all units comes to, once the registry is built. -/
structure AllEmitted (p : Project) (config : Config) (built : Registry × Store) (blocks : List (List (Model × Layout)))
    (sections : List Section) (s' : Store) : Prop where
  /-- A model is what its declaration makes of it, with the declaration's very type. -/
  registry : ∀ model ∈ built.1.models, ∃ d, Registry.Exports p config built.2 model d
  /-- No declaration has two models. -/
  once : (built.1.models.map (·.origin)).Nodup
  /-- Each unit has a block, with the exported declarations of the unit in the order
  of its source. -/
  origins : blocks.map (·.map (·.1.origin)) = p.exported config
  /-- All blocks together have the models of the registry in its order. -/
  models : blocks.flatten.map (·.1) = built.1.models
  /-- What is in the blocks is what converting the models gave, one after the other. -/
  emitted : Emits (settingFrom p config built) built.2 blocks.flatten s'
  visible : ∀ model layout, (model, layout) ∈ blocks.flatten → Text.isBlank layout.render = false
  /-- The section of each unit is the text of its block, with blank rows between
  the statements. -/
  sections : sections = List.zipWith sectionOf (p.units.map (·.name)) blocks

theorem findUnit?_unitName (h : (p.units.map (·.name)).Nodup) {place : Nat} (hplace : place < p.units.length) :
    p.findUnit? (p.unitName place) = some place := by
  have hunit : p.units[place]? = some p.units[place] := List.getElem?_eq_getElem hplace
  have hname : p.unitName place = p.units[place].name := by
    rw [unitName, unit?, hunit]
    rfl
  have hfound : p.units.findIdx? (·.name == p.unitName place) = some place := by
    refine List.findIdx?_eq_some_iff_getElem.2 ⟨hplace, by rw [hname]; exact beq_self_eq_true _, fun j hj hsame => ?_⟩
    rw [hname, beq_iff_eq] at hsame
    have hlt : j < (p.units.map (·.name)).length := by rw [List.length_map]; exact Nat.lt_trans hj hplace
    have hlast : place < (p.units.map (·.name)).length := by rwa [List.length_map]
    have hplaces : (p.units.map (·.name))[j] = (p.units.map (·.name))[place] := by
      rw [List.getElem_map, List.getElem_map]
      exact hsame
    exact absurd ((h.getElem_inj_iff).1 hplaces) (Nat.ne_of_lt hj)
  rw [findUnit?, hfound]

/-- Wherever asking has got to, converting all units emits every exported
declaration once, in the section of its own unit. -/
theorem exported_emitted (calls : List (Text × Text)) (config : Config) {news : List Question} {s : Store}
    (h : (Project.after calls).Reached news s) : ∃ blocks sections s',
    convertUnits (Project.after calls) config ((Project.after calls).units.map (·.name)) s = some (sections, s') ∧
      AllEmitted (Project.after calls) config (Registry.build (Project.after calls) config s) blocks sections s' := by
  obtain ⟨w, rfl, _⟩ := h.exists_stage
  have hdistinct := nodup_after calls
  generalize Project.after calls = p at w hdistinct ⊢
  obtain ⟨sections, w', hsections, _⟩ := convertUnits_answers config (p.units.map (·.name)) w
  have hnames : p.units.map (·.name) = (List.range p.units.length).map p.unitName := by
    refine List.ext_getElem (by simp) fun i hi hi' => ?_
    rw [List.getElem_map, List.getElem_map, List.getElem_range, unitName, unit?,
      List.getElem?_eq_getElem (by simpa using hi)]
    rfl
  have hrun : ((List.range p.units.length).map p.unitName).mapM
      (convertUnit (settingFrom p config (Registry.build p config w.store))) (Registry.build p config w.store).2 =
        some (sections, w'.store) := by
    rw [← hnames]
    exact hsections
  obtain ⟨blocks, hemits, hblocks, hsame⟩ :=
    convertUnits_emits (fun place hplace => findUnit?_unitName hdistinct (List.mem_range.1 hplace)) hrun
  obtain ⟨hmodels, horigins⟩ := Registry.exists_modelsIn p config w.store
  have hexports := Registry.build_exports config w
  refine ⟨blocks, sections, w'.store, hsections, hexports, ?_, ?_, ?_, hemits, fun _ _ => hemits.visible, ?_⟩
  · rw [Registry.origins_build]
    exact nodup_exported p config
  · have hmap := congrArg (List.map (List.map fun model : Model => model.origin)) hblocks
    rw [List.map_map, List.map_map] at hmap
    rw [← horigins]
    refine Eq.trans (List.map_congr_left fun block _ => ?_) hmap
    exact List.map_map.symm
  · rw [List.map_flatten, hblocks, ← List.flatMap_def]
    exact hmodels
  · rw [hsame, hnames]

/-- Two declarations of one name in a unit, an alias of the first in the same unit,
and an alias of their name in another one. -/
def namesakes : List (Text × Text) :=
  [("u", "/** @model */ interface A {}\n/** @model */ interface A { a: string }\n/** @model */ type B = A"),
    ("v", "/** @model B */ type A = B")]

/-- They come out also when nothing has been asked before. -/
theorem exported_emitted_namesakes : (Project.after namesakes).Reached [] {} ∧ ∃ blocks sections s',
    convertUnits (Project.after namesakes) {} ((Project.after namesakes).units.map (·.name)) {} = some (sections, s') ∧
      AllEmitted (Project.after namesakes) {} (Registry.build (Project.after namesakes) {} {}) blocks sections s' :=
  ⟨.start, exported_emitted namesakes {} .start⟩

end Document

end WireSchema
