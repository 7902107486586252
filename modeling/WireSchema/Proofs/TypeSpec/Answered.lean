import WireSchema.Proofs.Project.Crossed
import WireSchema.Proofs.TypeSpec.Depth
import WireSchema.Proofs.TypeSpec.Outcome
/-!
# Every conversion ends

Asking a project ends in a finite graph, in whatever order, and from wherever
asking has got to, the conversion of units has a section for each of them.
-/

namespace WireSchema

open Project

variable {p : Project} {config : Config}

/-! ## The registry -/

namespace Project.Stage

/-- Steps one after the other. -/
theorem mapM {α β : Type} {f : α → Resolving β} {result : β → Stage p → Prop}
    (hkeep : ∀ {b w w'}, w.LeadsTo w' → result b w → result b w')
    (hstep : ∀ (a : α) (w : Stage p), ∃ b w', f a w.store = (b, w'.store) ∧ w.LeadsTo w' ∧ result b w') (as : List α)
    (w : Stage p) : ∃ bs w', as.mapM f w.store = (bs, w'.store) ∧ w.LeadsTo w' ∧ ∀ b ∈ bs, result b w' := by
  induction as generalizing w with
  | nil => exact ⟨[], w, rfl, .refl w.store w.chart, fun b hb => by cases hb⟩
  | cons a as ih =>
    obtain ⟨b, w₁, hrun, hleads, hb⟩ := hstep a w
    obtain ⟨bs, w₂, hrun₂, hleads₂, hbs⟩ := ih w₁
    refine ⟨b :: bs, w₂, ?_, hleads.trans hleads₂, List.forall_mem_cons.2 ⟨hkeep hleads₂ hb, hbs⟩⟩
    rw [Resolving.mapM_cons, hrun, hrun₂]

end Project.Stage

namespace Registry

/-- The types of all models are there. -/
def Known (r : Registry) (w : Stage p) : Prop := ∀ model ∈ r.models, model.type.index < w.store.types.size

theorem modelOf?_stage (config : Config) (id : DeclarationId) (w : Stage p) :
    ∃ found w', modelOf? p config id w.store = (found, w'.store) ∧ w.LeadsTo w' ∧
      ∀ model, found = some model → model.type.index < w'.store.types.size := by
  have hstay : w.LeadsTo w := .refl w.store w.chart
  rw [modelOf?]
  cases hd : p.declaration? id with
  | none => exact ⟨none, w, rfl, hstay, fun model hmodel => by cases hmodel⟩
  | some d =>
    simp only
    cases hname : exportName? config d with
    | none => exact ⟨none, w, rfl, hstay, fun model hmodel => by cases hmodel⟩
    | some displayName =>
      obtain ⟨t, w', hrun, hleads, hdeclared⟩ := w.declarationType ⟨d, hd⟩
      have hlt := w'.charted.entries.lt hdeclared
      let model : Model := { displayName, type := t, parameterCount := d.parameters.length, docs := d.docs, origin := id }
      refine ⟨some model, w', ?_, hleads, fun other hother => ?_⟩
      · simp only
        rw [Resolving.bind_apply, hrun]
        rfl
      · cases hother
        exact hlt

theorem build_stage (config : Config) (w : Stage p) :
    ∃ r w', build p config w.store = (r, w'.store) ∧ w.LeadsTo w' ∧ r.Known w' := by
  obtain ⟨found, w₁, hrun, hleads, hfound⟩ := Stage.mapM
    (fun hleads hone model hmodel => Nat.lt_of_lt_of_le (hone model hmodel) hleads.size) (modelOf?_stage config)
    p.declarationIds w
  obtain ⟨w₂, hstore, hleads₂⟩ := w₁.events (.registered (found.filterMap id).length :: w₁.store.events)
  refine ⟨{ models := found.filterMap id }, w₂, ?_, hleads.trans hleads₂, fun model hmodel => ?_⟩
  · rw [build, Resolving.bind_apply, hrun, hstore]
    rfl
  · obtain ⟨one, hone, hmodel⟩ := List.mem_filterMap.1 hmodel
    exact Nat.lt_of_lt_of_le (hfound one hone model hmodel) hleads₂.size

end Registry

/-! ## Models and units -/

/-- How deep the types of a project are written at most. -/
def Project.deepest (p : Project) : Nat := TypeSpec.needed p [] [] 3

namespace TypeSpec

/-- If it is settled how deep a conversion writes types, that is enough for all of its project. -/
def Setting.Ample (setting : Setting) : Prop := ∀ n ∈ setting.depth, setting.project.deepest ≤ n

variable {setting : Setting} {w : Stage setting.project} {t : TypeId}

/-- A conversion allows itself to write types that deep. -/
theorem deepest_le_depthBound (setting : Setting) (s : Store) : setting.project.deepest ≤ depthBound setting s := by
  have hmost : 4 * setting.project.weight + 4 ≤ 4 * (s.weight + setting.project.weight + 1) := by omega
  refine Nat.le_trans ?_ (Nat.mul_le_mul hmost hmost)
  rw [Project.deepest, needed, Nat.add_mul (4 * setting.project.weight) 4, List.length_nil, Nat.sub_zero]
  omega

theorem convert_answers (hdepth : setting.Ample) (ht : t.index < w.store.types.size) :
    (staged setting.project).Does True w (convert setting t) fun _ _ => True := by
  have hdepth' : setting.project.deepest ≤ setting.depth.getD (depthBound setting w.store) := by
    cases hn : setting.depth with
    | none => exact deepest_le_depthBound setting w.store
    | some n => exact hdepth n hn
  exact convertIn_answers (.start ht) hdepth'

theorem anyProperties_stage (members : List TypeId) (w : Stage p) (hmembers : ∀ t ∈ members, t.index < w.store.types.size) :
    ∃ a w', isModelLike.anyProperties p members w.store = (a, w'.store) ∧ w.LeadsTo w' := by
  induction members generalizing w with
  | nil => exact ⟨false, w, rfl, .refl w.store w.chart⟩
  | cons member rest ih =>
    obtain ⟨ids, w₁, hrun, hleads, _⟩ := w.properties (hmembers member List.mem_cons_self)
    rw [isModelLike.anyProperties, Resolving.bind_apply, hrun]
    simp only
    split
    · obtain ⟨a, w₂, hrest, hleads₂⟩ := ih w₁ fun t ht =>
        Nat.lt_of_lt_of_le (hmembers t (List.mem_cons_of_mem member ht)) hleads.size
      exact ⟨a, w₂, hrest, hleads.trans hleads₂⟩
    · exact ⟨true, w₁, rfl, hleads⟩

theorem isModelLike_stage (w : Stage p) (ht : t.index < w.store.types.size) :
    ∃ a w', isModelLike p t w.store = (a, w'.store) ∧ w.LeadsTo w' := by
  have hnode : Resolving.node t w.store = (w.store.node t, w.store) := rfl
  rw [isModelLike, Resolving.bind_apply, hnode]
  simp only
  cases hshape : (w.store.node t).shape with
  | object =>
    obtain ⟨ids, w', hrun, hleads, _⟩ := w.properties ht
    refine ⟨!ids.isEmpty, w', ?_, hleads⟩
    simp only
    rw [Resolving.bind_apply, hrun]
    rfl
  | intersection members =>
    refine anyProperties_stage members w fun u hu => ?_
    refine Nat.lt_trans (w.charted.child_lt ht ?_) ht
    rw [hshape]
    exact hu
  | _ => exact ⟨false, w, rfl, .refl w.store w.chart⟩

theorem convertModel_answers (hdepth : setting.Ample) {model : Model} (hmodel : model.type.index < w.store.types.size) :
    (staged setting.project).Does True w (convertModel setting model) fun _ _ => True := by
  refine (convert_answers hdepth hmodel).bind fun written w₁ hleads _ => ?_
  obtain ⟨a, w₂, hrun, hleads₂⟩ := isModelLike_stage w₁ (Nat.lt_of_lt_of_le hmodel hleads.size)
  have hlift : (staged setting.project).Does True w₁ (liftM (isModelLike setting.project model.type)) fun _ _ => True :=
    .lift hrun hleads₂ trivial
  refine hlift.bind fun modelLike w₃ _ _ => ?_
  split
  · exact .pure trivial
  · exact .pure trivial

end TypeSpec

namespace Document

open TypeSpec

/-- The section of a unit that is there has its text. -/
def SectionOf (p : Project) (name : Text) (result : Section) : Prop :=
  match p.findUnit? name with
  | some _ => ∃ text usings, result = .converted name text usings
  | none => result = .missing name

theorem convertUnit_answers (setting : Setting) {w : Stage setting.project} (hdepth : setting.Ample)
    (hknown : setting.registry.Known w) (name : Text) :
    (staged setting.project).Does True w (convertUnit setting name) fun result _ =>
      SectionOf setting.project name result := by
  unfold convertUnit SectionOf
  cases setting.project.findUnit? name with
  | none => exact (report_does _).bind fun _ _ _ _ => .pure rfl
  | some place =>
    have hmodels (model : Model) (hmodel : model ∈ setting.registry.modelsIn place) (w' : Stage setting.project)
        (hleads : w.LeadsTo w') : (staged setting.project).Does True w' (convertModel setting model) fun _ _ => True :=
      convertModel_answers hdepth (Nat.lt_of_lt_of_le (hknown model (List.mem_filter.1 hmodel).1) hleads.size)
    have hall : (staged setting.project).Does True w ((setting.registry.modelsIn place).mapM (convertModel setting))
        fun _ _ => ∀ model ∈ setting.registry.modelsIn place, True := .forM hmodels
    exact hall.bind fun _ _ _ _ => (report_does _).bind fun _ _ _ _ => .pure ⟨_, _, rfl⟩

/-- From wherever asking has got to, the conversion of units has a section for each. -/
theorem convertUnits_answers (config : Config) (names : List Text) (w : Stage p) :
    ∃ sections, ∃ w' : Stage p, convertUnits p config names w.store = some (sections, w'.store) ∧
      sections.length = names.length ∧
      ∀ (i : Nat) (name : Text) (result : Section), names[i]? = some name → sections[i]? = some result →
        SectionOf p name result := by
  obtain ⟨registry, w₁, hrun, hleads, hknown⟩ := Registry.build_stage config w
  let setting : Setting := { project := p, registry, config }
  let settled : Setting := { setting with depth := some (depthBound setting w₁.store) }
  have hunits : convertUnits p config names w.store = names.mapM (convertUnit settled) w₁.store := by
    have hbind : convertUnits p config names w.store =
        names.mapM (convertUnit (settingFrom p config (Registry.build p config w.store)))
          (Registry.build p config w.store).2 := rfl
    rw [hbind, hrun]
    rfl
  have hample : settled.Ample := fun n hn => by
    cases hn
    exact deepest_le_depthBound setting w₁.store
  have hdoes : (staged p).Does True w₁ (names.mapM (convertUnit settled)) fun sections _ =>
      sections.length = names.length ∧ ∀ (i : Nat) (name : Text) (result : Section), names[i]? = some name →
        sections[i]? = some result → SectionOf p name result :=
    Course.Does.mapM (fun name result _ => SectionOf p name result) (fun _ h => h) fun name _ w' hleads' =>
      convertUnit_answers settled hample (fun model hmodel => Nat.lt_of_lt_of_le (hknown model hmodel) hleads'.size) name
  obtain ⟨sections, w₂, hresult, _, hlength, heach⟩ := hdoes.answer
  exact ⟨sections, w₂, hunits.trans hresult, hlength, heach⟩

theorem exists_findUnit? {p : Project} {unit : SourceUnit} (h : unit ∈ p.units) :
    ∃ place, p.findUnit? unit.name = some place := by
  have hsome : (p.units.findIdx? (·.name == unit.name)).isSome = true := by
    rw [List.findIdx?_isSome, List.any_eq_true]
    exact ⟨unit, h, beq_self_eq_true _⟩
  obtain ⟨place, hplace⟩ := Option.isSome_iff_exists.1 hsome
  exact ⟨place, by rw [Project.findUnit?, hplace]⟩

end Document

/-! ## All of it -/

/-- From wherever asking has got to, in whatever order: any question gets an answer
that is kept, only so many questions find something new, more questions lead to a
store where all answers are known, no type or property outside of the store can be
got at, an intersection is distributed as deep as it takes, and converting units
has a section for each. Where all answers are known, no question changes anything.
The sections of all units are their texts. -/
theorem Project.resolution_ends (p : Project) :
    (∀ news s, p.Reached news s →
      (∀ q : Question, q.Valid p s → q.Known (q.ask p s)) ∧
      news.length ≤ 5 * p.weight ∧
      (∃ more s', p.Reached (more ++ news) s' ∧ p.Complete s') ∧
      (∀ t, s.Reaches t → t.index < s.types.size ∧
        ∀ ids, (s.cell t).properties = .listed ids → ∀ q ∈ ids, q.index < s.properties.size) ∧
      (∀ n types, Store.Below s.types.size types → s.types.size < n →
        Resolving.makeIntersection n types s = Resolving.intersect types s) ∧
      ∀ config names, ∃ sections s', Document.convertUnits p config names s = some (sections, s') ∧
        sections.length = names.length ∧
        ∀ (i : Nat) (name : Text) (result : Section), names[i]? = some name → sections[i]? = some result →
          Document.SectionOf p name result) ∧
    (∀ s, p.Complete s → ∀ q : Question, q.Valid p s → q.ask p s = s) ∧
    ∀ config, ∃ sections s', Document.convertUnits p config (p.units.map (·.name)) {} = some (sections, s') ∧
      sections.length = p.units.length ∧
      ∀ (i : Nat) (unit : SourceUnit), p.units[i]? = some unit →
        ∃ text usings, sections[i]? = some (.converted unit.name text usings) := by
  refine ⟨fun news s h => ?_, fun s hcomplete q hvalid => ask_of_known (hcomplete q hvalid), fun config => ?_⟩
  · -- a reached store is that of a stage, and stages answer
    obtain ⟨w, rfl, _⟩ := h.exists_stage
    refine ⟨fun q hvalid => ?_, h.length_le, h.exists_complete, fun t ht => ?_,
      fun n types hbelow hn => makeIntersection_eq_intersect w.charted.layered hbelow hn,
      fun config names => ?_⟩
    · obtain ⟨w', hstore, _, hknown⟩ := w.ask hvalid
      rwa [← hstore]
    · have hlt := lt_of_reaches w.charted ht
      exact ⟨hlt, fun ids hids => listed_lt w.charted hlt hids⟩
    · obtain ⟨sections, w', hsections⟩ := Document.convertUnits_answers config names w
      exact ⟨sections, w'.store, hsections⟩
  · obtain ⟨w, hw⟩ := exists_empty p
    obtain ⟨sections, w', hrun, hlength, heach⟩ := Document.convertUnits_answers config (p.units.map (·.name)) w
    rw [List.length_map] at hlength
    rw [hw] at hrun
    refine ⟨sections, w'.store, hrun, hlength, fun i unit hunit => ?_⟩
    have hlt : i < sections.length := hlength ▸ (List.getElem?_eq_some_iff.1 hunit).1
    have hsection := heach i unit.name sections[i] (by rw [List.getElem?_map, hunit]; rfl) (List.getElem?_eq_getElem hlt)
    obtain ⟨place, hplace⟩ := Document.exists_findUnit? (List.mem_of_getElem? hunit)
    rw [Document.SectionOf, hplace] at hsection
    obtain ⟨text, usings, hsection⟩ := hsection
    exact ⟨text, usings, by rw [List.getElem?_eq_getElem hlt, hsection]⟩

/-- `type Pair = [Pair, Own]` and `interface Own extends Own { pair: Pair }`. -/
def Project.cyclicProject : Project where
  units := [
    { name := "u", declarations := [
      { name := "Pair", docs := {}
        body := .typeAlias [] (.tuple [.reference "Pair" [] "Pair", .reference "Own" [] "Own"] "[Pair, Own]" false) },
      { name := "Own", docs := {}
        body := .interface [] [{ name := "Own", arguments := [], text := "Own" }]
          [{ name := "pair", isOptional := false, type := .reference "Pair" [] "Pair", docs := {} }] }] }]

/-- The type of the alias is asked for first, and then all the rest. -/
theorem Project.resolution_ends_cyclic :
    let first : Question := .declaration ⟨0, 0⟩
    cyclicProject.Reached [first] (first.ask cyclicProject {}) ∧
      ∃ more s', cyclicProject.Reached (more ++ [first]) s' ∧ cyclicProject.Complete s' := by
  intro first
  have hreached : cyclicProject.Reached [first] (first.ask cyclicProject {}) := by
    refine Reached.start.new ⟨_, rfl⟩ ?_
    rintro ⟨t, ht⟩
    cases ht
  exact ⟨hreached, ((resolution_ends cyclicProject).1 _ _ hreached).2.2.1⟩

end WireSchema
