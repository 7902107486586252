import Mathlib
import WireSchema.Proofs.Project.Tidy
import WireSchema.Proofs.TypeSpec.Settled
/-!
# The outcome of a conversion

Converting units ends in a store in which everything the sections were written
from is found. Its chart says what each node was made for, and converting the
same units there once more gives the same sections.

Conversions of given projects are evaluated by `cbv` in the modules behind this one, with
the equations that the whole library has for its own functions.
-/

namespace WireSchema

open Project TypeSpec

variable {p : Project} {config : Config} {s s' : Store} {c c' : Chart}

/-! ## The registry -/

namespace Registry

/-- The model is that of an exported declaration. -/
structure Exports (p : Project) (config : Config) (s : Store) (model : Model) (d : Declaration) : Prop where
  declaration : p.declaration? model.origin = some d
  name : exportName? config d = some model.displayName
  type : s.declared? model.origin = some model.type
  count : model.parameterCount = d.parameters.length
  docs : model.docs = d.docs

/-- The registry has the models of all exported declarations and no others. -/
structure Covers (p : Project) (config : Config) (s : Store) (r : Registry) : Prop where
  sound : ∀ model ∈ r.models, ∃ d, Exports p config s model d
  complete : ∀ id d name, p.declaration? id = some d → exportName? config d = some name →
    ∃ model ∈ r.models, model.origin = id

theorem Exports.mono {model : Model} {d : Declaration} (h : Exports p config s model d) (hext : Extends s s' c c') :
    Exports p config s' model d :=
  { h with type := hext.declared _ _ h.type }

theorem Covers.mono {r : Registry} (h : Covers p config s r) (hext : Extends s s' c c') : Covers p config s' r where
  sound model hmodel :=
    have ⟨d, hd⟩ := h.sound model hmodel
    ⟨d, hd.mono hext⟩
  complete := h.complete

/-- What the registry has for a declaration. -/
def Found (p : Project) (config : Config) (id : DeclarationId) (found : Option Model) (s : Store) : Prop :=
  match found with
  | some model => model.origin = id ∧ ∃ d, Exports p config s model d
  | none => ∀ d, p.declaration? id = some d → exportName? config d = none

section
variable {busy : Origin → Prop}

theorem modelOf?_tidy (h : p.Tidy busy s c) (id : DeclarationId) :
    p.Tidily busy s c (modelOf? p config id s) fun found s' _ => Found p config id found s' := by
  rw [modelOf?]
  cases hd : p.declaration? id with
  | none => exact .pure h fun d hd' => by rw [hd] at hd'; cases hd'
  | some d =>
    simp only
    cases hname : exportName? config d with
    | none => exact .pure h fun d' hd' => by rw [hd] at hd'; cases hd'; exact hname
    | some name =>
      exact (declarationType_tidy h ⟨d, hd⟩).bind fun _ _ _ h₁ _ hdeclared =>
        .pure h₁ ⟨rfl, d, hd, hname, hdeclared, rfl, rfl⟩

/-- The registry is built in a tidy store. -/
theorem build_tidy (h : p.Tidy busy s c) (config : Config) :
    p.Tidily busy s c (build p config s) fun r s' _ => Covers p config s' r := by
  refine Tidily.bind (x := p.declarationIds.mapM (modelOf? p config))
    (Tidily.mapM (fun id found s' _ => Found p config id found s') ?_ h
      fun id _ s' c' h' _ => modelOf?_tidy h' id) ?_
  · intro id found s s' c c' _ hlater hfound
    cases found with
    | none => exact hfound
    | some model =>
      obtain ⟨horigin, d, hd⟩ := hfound
      exact ⟨horigin, d, hd.mono hlater.toExtends⟩
  · intro found s₁ c₁ h₁ _ ⟨hlength, heach⟩
    refine (report_tidy h₁ _).bind fun _ s₂ c₂ h₂ hgrows _ => .pure h₂ ?_
    suffices hcovers : Covers p config s₁ { models := found.filterMap id } from hcovers.mono hgrows.toExtends
    refine ⟨fun model hmodel => ?_, fun id d name hd hname => ?_⟩
    · obtain ⟨_, hmem, rfl⟩ := List.mem_filterMap.1 hmodel
      obtain ⟨i, d, hd, hi⟩ := exists_getElem?_of_mem hlength hmem
      exact (heach i d _ hd hi).2
    · obtain ⟨i, one, hi, hid⟩ := exists_getElem?_of_mem hlength.symm (mem_declarationIds hd)
      have hfound := heach i id one hid hi
      cases one with
      | none =>
        rw [hfound d hd] at hname
        cases hname
      | some model => exact ⟨model, List.mem_filterMap.2 ⟨_, List.mem_of_getElem? hi, rfl⟩, hfound.1⟩

end

/-- From the start, nothing being made. -/
theorem exists_build (p : Project) (config : Config) :
    ∃ c, p.Tidy (fun _ => False) (build p config {}).2 c ∧ Covers p config (build p config {}).2 (build p config {}).1 := by
  have hempty := tidy_empty p (fun _ => False) (fun _ hfalse => hfalse) ⟨fun _ => .value ⟨0, 0⟩ 0, fun _ => (.value ⟨0, 0⟩ 0, 0)⟩
  obtain ⟨c, htidy, _, hcovers⟩ := build_tidy hempty config
  exact ⟨c, htidy, hcovers⟩

end Registry

/-! ## Models and units -/

namespace TypeSpec

variable {setting : Setting} {n : Nat}

theorem settles_anyProperties (members : List TypeId) (h : p.Charted s c)
    (hmembers : ∀ t ∈ members, t.index < s.types.size) :
    Settles p s c (liftM (isModelLike.anyProperties p members)) fun _ _ _ => True := by
  induction members generalizing s c with
  | nil => exact .pure h trivial
  | cons member rest ih =>
    unfold isModelLike.anyProperties
    refine (settles_properties h (hmembers member List.mem_cons_self)).bindLift fun ids s₁ c₁ h₁ hlater _ => ?_
    split
    · exact ih h₁ fun t ht => Nat.lt_of_lt_of_le (hmembers t (List.mem_cons_of_mem member ht)) hlater.size
    · exact .pure h₁ trivial

theorem settles_isModelLike (h : p.Charted s c) {t : TypeId} (ht : t.index < s.types.size) :
    Settles p s c (liftM (isModelLike p t)) fun _ _ _ => True := by
  unfold isModelLike
  refine (settles_node h ht).bindLift fun node s₁ c₁ h₁ _ hnode => ?_
  split
  · exact (settles_properties h₁ hnode.2).bindLift fun ids s₂ c₂ h₂ _ _ => .pure h₂ trivial
  next members hshape =>
    refine settles_anyProperties members h₁ fun member hmember => ?_
    refine Nat.lt_trans (h₁.child_lt hnode.2 ?_) hnode.2
    rw [← hnode.1, hshape]
    exact hmember
  · exact .pure h₁ trivial

theorem settles_depth (hdepth : setting.depth = some n) (h : p.Charted s c) :
    Settles p s c (depth setting) fun _ _ _ => True := by
  have hrun (s : Store) : depth setting s = some (n, s) := by
    show some (setting.depth.getD _, s) = _
    rw [hdepth]
    rfl
  intro a s' ha
  rw [hrun] at ha
  cases ha
  exact ⟨c, h, .refl s c, trivial, fun t d _ _ => ⟨t.events, hrun t⟩⟩

theorem settles_convertModel (hproject : setting.project = p) (hdepth : setting.depth = some n) (h : p.Charted s c)
    {model : Model} (ht : model.type.index < s.types.size) :
    Settles p s c (convertModel setting model) fun _ _ _ => True := by
  have hconvert : Settles p s c (convert setting model.type) fun _ _ _ => True :=
    (settles_depth hdepth h).bind fun depth s₁ c₁ h₁ hlater _ =>
      settles_convertIn hproject depth [] model.type s₁ c₁ h₁ (Nat.lt_of_lt_of_le ht hlater.size)
  refine hconvert.bind fun written s₁ c₁ h₁ hlater _ => ?_
  subst hproject
  refine (settles_isModelLike h₁ (Nat.lt_of_lt_of_le ht hlater.size)).bind fun modelLike s₂ c₂ h₂ _ _ => ?_
  split
  · exact .pure h₂ trivial
  · exact .pure h₂ trivial

end TypeSpec

namespace Document

variable {setting : Setting} {n : Nat}

theorem settles_convertUnit (hproject : setting.project = p) (hdepth : setting.depth = some n)
    (hregistry : Registry.Covers p config s setting.registry) (h : p.Charted s c) (name : Text) :
    Settles p s c (convertUnit setting name) fun _ _ _ => True := by
  unfold convertUnit
  subst hproject
  cases setting.project.findUnit? name with
  | none => exact (settles_report h _).bind fun _ _ _ h₁ _ _ => .pure h₁ trivial
  | some place =>
    have hmodels (model : Model) (hmodel : model ∈ setting.registry.modelsIn place) (s' : Store) (c' : Chart)
        (h' : setting.project.Charted s' c') (hlater : Later s s' c c') :
        Settles setting.project s' c' (convertModel setting model) fun _ _ _ => True := by
      obtain ⟨d, hd⟩ := hregistry.sound model (List.mem_filter.1 hmodel).1
      exact settles_convertModel rfl hdepth h' (h'.entries.lt (hlater.declared _ _ hd.type))
    exact (Settles.mapM (fun _ _ _ _ => True) (fun _ _ _ _ _ _ _ _ => trivial) h hmodels).bind
      fun _ _ _ h₁ _ _ => (settles_report h₁ _).bind fun _ _ _ h₂ _ _ => .pure h₂ trivial

/-- What units are converted by, once the registry is built. -/
def settingFrom (p : Project) (config : Config) (built : Registry × Store) : Setting where
  project := p
  registry := built.1
  config := config
  depth := some (depthBound { project := p, registry := built.1, config } built.2)

/-- The registry is built first, and settles how deep types are written. -/
theorem convertUnits_eq {names : List Text} {built : Registry × Store} (h : Registry.build p config {} = built) :
    convertUnits p config names {} = names.mapM (convertUnit (settingFrom p config built)) built.2 := by
  rw [← h]
  rfl

/-- What a conversion of units comes to. -/
structure Outcome (p : Project) (config : Config) (names : List Text) (sections : List Section) (s : Store)
    (setting : Setting) (c : Chart) : Prop where
  project : setting.project = p
  registry : Registry.Covers p config s setting.registry
  config : setting.config = config
  charted : p.Charted s c
  /-- Converting the units once more resolves nothing and gives the same sections. -/
  again : ∃ events, names.mapM (convertUnit setting) s = some (sections, { s with events })

/-- Every conversion of units comes to such a store. -/
theorem outcome {names : List Text} {sections : List Section}
    (h : convertUnits p config names {} = some (sections, s)) : ∃ setting c, Outcome p config names sections s setting c := by
  obtain ⟨c₀, h₀, hcovers⟩ := Registry.exists_build p config
  rw [convertUnits_eq rfl] at h
  obtain ⟨c, hcharted, hlater, _, hagain⟩ := Settles.mapM (fun _ _ _ _ => True)
    (fun _ _ _ _ _ _ _ _ => trivial) h₀.toCharted
    (fun name _ s' c' h' hlater => settles_convertUnit rfl rfl (hcovers.mono hlater.toExtends) h' name) sections s h
  exact ⟨_, c, rfl, hcovers.mono hlater.toExtends, rfl, hcharted, hagain s c hcharted (.refl s c)⟩

end Document

end WireSchema
