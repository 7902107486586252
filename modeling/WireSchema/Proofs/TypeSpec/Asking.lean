import WireSchema.Document
import WireSchema.Proofs.Steps
import WireSchema.Proofs.Project.Budget
import WireSchema.Proofs.TypeSpec.Written
/-!
# Converting is asking

All that a conversion does to the store is to ask for types and properties, and
to report. So what every question keeps, a conversion of units keeps.
-/

namespace WireSchema

open Project TypeSpec

/-- What is kept by questions of any kind, one after the other. -/
structure Project.Keeping (p : Project) (R : Store → Store → Prop) : Prop where
  refl : ∀ s, R s s
  trans : ∀ {s s' s''}, R s s' → R s' s'' → R s s''
  events : ∀ s events, R s { s with events }
  declarationType : ∀ d s, R s (p.declarationType d s).2
  properties : ∀ t s, R s (p.properties t s).2
  propertyType : ∀ q s, R s (p.propertyType q s).2

namespace TypeSpec

variable {α β : Type} {p : Project} {R : Store → Store → Prop} {s s' : Store}

/-- Where the step has an answer, what is kept is kept. -/
def Follows (R : Store → Store → Prop) (x : Converting α) : Prop := ∀ s a s', x s = some (a, s') → R s s'

section
variable (h : p.Keeping R)
include h

theorem follows_pure (a : α) : Follows R (pure a : Converting α) := by
  rintro s a s' ⟨⟩
  exact h.refl s

theorem Follows.bind {x : Converting α} {f : α → Converting β} (hx : Follows R x) (hf : ∀ a, Follows R (f a)) :
    Follows R (x >>= f) := by
  intro s b s' hrun
  rw [Converting.bind_apply, Option.bind_eq_some_iff] at hrun
  obtain ⟨⟨a, s₁⟩, hfirst, hrest⟩ := hrun
  exact h.trans (hx s a s₁ hfirst) (hf a s₁ b s' hrest)

omit h in
theorem follows_lift {x : Resolving α} (hx : ∀ s, R s (x s).2) : Follows R (liftM x : Converting α) := by
  intro s a s' hrun
  obtain rfl : (x s).2 = s' := congrArg Prod.snd (Option.some.inj hrun)
  exact hx s

theorem follows_mapM {f : α → Converting β} (hf : ∀ a, Follows R (f a)) (as : List α) : Follows R (as.mapM f) := by
  induction as with
  | nil => exact follows_pure h []
  | cons a as ih =>
    rw [List.mapM_cons]
    exact (hf a).bind h fun b => ih.bind h fun bs => follows_pure h (b :: bs)

omit h in
theorem follows_get {f : Store → Converting β} (hf : ∀ s, Follows R (f s)) : Follows R (get >>= f) :=
  fun s b s' hrun => hf s s b s' hrun

theorem follows_node (t : TypeId) : Follows R (liftM (Resolving.node t) : Converting TypeNode) :=
  follows_lift fun s => h.refl s

theorem follows_report (event : Event) : Follows R (liftM (Resolving.report event) : Converting Unit) :=
  follows_lift fun s => h.events s _

/-! ## Writing types -/

section
variable {setting : Setting} {write : Writer} (hwrite : ∀ path t, Follows R (write path t)) (path : List TypeId)

theorem follows_verbatim (t : TypeId) (reason : VerbatimReason) : Follows R (verbatim t reason) :=
  (follows_node h t).bind h fun _ => (follows_report h _).bind h fun _ => follows_pure h _

include hwrite

theorem follows_reference (t : TypeId) : Follows R (reference setting write path t) := by
  rw [reference]
  split
  · exact follows_pure h _
  · exact hwrite path t

theorem follows_references (types : List TypeId) : Follows R (references setting write path types) :=
  follows_mapM h (follows_reference h hwrite path) types

theorem follows_template (spans : List (Span TypeId)) : Follows R (template setting write path spans) := by
  have hspan (span : Span TypeId) : Follows R (TypeSpec.span setting write path span) := by
    cases span with
    | chunk t => exact follows_pure h _
    | hole t => exact (follows_reference h hwrite path t).bind h fun _ => follows_pure h _
  exact (follows_mapM h hspan spans).bind h fun _ => follows_pure h _

theorem follows_arrayOf (t : TypeId) : Follows R (arrayOf setting write path t) := by
  refine (follows_reference h hwrite path t).bind h fun _ => (follows_node h t).bind h fun _ => ?_
  split
  · exact follows_pure h _
  · exact follows_pure h _

theorem follows_application (name : Text) (arguments : List TypeId) :
    Follows R (application setting write path name arguments) :=
  (follows_references h hwrite path arguments).bind h fun _ => follows_pure h _

theorem follows_instantiation (t : TypeId) (symbol : Option Text) (arguments : List TypeId) :
    Follows R (instantiation setting write path t symbol arguments) := by
  cases symbol with
  | none => exact follows_verbatim h t .unnamed
  | some name =>
    cases arguments with
    | nil => exact follows_application h hwrite path name []
    | cons first rest =>
      simp only [instantiation]
      split
      · exact follows_arrayOf h hwrite path first
      · split
        · exact follows_application h hwrite path name _
        · exact follows_application h hwrite path name _

variable (hproject : setting.project = p)
include hproject

theorem follows_field (q : PropertyId) : Follows R (field setting write path q) := by
  subst hproject
  refine follows_get fun s => ?_
  split
  · exact follows_pure h _
  · exact (follows_lift fun s => h.propertyType q s).bind h fun t =>
      (follows_reference h hwrite path t).bind h fun _ => follows_pure h _

theorem follows_body (ids : List PropertyId) : Follows R (body setting write path ids) := by
  rw [body]
  split
  · exact follows_pure h _
  · exact (follows_mapM h (follows_field h hwrite path hproject) ids).bind h fun _ => follows_pure h _

omit hwrite in
theorem follows_mergedProperties (text : Text) (members : List TypeId) :
    Follows R (mergedProperties setting text members) := by
  subst hproject
  refine (follows_mapM h (fun member => ?_) members).bind h fun _ => follows_get fun _ => follows_pure h _
  refine (follows_lift fun s => h.properties member s).bind h fun ids => ?_
  split
  · exact (follows_node h member).bind h fun _ => (follows_report h _).bind h fun _ => follows_pure h _
  · exact follows_pure h _

theorem follows_convertWith (t : TypeId) : Follows R (convertWith setting write path t) := by
  refine (follows_node h t).bind h fun node => ?_
  have henter {step : Converting Layout} (hstep : Follows R step) :
      Follows R (if path.contains t then verbatim t .recursive else step) := by
    split
    · exact follows_verbatim h t .recursive
    · exact hstep
  cases node.shape with
  | string => exact follows_pure h _
  | number => exact follows_pure h _
  | boolean => exact follows_pure h _
  | template spans => exact follows_template h hwrite path spans
  | array element =>
    cases element with
    | none => exact henter (follows_verbatim h t .unsupported)
    | some element => exact henter (follows_arrayOf h hwrite _ element)
  | tuple elements => exact henter ((follows_references h hwrite _ elements).bind h fun _ => follows_pure h _)
  | instantiation arguments => exact henter (follows_instantiation h hwrite _ t node.symbol arguments)
  | object =>
    refine henter ?_
    have hproperties : Follows R (liftM (setting.project.properties t) : Converting (List PropertyId)) :=
      follows_lift fun s => hproject ▸ h.properties t s
    exact hproperties.bind h fun ids => follows_body h hwrite _ hproject ids
  | union members => exact henter ((follows_references h hwrite _ members).bind h fun _ => follows_pure h _)
  | intersection members =>
    exact henter ((follows_mergedProperties h hproject node.text members).bind h fun ids =>
      follows_body h hwrite _ hproject ids)
  | other => exact henter (follows_verbatim h t .unsupported)

end

/-! ## Models and units -/

variable {setting : Setting} (hproject : setting.project = p)
include hproject

theorem follows_convertIn (depth : Nat) (path : List TypeId) (t : TypeId) : Follows R (convertIn setting depth path t) := by
  induction depth generalizing path t with
  | zero => exact fun s a s' hrun => nomatch hrun
  | succ depth ih => exact follows_convertWith h ih path hproject t

theorem follows_convert (t : TypeId) : Follows R (convert setting t) :=
  follows_get fun _ => follows_convertIn h hproject _ [] t

omit hproject in
theorem keeps_anyProperties (members : List TypeId) (s : Store) : R s (isModelLike.anyProperties p members s).2 := by
  induction members generalizing s with
  | nil => exact h.refl s
  | cons member rest ih =>
    rw [isModelLike.anyProperties, Resolving.bind_apply]
    split
    · exact h.trans (h.properties member s) (ih _)
    · exact h.properties member s

omit hproject in
theorem keeps_isModelLike (t : TypeId) (s : Store) : R s (isModelLike p t s).2 := by
  have hnode : Resolving.node t s = (s.node t, s) := rfl
  rw [isModelLike, Resolving.bind_apply, hnode]
  cases (s.node t).shape with
  | object => exact h.properties t s
  | intersection members => exact keeps_anyProperties h members s
  | _ => exact h.refl s

theorem follows_convertModel (model : Model) : Follows R (convertModel setting model) := by
  subst hproject
  refine (follows_convert h rfl model.type).bind h fun written => ?_
  refine (follows_lift fun s => keeps_isModelLike h model.type s).bind h fun modelLike => ?_
  split
  · exact follows_pure h _
  · exact follows_pure h _

theorem follows_convertUnit (name : Text) : Follows R (Document.convertUnit setting name) := by
  rw [Document.convertUnit]
  split
  · exact (follows_report h _).bind h fun _ => follows_pure h _
  · exact (follows_mapM h (follows_convertModel h hproject) _).bind h fun _ =>
      (follows_report h _).bind h fun _ => follows_pure h _

omit hproject in
theorem keeps_build (config : Config) (s : Store) : R s (Registry.build p config s).2 := by
  have hmodel (id : DeclarationId) (s : Store) : R s (Registry.modelOf? p config id s).2 := by
    rw [Registry.modelOf?]
    cases p.declaration? id with
    | none => exact h.refl s
    | some d =>
      simp only
      cases Registry.exportName? config d with
      | none => exact h.refl s
      | some name => exact h.declarationType id s
  have hmodels := mapM_steps (R := fun _ => R) (n := 0) h.refl h.trans (fun id (_ : id ∈ p.declarationIds) => hmodel id) s
  exact h.trans hmodels (h.events _ _)

omit hproject in
/-- A conversion of units builds the registry, and then keeps what is kept. -/
theorem keeps_convertUnits {config : Config} {names : List Text} {sections : List Section}
    (hrun : Document.convertUnits p config names s = some (sections, s')) :
    R s (Registry.build p config s).2 ∧ R (Registry.build p config s).2 s' :=
  ⟨keeps_build h config s, follows_mapM h (follows_convertUnit h rfl) names _ _ _ hrun⟩

end

end TypeSpec

end WireSchema
