import WireSchema.Proofs.Project.Retained
import WireSchema.Proofs.TypeSpec.Blocks
import WireSchema.Proofs.TypeSpec.Endless
/-!
# Statements and their bodies

Whether a model is stated as a `model` or as an `alias` is decided apart from what is
written of its type. Both go by the same properties, since what was found while the
body was written is found again. There is a statement whenever the type has a text: for all
that a project resolves to, and in a graph that is given in full unless the type leads to
a template that is made of itself.
-/

namespace WireSchema

open Project TypeSpec

variable {p : Project} {s s' : Store} {c : Chart} {setting : Setting} {t : TypeId}

/-- What is listed in the store is there: the properties that have been found, and the
members of intersections. -/
structure Store.Sound (s : Store) : Prop where
  filled : s.Filled
  members : ∀ t members, (s.node t).shape = .intersection members → ∀ u ∈ members, u.index < s.types.size

/-- All that resolving a project leads to is sound. -/
theorem Project.Charted.sound (h : p.Charted s c) : s.Sound where
  filled t ids hids q hq := by
    by_cases ht : t.index < s.types.size
    · exact listed_lt h ht hids q hq
    · rw [Store.cell_of_size_le (Nat.le_of_not_lt ht)] at hids
      cases hids
      cases hq
  members t members hshape u hu := by
    by_cases ht : t.index < s.types.size
    · have hchild : u ∈ (s.node t).shape.children := by
        rw [hshape]
        exact hu
      exact Nat.lt_trans (h.child_lt ht hchild) ht
    · rw [Store.node_of_size_le (Nat.le_of_not_lt ht)] at hshape
      cases hshape

/-- The first occurrences of names are those of the properties with new names. -/
theorem Project.map_name_withNewNames (s : Store) (names : List Text) (ids : List PropertyId) :
    (withNewNames s names ids).map s.propertyName =
      ((ids.map s.propertyName).filter fun name => !names.contains name).eraseDups := by
  induction ids generalizing names with
  | nil => rfl
  | cons q rest ih =>
    rw [withNewNames, List.map_cons]
    split
    next hknown => rw [ih, List.filter_cons_of_neg (by rw [hknown]; exact Bool.false_ne_true)]
    next hnew =>
      rw [Bool.not_eq_true] at hnew
      rw [List.map_cons, ih, List.filter_cons_of_pos (by rw [hnew]; rfl), List.eraseDups_cons, List.filter_filter]
      congr 2
      refine List.filter_congr fun name _ => ?_
      rw [List.contains_cons, Bool.not_or]

/-- The names of merged properties are the first occurrences. -/
theorem Project.map_name_merged (s : Store) (ids : List PropertyId) :
    (withNewNames s [] ids).map s.propertyName = (ids.map s.propertyName).eraseDups :=
  (map_name_withNewNames s [] ids).trans (congrArg _ (List.filter_eq_self.2 fun _ _ => rfl))

theorem Project.keeping_retains (p : Project) : p.Keeping p.Retains where
  refl := .refl
  trans h h' := h.trans h'
  events := .events
  declarationType := (lasting_retains p).declarationType
  properties t s := (propertiesIn_found p.interfaces t s).1
  propertyType := (lasting_retains p).propertyType

namespace TypeSpec

/-! ## The names of a body -/

/-- The names of the fields that a type has when it is written between braces: those of the
properties of an object shape, in order, and the first occurrences of those of the members
of an intersection. All other types have none. -/
def ownNames (p : Project) (s : Store) (t : TypeId) : List Text :=
  let names (u : TypeId) : List Text := (p.properties u s).1.map s.propertyName
  match (s.node t).shape with
  | .object => names t
  | .intersection members => (members.flatMap names).eraseDups
  | _ => []

/-- No name of a member is lost, and none is repeated. -/
theorem ownNames_intersection {members : List TypeId} (hshape : (s.node t).shape = .intersection members) :
    (ownNames p s t).Nodup ∧
      ∀ name, name ∈ ownNames p s t ↔ ∃ u ∈ members, name ∈ (p.properties u s).1.map s.propertyName := by
  rw [ownNames, hshape]
  dsimp only
  refine ⟨?_, fun name => by rw [List.mem_eraseDups, List.mem_flatMap]⟩
  rw [← List.map_flatMap, ← map_name_merged]
  exact (names_withNewNames s [] _).1

/-! ## Finding the properties of a body -/

/-- Where a step asks for the properties of a type, those of several types are the ones that
they have from then on. -/
theorem asked_later {ask : TypeId → Converting (List PropertyId)}
    (hask : ∀ u s ids s₁, ask u s = some (ids, s₁) → ids = (p.properties u s).1 ∧ p.Retains (p.properties u s).2 s₁)
    {types : List TypeId} (htypes : ∀ u ∈ types, u.index < s.types.size) {found : List (List PropertyId)} {s₁ : Store}
    (hrun : types.mapM ask s = some (found, s₁)) (h : p.Retains s₁ s') :
    p.Retains s s₁ ∧ found = types.map (fun u => (p.properties u s').1) ∧
      ∀ u ∈ types, p.properties u s' = ((p.properties u s').1, s') := by
  induction types generalizing s found with
  | nil =>
    cases hrun
    exact ⟨.refl _, rfl, nofun⟩
  | cons u rest ih =>
    rw [List.mapM_cons, Converting.bind_apply, Option.bind_eq_some_iff] at hrun
    obtain ⟨⟨ids, s₂⟩, hfirst, hrun⟩ := hrun
    rw [Converting.bind_apply, Option.bind_eq_some_iff] at hrun
    obtain ⟨⟨others, s₃⟩, hrest, hrun⟩ := hrun
    cases hrun
    rw [List.forall_mem_cons] at htypes
    obtain ⟨rfl, hasked⟩ := hask u s ids s₂ hfirst
    have hlater : p.Retains s s₂ := (propertiesIn_found p.interfaces u s).1.trans hasked
    obtain ⟨hrest, rfl, hknown⟩ := ih (fun v hv => Nat.lt_of_lt_of_le (htypes.2 v hv) hlater.size) hrest
    have hagain : p.properties u s' = ((p.properties u s).1, s') :=
      ((hasked.trans hrest).trans h).properties_again htypes.1
    exact ⟨hlater.trans hrest, by rw [List.map_cons, hagain], List.forall_mem_cons.2 ⟨by rw [hagain], hknown⟩⟩

/-- What the members of an intersection have is there and merged, and they have it from then on. -/
theorem mergedProperties_found (hfilled : s.Filled) {text : Text} {members : List TypeId} {ids : List PropertyId}
    (hmembers : ∀ u ∈ members, u.index < s.types.size)
    (hrun : mergedProperties setting text members s = some (ids, s')) :
    ids = withNewNames s' [] (members.flatMap fun u => (setting.project.properties u s').1) ∧
      ∀ u ∈ members, setting.project.properties u s' = ((setting.project.properties u s').1, s') ∧
        ∀ q ∈ (setting.project.properties u s').1, q.index < s'.properties.size := by
  have hunfolds : setting.project.Unfolds s s' :=
    follows_mergedProperties (keeping_unfolds _) rfl text members s ids s' hrun
  rw [mergedProperties, Converting.bind_apply, Option.bind_eq_some_iff] at hrun
  obtain ⟨⟨found, s₁⟩, hfound, hrun⟩ := hrun
  obtain ⟨rfl, rfl⟩ : withNewNames s₁ [] found.flatten = ids ∧ s₁ = s' := Prod.mk.inj (Option.some.inj hrun)
  have hlater : found = members.map (fun u => (setting.project.properties u s₁).1) ∧
      ∀ u ∈ members, setting.project.properties u s₁ = ((setting.project.properties u s₁).1, s₁) := by
    refine (asked_later (fun u s ids s₁ hrun => ?_) hmembers hfound (.refl s₁)).2
    have hproperties : (liftM (setting.project.properties u) : Converting (List PropertyId)) s =
      some (setting.project.properties u s) := rfl
    rw [Converting.bind_apply, hproperties, Option.bind_some] at hrun
    -- a member without properties is reported, which changes no type
    split at hrun
    · cases hrun
      exact ⟨rfl, .events _ _⟩
    · cases hrun
      exact ⟨rfl, .refl _⟩
  refine ⟨by rw [List.flatMap_def, ← hlater.1], fun u hu => ⟨hlater.2 u hu, fun q hq => ?_⟩⟩
  have hfinds : setting.project.Finds s₁ (setting.project.properties u s₁) := propertiesIn_finds _ u s₁
  have hlt := hfinds.there (hunfolds.filled hfilled) q hq
  rwa [hlater.2 u hu] at hlt

/-- One of the types has properties, if all have been found. -/
theorem anyProperties_later {members : List TypeId}
    (h : ∀ u ∈ members, p.properties u s = ((p.properties u s).1, s)) :
    isModelLike.anyProperties p members s = (members.any fun u => !(p.properties u s).1.isEmpty, s) := by
  induction members with
  | nil => rfl
  | cons u rest ih =>
    rw [List.forall_mem_cons] at h
    rw [isModelLike.anyProperties, Resolving.bind_apply, h.1, List.any_cons]
    dsimp only
    split
    next hempty => rw [ih h.2, hempty]; rfl
    next hsome =>
      rw [Bool.not_eq_true] at hsome
      rw [hsome]
      rfl

theorem isModelLike_apply (p : Project) (t : TypeId) (s : Store) :
    isModelLike p t s =
      match (s.node t).shape with
      | .object => (!(p.properties t s).1.isEmpty, (p.properties t s).2)
      | .intersection members => isModelLike.anyProperties p members s
      | _ => (false, s) := by
  rw [isModelLike, Resolving.bind_apply]
  show (match (s.node t).shape with
    | .object => _
    | .intersection members => _
    | _ => _ : Resolving Bool) s = _
  cases (s.node t).shape <;> rfl

/-- There are names just if one of the lists has some. -/
theorem isEmpty_eraseDups_flatMap (members : List TypeId) (names : TypeId → List Text) :
    (!(members.flatMap names).eraseDups.isEmpty) = members.any fun u => !(names u).isEmpty := by
  have hempty (all : List Text) : all.eraseDups.isEmpty = all.isEmpty := by
    cases all with
    | nil => rfl
    | cons name rest => rw [List.eraseDups_cons]; rfl
  rw [hempty]
  induction members with
  | nil => rfl
  | cons u rest ih =>
    rw [List.flatMap_cons, List.any_cons, ← ih]
    cases names u <;> rfl

/-! ## Layouts that are no block -/

/-- The layout is no template, so it is no block with fields. -/
def Unframed (layout : Layout) : Prop := ∀ start values, layout ≠ .template start values

theorem unframed_text (t : Text) : Unframed (.text t) := nofun

theorem unframed_arranged (how : Arrangement) (parts : List Layout) : Unframed (.arranged how parts) := nofun

theorem Unframed.not_block {layout : Layout} (h : Unframed layout) {names : List Text} (hnames : names ≠ []) :
    ¬ Block names layout := by
  rintro (⟨hnil, _⟩ | ⟨_, fields, _, hblock⟩)
  · exact hnames hnil
  · exact h _ _ hblock

section
variable {write : Writer} {path : List TypeId}

theorem unframed_verbatim (t : TypeId) (reason : VerbatimReason) : Yields Unframed (verbatim t reason) :=
  .next fun _ => .next fun _ => .pure (unframed_text _)

theorem unframed_arrayOf (element : TypeId) : Yields Unframed (arrayOf setting write path element) := by
  refine .next fun _ => .next fun _ => ?_
  split
  · exact .pure (unframed_arranged _ _)
  · exact .pure (unframed_arranged _ _)

theorem unframed_instantiation (t : TypeId) (symbol : Option Text) (types : List TypeId) :
    Yields Unframed (instantiation setting write path t symbol types) := by
  have happlication (name : Text) (types : List TypeId) : Yields Unframed (application setting write path name types) :=
    .next fun _ => .pure (unframed_arranged _ _)
  cases symbol with
  | none => exact unframed_verbatim t .unnamed
  | some name =>
    cases types with
    | nil => exact happlication name []
    | cons first rest =>
      rw [instantiation]
      split
      · exact unframed_arrayOf first
      · split
        · exact happlication name _
        · exact happlication name _

/-- A type is written as no block if it is neither an object shape nor an intersection. -/
theorem unframed_convertWith (t : TypeId) (hobject : (s.node t).shape ≠ .object)
    (hmeet : ∀ members, (s.node t).shape ≠ .intersection members) {written : Layout}
    (hrun : convertWith setting write path t s = some (written, s')) : Unframed written := by
  have henter {step : Converting Layout} (hstep : Yields Unframed step) :
      Yields Unframed (if path.contains t then verbatim t .recursive else step) := by
    split
    · exact unframed_verbatim t .recursive
    · exact hstep
  have htext (t : Text) : Yields Unframed (pure (.text t)) := .pure (unframed_text t)
  rw [convertWith_apply] at hrun
  cases hshape : (s.node t).shape <;> rw [hshape] at hrun
  case object => exact absurd hshape hobject
  case intersection members => exact absurd hshape (hmeet members)
  case string => exact htext _ s written s' hrun
  case number => exact htext _ s written s' hrun
  case boolean => exact htext _ s written s' hrun
  case template spans =>
    have htemplate : Yields Unframed (template setting write path spans) :=
      .next fun _ => .pure (unframed_arranged _ _)
    exact htemplate s written s' hrun
  case array element =>
    cases element with
    | none => exact henter (unframed_verbatim t .unsupported) s written s' hrun
    | some element => exact henter (unframed_arrayOf element) s written s' hrun
  case tuple elements => exact henter (.next fun _ => .pure (unframed_arranged _ _)) s written s' hrun
  case instantiation arguments => exact henter (unframed_instantiation t _ arguments) s written s' hrun
  case union members => exact henter (.next fun _ => .pure (unframed_arranged _ _)) s written s' hrun
  case other => exact henter (unframed_verbatim t .unsupported) s written s' hrun

end

/-! ## Bodies and their keywords -/

section
variable {depth : Nat} {written : Layout}

/-- A body of properties that are there has their names, as they are in the end. -/
theorem body_later {path : List TypeId} {ids : List PropertyId} (hids : ∀ q ∈ ids, q.index < s.properties.size)
    (hrun : body setting (convertIn setting depth) path ids s = some (written, s')) :
    setting.project.Unfolds s s' ∧ setting.project.Retains s s' ∧ Block (ids.map s'.propertyName) written := by
  have hunfolds : setting.project.Unfolds s s' :=
    follows_body (keeping_unfolds _) (follows_convertIn (keeping_unfolds _) rfl depth) path rfl ids s written s' hrun
  have hretains : setting.project.Retains s s' :=
    follows_body (keeping_retains _) (follows_convertIn (keeping_retains _) rfl depth) path rfl ids s written s' hrun
  rw [hunfolds.map_name hids]
  exact ⟨hunfolds, hretains, body_written (follows_fieldIn rfl depth path) hids hrun⟩

/-- The keyword and the body of a type go by the same names: there are some and the body is
their block, or there are none and the body has no fields. -/
structure Bodied (p : Project) (s : Store) (t : TypeId) (written : Layout) : Prop where
  keyword : isModelLike p t s = (!(ownNames p s t).isEmpty, s)
  body : Block (ownNames p s t) written ∨ ownNames p s t = [] ∧ Unframed written

theorem bodied_object (hsound : s.Sound) (ht : t.index < s.types.size) (hshape : (s.node t).shape = .object)
    (hrun : convertWith setting (convertIn setting depth) [] t s = some (written, s'))
    (hnode : s'.node t = s.node t) : Bodied setting.project s' t written := by
  rw [convertWith_apply, hshape] at hrun
  obtain ⟨_, hretains, hblock⟩ := body_later ((propertiesIn_finds _ t s).there hsound.filled) hrun
  have hagain : setting.project.properties t s' = ((setting.project.properties t s).1, s') :=
    hretains.properties_again ht
  have hnames : ownNames setting.project s' t = (setting.project.properties t s).1.map s'.propertyName := by
    rw [ownNames, hnode, hshape]
    dsimp only
    rw [hagain]
  refine ⟨?_, .inl (hnames ▸ hblock)⟩
  rw [isModelLike_apply, hnode, hshape, hnames, List.isEmpty_map]
  dsimp only
  rw [hagain]

theorem bodied_intersection (hsound : s.Sound) {members : List TypeId} (hshape : (s.node t).shape = .intersection members)
    (hrun : convertWith setting (convertIn setting depth) [] t s = some (written, s'))
    (hnode : s'.node t = s.node t) : Bodied setting.project s' t written := by
  rw [convertWith_apply, hshape] at hrun
  obtain ⟨⟨ids, s₁⟩, hmerged, hbody⟩ := Option.bind_eq_some_iff.1 hrun
  have hmembers := hsound.members t members hshape
  have hunfolds : setting.project.Unfolds s s₁ :=
    follows_mergedProperties (keeping_unfolds _) rfl _ members s ids s₁ hmerged
  obtain ⟨rfl, hknown⟩ := mergedProperties_found hsound.filled hmembers hmerged
  have hthere : ∀ q ∈ members.flatMap fun u => (setting.project.properties u s₁).1, q.index < s₁.properties.size :=
    List.forall_mem_flatMap.2 fun u hu => (hknown u hu).2
  obtain ⟨hlater, hretains, hblock⟩ := body_later (fun q hq => hthere q (mem_withNewNames hq)) hbody
  -- the members have the same properties when the body is written
  have hagain (u : TypeId) (hu : u ∈ members) :
      setting.project.properties u s' = ((setting.project.properties u s₁).1, s') := by
    refine Retains.properties_again (Nat.lt_of_lt_of_le (hmembers u hu) hunfolds.size) ?_
    rwa [(hknown u hu).1]
  have hlists : (members.flatMap fun u => (setting.project.properties u s').1) =
      members.flatMap fun u => (setting.project.properties u s₁).1 :=
    List.flatMap_congr fun u hu => by rw [hagain u hu]
  have hnames : ownNames setting.project s' t =
      (withNewNames s₁ [] (members.flatMap fun u => (setting.project.properties u s₁).1)).map s'.propertyName := by
    rw [ownNames, hnode, hshape]
    dsimp only
    rw [← List.map_flatMap, ← map_name_merged, hlists, withNewNames_congr fun q hq => hlater.name q (hthere q hq)]
  refine ⟨?_, .inl (hnames ▸ hblock)⟩
  rw [isModelLike_apply, hnode, hshape]
  dsimp only
  rw [anyProperties_later fun u hu => by rw [hagain u hu], ownNames, hnode, hshape]
  dsimp only
  rw [isEmpty_eraseDups_flatMap]
  simp only [List.isEmpty_map]

theorem bodied_other {write : Writer} (hobject : (s.node t).shape ≠ .object)
    (hmeet : ∀ members, (s.node t).shape ≠ .intersection members)
    (hrun : convertWith setting write [] t s = some (written, s')) (hnode : s'.node t = s.node t) :
    Bodied p s' t written := by
  have hnames : ownNames p s' t = [] := by
    rw [ownNames, hnode]
    split
    next hshape => exact absurd hshape hobject
    next members hshape => exact absurd hshape (hmeet members)
    next => rfl
  refine ⟨?_, .inr ⟨hnames, unframed_convertWith t hobject hmeet hrun⟩⟩
  rw [isModelLike_apply, hnode, hnames]
  split
  next hshape => exact absurd hshape hobject
  next members hshape => exact absurd hshape (hmeet members)
  next => rfl

/-- A type is written as a block with its own names, or it has none and is written as no block. -/
theorem convertIn_bodied (hsound : s.Sound) (ht : t.index < s.types.size)
    (hrun : convertIn setting depth [] t s = some (written, s')) : Bodied setting.project s' t written := by
  have hunfolds : setting.project.Unfolds s s' :=
    follows_convertIn (keeping_unfolds _) rfl depth [] t s written s' hrun
  have hnode : s'.node t = s.node t := hunfolds.node t ht
  cases depth with
  | zero => cases hrun
  | succ depth =>
    rw [convertIn] at hrun
    by_cases hobject : (s.node t).shape = .object
    · exact bodied_object hsound ht hobject hrun hnode
    by_cases hmeet : ∃ members, (s.node t).shape = .intersection members
    · obtain ⟨members, hmembers⟩ := hmeet
      exact bodied_intersection hsound hmembers hrun hnode
    · exact bodied_other hobject (fun members hmembers => hmeet ⟨members, hmembers⟩) hrun hnode

end

/-! ## Statements -/

/-- The statement of a model: a `model` whose body is a block with fields of these names, or
an `alias` whose body has no fields. -/
inductive Stated (setting : Setting) (model : Model) (names : List Text) (written : Layout) : Layout → Prop where
  | model : names ≠ [] → Block names written → Stated setting model names written
      (.lines (decorators setting.config model.docs ++ [.template "model "
        [(.text (model.displayName ++ placeholders model.parameterCount), " "), (written, ";")]]))
  | alias : names = [] → (∀ others, others ≠ [] → ¬ Block others written) → Stated setting model names written
      (.lines (decorators setting.config model.docs ++ [.template "alias "
        [(.text (model.displayName ++ placeholders model.parameterCount), " = "), (written, ";")]]))

/-- The keyword and the body of a statement are made apart, and fit. -/
theorem convertModel_stated {model : Model} {layout : Layout} (hsound : s.Sound) (ht : model.type.index < s.types.size)
    (hrun : convertModel setting model s = some (layout, s')) :
    ∃ written, convert setting model.type s = some (written, s') ∧
      Stated setting model (ownNames setting.project s' model.type) written layout := by
  rw [convertModel, Converting.bind_apply, Option.bind_eq_some_iff] at hrun
  obtain ⟨⟨written, s₁⟩, hconvert, hrun⟩ := hrun
  obtain ⟨hkeyword, hbody⟩ := convertIn_bodied hsound ht hconvert
  have hlike : (liftM (isModelLike setting.project model.type) : Converting Bool) s₁ =
      some (!(ownNames setting.project s₁ model.type).isEmpty, s₁) := congrArg some hkeyword
  dsimp only at hrun
  rw [Converting.bind_apply, hlike, Option.bind_some] at hrun
  obtain ⟨rfl, rfl⟩ := Prod.mk.inj (Option.some.inj hrun)
  refine ⟨written, hconvert, ?_⟩
  by_cases hnames : ownNames setting.project s₁ model.type = []
  · rw [hnames] at hbody ⊢
    refine .alias rfl fun others hothers hblock => ?_
    rcases hbody with hnone | ⟨_, hunframed⟩
    · exact hothers (hblock.unique hnone)
    · exact hunframed.not_block hothers hblock
  · rw [List.isEmpty_eq_false_iff.2 hnames]
    exact .model hnames (hbody.resolve_right fun h => hnames h.1)

/-- A model is stated, and the statement fits its type: it is a `model` if the body is a block with
fields, which have the names of the type's own properties or the first occurrences of those
of its members, none of them lost and none repeated, and an `alias` if the body has no fields. -/
def HasStatement (setting : Setting) (model : Model) (s : Store) : Prop :=
  ∃ layout s' written, convertModel setting model s = some (layout, s') ∧
    convert setting model.type s = some (written, s') ∧
    Stated setting model (ownNames setting.project s' model.type) written layout ∧
    ∀ members, (s'.node model.type).shape = .intersection members →
      (ownNames setting.project s' model.type).Nodup ∧
        ∀ name, name ∈ ownNames setting.project s' model.type ↔
          ∃ u ∈ members, name ∈ (setting.project.properties u s').1.map s'.propertyName

/-- What is stated of a model fits. -/
theorem hasStatement_of_isSome {model : Model} (hsound : s.Sound) (ht : model.type.index < s.types.size)
    (h : (convertModel setting model s).isSome = true) : HasStatement setting model s := by
  obtain ⟨⟨layout, s'⟩, hrun⟩ := Option.isSome_iff_exists.1 h
  obtain ⟨written, hconvert, hstated⟩ := convertModel_stated hsound ht hrun
  exact ⟨layout, s', written, hrun, hconvert, hstated, fun members hshape => ownNames_intersection hshape⟩

theorem HasStatement.isSome {model : Model} (h : HasStatement setting model s) : (convertModel setting model s).isSome = true := by
  obtain ⟨layout, s', _, hrun, _⟩ := h
  rw [hrun]
  rfl

/-- Whatever of a project has been resolved, its models are stated. -/
theorem hasStatement_of_stage (w : Stage setting.project) (hdepth : setting.Ample) {model : Model}
    (ht : model.type.index < w.store.types.size) : HasStatement setting model w.store := by
  obtain ⟨layout, w', hrun, _⟩ := (convertModel_answers hdepth ht).answer
  have hrun' : convertModel setting model w.store = some (layout, w'.store) := hrun
  exact hasStatement_of_isSome w.charted.sound ht (by rw [hrun']; rfl)

/-- A model over a type of any shape is stated, and the statement fits the type: in a graph that
is given in full just if the type does not hang, and always over what has been resolved of a
project, wherever that has got to. In any other graph a model is stated just if its type has
a text. -/
theorem statements_agree (setting : Setting) (model : Model) (ht : model.type.index < s.types.size) :
    (s.Sound → s.Given → setting.depth = none → (HasStatement setting model s ↔ ¬ Hangs setting s model.type)) ∧
    (∀ w : Stage setting.project, w.store = s → setting.Ample → HasStatement setting model s) ∧
    (∀ news, setting.project.Reached news s → setting.Ample → HasStatement setting model s) ∧
    (s.Sound → (HasStatement setting model s ↔ (convert setting model.type s).isSome = true)) := by
  have hstatement (hsound : s.Sound) : HasStatement setting model s ↔ (convertModel setting model s).isSome = true :=
    ⟨HasStatement.isSome, hasStatement_of_isSome hsound ht⟩
  refine ⟨fun hsound hgiven hdepth => ?_, ?_, fun news hreached hdepth => ?_, fun hsound => ?_⟩
  · rw [hstatement hsound, convertModel_isSome_iff hdepth hgiven]
  · rintro w rfl hdepth
    exact hasStatement_of_stage w hdepth ht
  · obtain ⟨w, rfl, _⟩ := hreached.exists_stage
    exact hasStatement_of_stage w hdepth ht
  · rw [hstatement hsound, isSome_convertModel]

/-- `{ a: string; b: string } & { b: number; c: number }`. -/
def mergedStore : Store where
  types := #[{ node := { shape := .string, text := "string" } }, { node := { shape := .number, text := "number" } },
    { node := { shape := .object, text := "P" }, properties := .listed [⟨0⟩, ⟨1⟩] },
    { node := { shape := .object, text := "Q" }, properties := .listed [⟨2⟩, ⟨3⟩] },
    { node := { shape := .intersection [⟨2⟩, ⟨3⟩], text := "P & Q" } }]
  properties := #[{ name := "a", isOptional := false, type := .done ⟨0⟩, docs := {} },
    { name := "b", isOptional := false, type := .done ⟨0⟩, docs := {} },
    { name := "b", isOptional := false, type := .done ⟨1⟩, docs := {} },
    { name := "c", isOptional := false, type := .done ⟨1⟩, docs := {} }]

theorem mergedStore_sound : mergedStore.Sound where
  filled := by
    rintro ⟨i⟩ ids hids
    match i with
    | 0 | 1 | 4 => cases hids; exact List.forall_mem_nil _
    | 2 | 3 => cases hids; decide
    | i + 5 =>
      rw [Store.cell_of_size_le (show mergedStore.types.size ≤ i + 5 from Nat.le_add_left 5 i)] at hids
      cases hids
      exact List.forall_mem_nil _
  members := by
    rintro ⟨i⟩ members hshape
    match i with
    | 0 | 1 | 2 | 3 => cases hshape
    | 4 => cases hshape; decide
    | i + 5 =>
      rw [Store.node_of_size_le (show mergedStore.types.size ≤ i + 5 from Nat.le_add_left 5 i)] at hshape
      cases hshape

theorem mergedStore_given : mergedStore.Given where
  listed := by
    rintro ⟨i⟩
    match i with
    | 0 | 1 | 2 | 3 | 4 => exact ⟨_, rfl⟩
    | i + 5 => exact ⟨[], by rw [Store.cell_of_size_le (show mergedStore.types.size ≤ i + 5 from Nat.le_add_left 5 i)]; rfl⟩
  done := by
    rintro ⟨i⟩ r hr
    match i with
    | 0 | 1 | 2 | 3 => cases hr; exact ⟨_, rfl⟩
    | i + 4 => cases hr

/-- No type of it is a template. -/
theorem mergedStore_ends (setting : Setting) (t : TypeId) : ¬ Hangs setting mergedStore t := by
  rintro ⟨u, _, hendless⟩
  obtain ⟨v, ⟨⟨spans, hspans⟩, _⟩, _⟩ := Relation.TransGen.head'_iff.1 hendless
  obtain ⟨i⟩ := u
  match i with
  | 0 | 1 | 2 | 3 | 4 => cases hspans
  | i + 5 =>
    rw [Store.node_of_size_le (show mergedStore.types.size ≤ i + 5 from Nat.le_add_left 5 i)] at hspans
    cases hspans

/-- A model for a type. -/
def plainModel (name : Text) (type : TypeId) : Model :=
  { displayName := name, type, parameterCount := 0, docs := {}, origin := ⟨0, 0⟩ }

/-- The members are merged name by name, though one of them is a model itself. The other model is over
an alias that leads back to itself, when nothing else has been asked for. -/
theorem statements_agree_merged :
    let setting : Setting := { registry := { models := [plainModel "P" ⟨2⟩] } }
    let first : Question := .declaration ⟨0, 0⟩
    mergedStore.Sound ∧ mergedStore.Given ∧ ¬ Hangs setting mergedStore ⟨4⟩ ∧
      (∃ layout s' written, convertModel setting (plainModel "M" ⟨4⟩) mergedStore = some (layout, s') ∧
        Stated setting (plainModel "M" ⟨4⟩) ["a", "b", "c"] written layout ∧
        layout.render = "model M \x7b\n  a: string;\n  b: string;\n  c: float64;\n\x7d;") ∧
      cyclicProject.Reached [first] (first.ask cyclicProject {}) ∧
      HasStatement { project := cyclicProject, registry := {} } (plainModel "N" (cyclicProject.declarationType ⟨0, 0⟩ {}).1)
        (first.ask cyclicProject {}) := by
  intro setting first
  have hrun : (convertModel setting (plainModel "M" ⟨4⟩) mergedStore).map (fun r => (r.1.render, ownNames {} r.2 ⟨4⟩)) =
      some (("model M \x7b\n  a: string;\n  b: string;\n  c: float64;\n\x7d;" : Text), [("a" : Text), "b", "c"]) := by cbv
  obtain ⟨⟨layout, s'⟩, hs, heq⟩ := Option.map_eq_some_iff.1 hrun
  obtain ⟨hrender, hnames⟩ := Prod.mk.inj heq
  have hends := mergedStore_ends setting ⟨4⟩
  have hmerged := (statements_agree (s := mergedStore) setting (plainModel "M" ⟨4⟩) (by decide)).1
  obtain ⟨_, _, written, hmodel, _, hstated, _⟩ := (hmerged mergedStore_sound mergedStore_given rfl).2 hends
  cases hs.symm.trans hmodel
  have hreached : cyclicProject.Reached [first] (first.ask cyclicProject {}) := by
    refine Reached.start.new ⟨_, rfl⟩ ?_
    rintro ⟨t, ht⟩
    cases ht
  obtain ⟨w, hw⟩ := exists_empty cyclicProject
  obtain ⟨t, w', hask, _, hdeclared⟩ := w.declarationType (show ∃ d, cyclicProject.declaration? ⟨0, 0⟩ = some d from ⟨_, rfl⟩)
  rw [hw] at hask
  have hthere : t.index < w'.store.types.size := w'.charted.entries.lt hdeclared
  rw [show first.ask cyclicProject {} = w'.store from congrArg Prod.snd hask] at hreached ⊢
  have hcyclic := statements_agree { project := cyclicProject, registry := {} } (plainModel "N" t) hthere
  rw [show cyclicProject.declarationType ⟨0, 0⟩ {} = (t, w'.store) from hask]
  exact ⟨mergedStore_sound, mergedStore_given, hends, ⟨layout, s', written, hs, hnames ▸ hstated, hrender⟩, hreached,
    hcyclic.2.2.1 _ hreached fun n hn => by cases hn⟩

/-- A template with itself in its hole, and the lists of it. -/
def holedStore : Store :=
  bareStore [{ shape := .template [.chunk "x", .hole ⟨0⟩], text := "a" }, { shape := .array (some ⟨0⟩), text := "a[]" }]

theorem holedStore_sound : holedStore.Sound where
  filled := by
    rintro ⟨i⟩ ids hids
    match i with
    | 0 | 1 => cases hids; exact List.forall_mem_nil _
    | i + 2 =>
      rw [Store.cell_of_size_le (show holedStore.types.size ≤ i + 2 from Nat.le_add_left 2 i)] at hids
      cases hids
      exact List.forall_mem_nil _
  members := by
    rintro ⟨i⟩ members hshape
    match i with
    | 0 | 1 => cases hshape
    | i + 2 =>
      rw [Store.node_of_size_le (show holedStore.types.size ≤ i + 2 from Nat.le_add_left 2 i)] at hshape
      cases hshape

/-- A model over a type that hangs has no statement, however deep its types are written. -/
theorem model_without_statement :
    let registry : Registry := { models := [plainModel "B" ⟨1⟩] }
    holedStore.Sound ∧ holedStore.Given ∧
      ∀ depth, convertModel { registry, depth } (plainModel "B" ⟨1⟩) holedStore = none := by
  intro registry
  refine ⟨holedStore_sound, bareStore_given _, fun depth => ?_⟩
  have hendless : Endless { registry, depth } holedStore ⟨0⟩ := .single ⟨⟨_, rfl⟩, List.mem_cons_self, rfl⟩
  have hhangs : Hangs { registry, depth } holedStore ⟨1⟩ := hendless.hangs.of_inner ⟨List.mem_cons_self, rfl⟩
  have hconvert : convert { registry, depth } ⟨1⟩ holedStore = none := convertIn_none_of_hangs (bareStore_given _) hhangs _
  apply Option.not_isSome_iff_eq_none.1
  rw [isSome_convertModel, show convert _ (plainModel "B" ⟨1⟩).type _ = none from hconvert]
  exact Bool.false_ne_true

end TypeSpec

end WireSchema
