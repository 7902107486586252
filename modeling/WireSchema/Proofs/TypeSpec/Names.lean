import WireSchema.Proofs.TypeSpec.Placed
/-!
# What names are written as

A name without type arguments stands for a node of the registry, and the model
of that node says what is written. A name with type arguments has a node of its
own, which is written under the name in the source. So is the name of an alias
that is met again inside its own definition.
-/

namespace WireSchema

open Project TypeSpec

variable {p : Project} {config : Config} {s : Store} {c : Chart} {root : Root} {steps : List Nat} {context : Context}
  {e : TypeExpr} {t : TypeId} {setting : Setting} {name text : Text}

/-- A declaration is looked up by its name. -/
theorem Project.lookup?_name {place : Nat} {d : DeclarationId} (h : p.lookup? place name = some d) :
    ∃ declaration, p.declaration? d = some declaration ∧ declaration.name = name := by
  have hfound (place : Nat) (h : p.findIn? place name = some d) :
      ∃ declaration, p.declaration? d = some declaration ∧ declaration.name = name := by
    simp only [findIn?, bind, Option.bind_eq_some_iff, pure, Option.some.injEq] at h
    obtain ⟨unit, hunit, index, hindex, rfl⟩ := h
    obtain ⟨hlt, hname, _⟩ := List.findIdx?_eq_some_iff_getElem.1 hindex
    exact ⟨unit.declarations[index], by simp [declaration?, hunit, hlt], eq_of_beq hname⟩
  rw [lookup?] at h
  cases hunit : p.findIn? place name with
  | some id =>
    rw [hunit] at h
    cases h
    exact hfound place hunit
  | none =>
    rw [hunit] at h
    obtain ⟨other, _, hother⟩ := List.exists_of_findSome?_eq_some h
    exact hfound other hother

/-! ## Names without type arguments -/

theorem referredToAs_model {model : Model} (h : setting.registry.find? t = some model) :
    ReferredToAs setting s t model.displayName := by
  intro depth path
  rw [reference, h]
  exact ⟨s.events, rfl⟩

/-- The node of a declaration that is exported has a model. -/
theorem Registry.Covers.exists_model {r : Registry} (hr : Covers p config s r) {d : DeclarationId}
    {declaration : Declaration} (hd : p.declaration? d = some declaration)
    (hname : exportName? config declaration = some name) (ht : s.declared? d = some t) :
    ∃ model, r.find? t = some model := by
  obtain ⟨model, hmodel, rfl⟩ := hr.complete d declaration name hd hname
  obtain ⟨_, hexports⟩ := hr.sound model hmodel
  rw [hexports.type] at ht
  cases ht
  refine Option.isSome_iff_exists.1 (List.find?_isSome.2 ⟨model, hmodel, ?_⟩)
  exact beq_self_eq_true model.type

/-- The node of a name that is cut off from its declaration. -/
theorem Stands.cut (h : Stands p s c root steps context e t) (hcharted : p.Charted s c) {d : DeclarationId}
    {declaration : Declaration} (htarget : p.target? context e = some d) (hd : p.declaration? d = some declaration)
    (horigin : c.types t.index = .part root steps []) (hlt : t.index < s.types.size) :
    s.node t = { shape := .other, text := declaration.name } := by
  have hnode := hcharted.nodes t hlt
  rw [NodeOk, horigin] at hnode
  obtain ⟨context', e', types, hpart, _, _, hnode⟩ := hnode
  rw [h.part] at hpart
  cases hpart
  obtain ⟨name, text, rfl, hparameter, hlookup⟩ := target?_eq_some.1 htarget
  rw [hnode.2, nodeOf, if_pos List.isEmpty_nil, hparameter, if_neg Bool.false_ne_true, hlookup]
  simp only [hd, Option.map_some, Option.getD_some]

theorem Document.Outcome.named {names : List Text} {sections : List Section}
    (h : Outcome p config names sections s setting c) (hstands : Stands p s c root steps context e t)
    {d : DeclarationId} {declaration : Declaration} (htarget : p.target? context e = some d)
    (hd : p.declaration? d = some declaration) (hname : Registry.exportName? config declaration = some name)
    (hinner : Inner root steps) :
    (root ≠ .body d ∧ s.declared? d = some t ∧ ∃ model, setting.registry.find? t = some model ∧
      ReferredToAs setting s t model.displayName) ∨
    (∃ a, root = .body a ∧ p.Leads d a ∧ ReferredToAs setting s t declaration.name) := by
  cases hstands.denotes with
  | declared htarget' hroot hdeclared =>
    rw [htarget] at htarget'
    cases htarget'
    obtain ⟨model, hmodel⟩ := h.registry.exists_model hd hname hdeclared
    exact .inl ⟨hroot, hdeclared, model, hmodel, referredToAs_model hmodel⟩
  | own hleads hlt horigin =>
    obtain ⟨a, hroot, ha⟩ := hleads d htarget
    have hfull : WrittenInFull setting s t _ := writtenInFull_other (hstands.cut h.charted htarget hd horigin hlt)
    exact .inr ⟨a, hroot, ha, referredToAs_of_find? hfull (h.unregistered hinner horigin)⟩

/-- The name of an exported declaration is written as the first model of the
declaration's node. Only inside of the definition of an alias that the
declaration leads back to, it may be written as the declaration is named in the source. -/
theorem names_written {names : List Text} {sections : List Section}
    (h : Document.convertUnits p config names {} = some (sections, s)) :
    ∃ setting c, Document.Outcome p config names sections s setting c ∧
      ∀ root steps context e t d declaration name, Stands p s c root steps context e t →
        p.target? context e = some d → p.declaration? d = some declaration →
        Registry.exportName? config declaration = some name → Inner root steps →
          (root ≠ .body d ∧ s.declared? d = some t ∧ ∃ model, setting.registry.find? t = some model ∧
            ReferredToAs setting s t model.displayName) ∨
          (∃ a, root = .body a ∧ p.Leads d a ∧ ReferredToAs setting s t declaration.name) := by
  obtain ⟨setting, c, houtcome⟩ := Document.outcome h
  exact ⟨setting, c, houtcome, fun _ _ _ _ _ _ _ _ hstands htarget hd hname hinner =>
    houtcome.named hstands htarget hd hname hinner⟩

/-! ### A tree -/

/-- `/** @model Other */ type Tree = [string, Tree[]]` -/
def treeProject : Project where
  units := [{ name := "u", declarations := [
    { name := "Tree", docs := { tags := [{ name := "model", text := "Other" }] },
      body := .typeAlias [] (.tuple [.keyword "string", .array (.reference "Tree" [] "Tree") "Tree[]"]
        "[string, Tree[]]" false) }] }]

theorem treeProject_converts : ∃ s, Document.convertUnits treeProject {} ["u"] {} =
    some ([.converted "u" "alias Other = [string, Tree[]];" []], s) := by
  have hrun : (Document.convertUnits treeProject {} ["u"] {}).map (·.1) =
      some [.converted "u" "alias Other = [string, Tree[]];" []] := by cbv
  obtain ⟨⟨sections, s⟩, hs, rfl⟩ := Option.map_eq_some_iff.1 hrun
  exact ⟨s, hs⟩

/-- The tree's name stands inside of the tree. -/
theorem treeProject_stands {names : List Text} {sections : List Section}
    (h : Document.Outcome treeProject {} names sections s setting c) :
    ∃ t, Stands treeProject s c (.body ⟨0, 0⟩) [0, 1] { unit := 0 } (.reference "Tree" [] "Tree") t := by
  obtain ⟨t, ht⟩ := h.exists_body (d := ⟨0, 0⟩) rfl rfl rfl rfl
  obtain ⟨u, hu⟩ := ht.exists_part h.charted rfl rfl (i := 1) rfl
  exact hu.exists_part h.charted rfl rfl rfl

theorem names_written_tree : ∃ s setting c t,
    Document.Outcome treeProject {} ["u"] [.converted "u" "alias Other = [string, Tree[]];" []] s setting c ∧
    Stands treeProject s c (.body ⟨0, 0⟩) [0, 1] { unit := 0 } (.reference "Tree" [] "Tree") t ∧
    ReferredToAs setting s t "Tree" := by
  obtain ⟨s, hs⟩ := treeProject_converts
  obtain ⟨setting, c, houtcome, hwritten⟩ := names_written hs
  obtain ⟨t, ht⟩ := treeProject_stands houtcome
  refine ⟨s, setting, c, t, houtcome, ht, ?_⟩
  rcases hwritten _ _ _ _ _ ⟨0, 0⟩ _ _ ht rfl rfl rfl fun _ _ => List.cons_ne_nil _ _ with ⟨hroot, _⟩ | ⟨_, _, _, hname⟩
  · exact absurd rfl hroot
  · exact hname

/-- The tree is displayed as `Other`, but not where it stands inside of itself. -/
theorem name_not_displayed : ∃ s setting c t tree model,
    Document.Outcome treeProject {} ["u"] [.converted "u" "alias Other = [string, Tree[]];" []] s setting c ∧
    s.declared? ⟨0, 0⟩ = some tree ∧ setting.registry.find? tree = some model ∧ model.displayName = "Other" ∧
    Stands treeProject s c (.body ⟨0, 0⟩) [0, 1] { unit := 0 } (.reference "Tree" [] "Tree") t ∧
    treeProject.target? { unit := 0 } (.reference "Tree" [] "Tree") = some ⟨0, 0⟩ ∧
    ¬ ReferredToAs setting s t "Other" := by
  obtain ⟨s, hs⟩ := treeProject_converts
  obtain ⟨setting, c, houtcome⟩ := Document.outcome hs
  obtain ⟨t, ht⟩ := treeProject_stands houtcome
  -- the tree is the only declaration, so whichever model is found, it is displayed as `Other`
  have honly (id : DeclarationId) (d : Declaration) (hd : treeProject.declaration? id = some d) :
      Registry.exportName? {} d = some "Other" := by
    obtain ⟨unit, index⟩ := id
    cases unit with
    | succ => cases hd
    | zero =>
      cases index with
      | succ => cases hd
      | zero => cases hd; rfl
  obtain ⟨tree, hmodel, horigin⟩ := houtcome.registry.complete ⟨0, 0⟩ _ _ rfl rfl
  obtain ⟨_, hexports⟩ := houtcome.registry.sound tree hmodel
  have hdeclared : s.declared? ⟨0, 0⟩ = some tree.type := horigin ▸ hexports.type
  obtain ⟨model, hfind⟩ := houtcome.registry.exists_model (d := ⟨0, 0⟩) rfl rfl hdeclared
  obtain ⟨d, hfound⟩ := houtcome.registry.sound model (List.mem_of_find?_eq_some hfind)
  have hdisplayed : model.displayName = "Other" :=
    Option.some.inj (hfound.name.symm.trans (honly _ _ hfound.declaration))
  refine ⟨s, setting, c, t, tree.type, model, houtcome, hdeclared, hfind, hdisplayed, ht, rfl, fun hother => ?_⟩
  rcases houtcome.named ht (d := ⟨0, 0⟩) rfl rfl rfl fun _ _ => List.cons_ne_nil _ _ with ⟨hroot, _⟩ | ⟨_, _, _, hname⟩
  · exact hroot rfl
  · exact absurd (hname.unique hother) (by decide)

/-! ## Names with type arguments -/

/-- Wherever the type is referred to outside of itself, it is written as the
name applied to the arguments. -/
def AppliedAs (setting : Setting) (s : Store) (t : TypeId) (name : Text) (arguments : List TypeId) : Prop :=
  ∀ depth path, path.contains t = false →
    reference setting (convertIn setting (depth + 1)) path t s =
      application setting (convertIn setting depth) (t :: path) name arguments s

/-- The node of a name with type arguments. -/
theorem Stands.instantiation {first : TypeExpr} {rest : List TypeExpr}
    (h : Stands p s c root steps context (.reference name (first :: rest) text) t) (hcharted : p.Charted s c) :
    ∃ arguments, p.PartsDenote s c root steps context (first :: rest) arguments ∧
      s.node t = { shape := .instantiation arguments, text, symbol := some name } :=
  h.node hcharted rfl rfl

theorem instantiation_apply (write : Writer) (path : List TypeId) {arguments : List TypeId} (harray : name ≠ "Array")
    (hrecord : name ≠ "Record") :
    instantiation setting write path t (some name) arguments = application setting write path name arguments := by
  cases arguments with
  | nil => rfl
  | cons first rest => rw [instantiation, if_neg harray, if_neg fun h => hrecord h.1]

theorem appliedAs_instantiation {arguments : List TypeId}
    (hnode : s.node t = { shape := .instantiation arguments, text, symbol := some name })
    (hfind : setting.registry.find? t = none) (harray : name ≠ "Array") (hrecord : name ≠ "Record") :
    AppliedAs setting s t name arguments := by
  intro depth path hpath
  rw [reference, hfind]
  show convertWith setting (convertIn setting depth) path t s = _
  rw [convertWith_apply]
  simp only [hnode, hpath]
  show instantiation setting (convertIn setting depth) (t :: path) t (some name) arguments s = _
  rw [instantiation_apply _ _ harray hrecord]

theorem application_name {write : Writer} {path : List TypeId} {arguments arguments' : List TypeId} {name' : Text}
    {written : List Layout} {s' : Store} (hwritten : references setting write path arguments s = some (written, s'))
    (h : application setting write path name arguments s = application setting write path name' arguments' s) :
    name = name' := by
  unfold application at h
  rw [Converting.bind_apply, Converting.bind_apply, hwritten] at h
  cases hwritten' : references setting write path arguments' s with
  | none => rw [hwritten'] at h; cases h
  | some r =>
    obtain ⟨written', s''⟩ := r
    rw [hwritten'] at h
    cases h
    rfl

/-- What a type is written as determines the name that is applied. -/
theorem AppliedAs.unique {arguments arguments' : List TypeId} {name' : Text} (h : AppliedAs setting s t name arguments)
    (h' : AppliedAs setting s t name' arguments') {depth : Nat} {written : List Layout} {s' : Store}
    (hwritten : references setting (convertIn setting depth) [t] arguments s = some (written, s')) : name = name' :=
  application_name hwritten ((h depth [] rfl).symm.trans (h' depth [] rfl))

theorem Document.Outcome.applied {names : List Text} {sections : List Section} {first : TypeExpr} {rest : List TypeExpr}
    (h : Outcome p config names sections s setting c)
    (hstands : Stands p s c root steps context (.reference name (first :: rest) text) t) (hinner : Inner root steps)
    (harray : name ≠ "Array") (hrecord : name ≠ "Record") :
    ∃ arguments, p.PartsDenote s c root steps context (first :: rest) arguments ∧
      AppliedAs setting s t name arguments := by
  obtain ⟨arguments, hparts, hnode⟩ := hstands.instantiation h.charted
  refine ⟨arguments, hparts, appliedAs_instantiation hnode ?_ harray hrecord⟩
  exact h.unregistered hinner (hstands.origin rfl).2

/-- A name with type arguments is written as it is named in the source, even
where the declaration of the name is displayed by another one. -/
theorem instantiations_written {names : List Text} {sections : List Section}
    (h : Document.convertUnits p config names {} = some (sections, s)) :
    ∃ setting c, Document.Outcome p config names sections s setting c ∧
      ∀ root steps context name first rest text t,
        Stands p s c root steps context (.reference name (first :: rest) text) t → Inner root steps →
        name ≠ "Array" → name ≠ "Record" →
          (∃ arguments, p.PartsDenote s c root steps context (first :: rest) arguments ∧
            AppliedAs setting s t name arguments) ∧
          ∀ d, p.lookup? context.unit name = some d →
            ∃ declaration, p.declaration? d = some declaration ∧ declaration.name = name := by
  obtain ⟨setting, c, houtcome⟩ := Document.outcome h
  refine ⟨setting, c, houtcome, ?_⟩
  intro root steps context name first rest text t hstands hinner harray hrecord
  obtain ⟨arguments, hparts, happlied⟩ := houtcome.applied hstands hinner harray hrecord
  exact ⟨⟨arguments, hparts, happlied⟩, fun d hd => lookup?_name hd⟩

/-! ### A box -/

/-- `/** @model Other */ type Box<T> = [T]; /** @model */ type Use = [Box<string>]` -/
def boxProject : Project where
  units := [{ name := "u", declarations := [
    { name := "Box", docs := { tags := [{ name := "model", text := "Other" }] },
      body := .typeAlias ["T"] (.tuple [.reference "T" [] "T"] "[T]" false) },
    { name := "Use", docs := { tags := [{ name := "model", text := [] }] },
      body := .typeAlias [] (.tuple [.reference "Box" [.keyword "string"] "Box<string>"] "[Box<string>]" false) }] }]

theorem boxProject_converts : ∃ s, Document.convertUnits boxProject {} ["u"] {} =
    some ([.converted "u" "alias Other<T> = [T];\n\nalias Use = [Box<string>];" []], s) := by
  generalize hbuilt : Registry.build boxProject {} {} = built
  rw [Document.convertUnits_eq hbuilt]
  conv at hbuilt => lhs; cbv
  subst hbuilt
  exact ⟨_, rfl⟩

/-- The instantiation of the box stands in what uses it. -/
theorem boxProject_stands {names : List Text} {sections : List Section}
    (h : Document.Outcome boxProject {} names sections s setting c) :
    ∃ t, Stands boxProject s c (.body ⟨0, 1⟩) [0] { unit := 0 }
      (.reference "Box" [.keyword "string"] "Box<string>") t := by
  obtain ⟨t, ht⟩ := h.exists_body (d := ⟨0, 1⟩) rfl rfl rfl rfl
  exact ht.exists_part h.charted rfl rfl rfl

theorem instantiations_written_box : ∃ s setting c t arguments,
    Document.Outcome boxProject {} ["u"] [.converted "u" "alias Other<T> = [T];\n\nalias Use = [Box<string>];" []]
      s setting c ∧
    Stands boxProject s c (.body ⟨0, 1⟩) [0] { unit := 0 }
      (.reference "Box" [.keyword "string"] "Box<string>") t ∧
    AppliedAs setting s t "Box" arguments := by
  obtain ⟨s, hs⟩ := boxProject_converts
  obtain ⟨setting, c, houtcome, hwritten⟩ := instantiations_written hs
  obtain ⟨t, ht⟩ := boxProject_stands houtcome
  obtain ⟨⟨arguments, _, happlied⟩, _⟩ :=
    hwritten _ _ _ _ _ _ _ t ht (fun _ _ => List.cons_ne_nil _ _) (by decide) (by decide)
  exact ⟨s, setting, c, t, arguments, houtcome, ht, happlied⟩

/-- The box is displayed as `Other`, and its instantiation is not one of `Other`. -/
theorem instantiation_not_displayed : ∃ s setting c t d,
    Document.Outcome boxProject {} ["u"] [.converted "u" "alias Other<T> = [T];\n\nalias Use = [Box<string>];" []]
      s setting c ∧
    Stands boxProject s c (.body ⟨0, 1⟩) [0] { unit := 0 }
      (.reference "Box" [.keyword "string"] "Box<string>") t ∧
    boxProject.lookup? 0 "Box" = some ⟨0, 0⟩ ∧ boxProject.declaration? ⟨0, 0⟩ = some d ∧
    Registry.exportName? {} d = some "Other" ∧
    ∀ arguments, ¬ AppliedAs setting s t "Other" arguments := by
  obtain ⟨s, hs⟩ := boxProject_converts
  obtain ⟨setting, c, houtcome⟩ := Document.outcome hs
  obtain ⟨t, ht⟩ := boxProject_stands houtcome
  refine ⟨s, setting, c, t, _, houtcome, ht, rfl, rfl, rfl, fun others hother => ?_⟩
  obtain ⟨arguments, hparts, happlied⟩ :=
    houtcome.applied ht (fun _ _ => List.cons_ne_nil _ _) (by decide) (by decide)
  -- the argument is a string, so the instantiation is written at any depth
  match arguments, hparts.length with
  | [u], _ =>
    have hu : Stands boxProject s c (.body ⟨0, 1⟩) [0, 0] { unit := 0 } (.keyword "string") u :=
      ⟨rfl, hparts.each 0 _ _ rfl rfl⟩
    obtain ⟨types, _, hnode⟩ := hu.node houtcome.charted rfl rfl
    have hstring : ReferredToAs setting s u "string" :=
      referredToAs_of_find? (writtenInFull_string (by rw [hnode]; rfl))
        (houtcome.unregistered (fun _ _ => List.cons_ne_nil _ _) (hu.origin rfl).2)
    obtain ⟨events, hrun⟩ := hstring 0 [t]
    have hwritten : references setting (convertIn setting 1) [t] [u] s =
        some ([.text "string"], { s with events }) := by
      rw [references, List.mapM_cons, Converting.bind_apply, hrun]
      rfl
    exact absurd (happlied.unique hother hwritten) (by decide)

end WireSchema

/-!
## Type parameters

The head of a statement counts its parameters off, `T` or `T1`, `T2` and so on.
In the body a parameter is written as it is named in the source.
-/

namespace WireSchema

open Project TypeSpec

variable {p : Project} {config : Config} {s : Store} {c : Chart} {root : Root} {steps : List Nat} {context : Context}
  {t : TypeId} {setting : Setting} {name text : Text}

theorem target?_parameter (hname : name ∈ context.parameters) : p.target? context (.reference name [] text) = none := by
  rw [target?, if_pos (List.contains_iff_mem.2 hname)]

theorem nodeOf_parameter (hname : name ∈ context.parameters) (types : List TypeId) :
    p.nodeOf s context types (.reference name [] text) = { shape := .other, text := name } := by
  rw [nodeOf, if_pos List.isEmpty_nil, if_pos (List.contains_iff_mem.2 hname)]

/-- The node of a type parameter is its name. -/
theorem Stands.parameter (h : Stands p s c root steps context (.reference name [] text) t) (hcharted : p.Charted s c)
    (hname : name ∈ context.parameters) : s.node t = { shape := .other, text := name } := by
  obtain ⟨types, _, hnode⟩ := h.node hcharted (target?_parameter hname) rfl
  rw [hnode, nodeOf_parameter hname]

/-- The statement of the model is a head, which is the text, and what the
model's type is written as. -/
def HeadedBy (setting : Setting) (s : Store) (model : Model) (head : Text) : Prop :=
  ∀ statement s', convertModel setting model s = some (statement, s') →
    ∃ body s₁, convert setting model.type s = some (body, s₁) ∧ ∃ keyword separator, statement =
      .lines (decorators setting.config model.docs ++ [.template keyword [(.text head, separator), (body, ";")]])

theorem headedBy_placeholders (setting : Setting) (s : Store) (model : Model) :
    HeadedBy setting s model (model.displayName ++ placeholders model.parameterCount) := by
  intro statement s' hrun
  unfold convertModel at hrun
  rw [Converting.bind_apply] at hrun
  cases hbody : convert setting model.type s with
  | none => rw [hbody] at hrun; cases hrun
  | some r =>
    refine ⟨r.1, r.2, rfl, ?_⟩
    rw [hbody, Option.bind_some, Converting.bind_apply, Converting.lift_apply, Option.bind_some] at hrun
    split at hrun
    · cases hrun
      exact ⟨_, _, rfl⟩
    · cases hrun
      exact ⟨_, _, rfl⟩

theorem Document.Outcome.parameter {names : List Text} {sections : List Section}
    (h : Outcome p config names sections s setting c)
    (hstands : Stands p s c root steps context (.reference name [] text) t) (hname : name ∈ context.parameters) :
    WrittenInFull setting s t name ∧ (Inner root steps → ReferredToAs setting s t name) := by
  have hfull : WrittenInFull setting s t _ := writtenInFull_other (hstands.parameter h.charted hname)
  refine ⟨hfull, fun hinner => referredToAs_of_find? hfull ?_⟩
  exact h.unregistered hinner (hstands.origin (target?_parameter hname)).2

/-- Type parameters are written under their own names, whatever the head of the
statement calls them. -/
theorem parameters_written {names : List Text} {sections : List Section}
    (h : Document.convertUnits p config names {} = some (sections, s)) :
    ∃ setting c, Document.Outcome p config names sections s setting c ∧
      (∀ model ∈ setting.registry.models, ∀ d, p.declaration? model.origin = some d →
        HeadedBy setting s model (model.displayName ++ placeholders d.parameters.length)) ∧
      ∀ root steps context name text t, Stands p s c root steps context (.reference name [] text) t →
        name ∈ context.parameters →
          WrittenInFull setting s t name ∧ (Inner root steps → ReferredToAs setting s t name) := by
  obtain ⟨setting, c, houtcome⟩ := Document.outcome h
  refine ⟨setting, c, houtcome, ?_, fun _ _ _ _ _ _ hstands hname => houtcome.parameter hstands hname⟩
  intro model hmodel d hd
  obtain ⟨d', hexports⟩ := houtcome.registry.sound model hmodel
  rw [hexports.declaration] at hd
  cases hd
  rw [← hexports.count]
  exact headedBy_placeholders setting s model

/-! ### A pair -/

/-- `/** @model */ type Pair<K, V> = [K, V]` -/
def pairProject : Project where
  units := [{ name := "u", declarations := [
    { name := "Pair", docs := { tags := [{ name := "model", text := [] }] },
      body := .typeAlias ["K", "V"] (.tuple [.reference "K" [] "K", .reference "V" [] "V"] "[K, V]" false) }] }]

theorem pairProject_converts : ∃ s, Document.convertUnits pairProject {} ["u"] {} =
    some ([.converted "u" "alias Pair<T1, T2> = [K, V];" []], s) := by
  have hrun : (Document.convertUnits pairProject {} ["u"] {}).map (·.1) =
      some [.converted "u" "alias Pair<T1, T2> = [K, V];" []] := by cbv
  obtain ⟨⟨sections, s⟩, hs, rfl⟩ := Option.map_eq_some_iff.1 hrun
  exact ⟨s, hs⟩

/-- The first parameter stands in the body of the pair. -/
theorem pairProject_stands {names : List Text} {sections : List Section}
    (h : Document.Outcome pairProject {} names sections s setting c) : ∃ t, Stands pairProject s c
      (.body ⟨0, 0⟩) [0] { unit := 0, parameters := ["K", "V"] } (.reference "K" [] "K") t := by
  obtain ⟨t, ht⟩ := h.exists_body (d := ⟨0, 0⟩) rfl rfl rfl rfl
  exact ht.exists_part h.charted rfl rfl rfl

theorem parameters_written_pair : ∃ s setting c t,
    Document.convertUnits pairProject {} ["u"] {} = some ([.converted "u" "alias Pair<T1, T2> = [K, V];" []], s) ∧
    Stands pairProject s c (.body ⟨0, 0⟩) [0] { unit := 0, parameters := ["K", "V"] } (.reference "K" [] "K") t ∧
    ReferredToAs setting s t "K" := by
  obtain ⟨s, hs⟩ := pairProject_converts
  obtain ⟨setting, c, houtcome, _, hwritten⟩ := parameters_written hs
  obtain ⟨t, ht⟩ := pairProject_stands houtcome
  exact ⟨s, setting, c, t, hs, ht, (hwritten _ _ _ _ _ _ ht List.mem_cons_self).2 fun _ _ => List.cons_ne_nil _ _⟩

/-- The head calls the first parameter `T1`, the body does not. -/
theorem parameter_not_placeholder : ∃ s setting c t,
    Document.convertUnits pairProject {} ["u"] {} = some ([.converted "u" "alias Pair<T1, T2> = [K, V];" []], s) ∧
    Document.Outcome pairProject {} ["u"] [.converted "u" "alias Pair<T1, T2> = [K, V];" []] s setting c ∧
    Stands pairProject s c (.body ⟨0, 0⟩) [0] { unit := 0, parameters := ["K", "V"] } (.reference "K" [] "K") t ∧
    ¬ ReferredToAs setting s t "T1" := by
  obtain ⟨s, hs⟩ := pairProject_converts
  obtain ⟨setting, c, houtcome⟩ := Document.outcome hs
  obtain ⟨t, ht⟩ := pairProject_stands houtcome
  refine ⟨s, setting, c, t, hs, houtcome, ht, fun hplaceholder => ?_⟩
  have hname := (houtcome.parameter ht List.mem_cons_self).2 fun _ _ => List.cons_ne_nil _ _
  exact absurd (hname.unique hplaceholder) (by decide)

end WireSchema
