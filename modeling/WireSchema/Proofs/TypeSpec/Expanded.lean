import WireSchema.Proofs.Project.Owned
import WireSchema.Proofs.TypeSpec.Asking
import WireSchema.Proofs.TypeSpec.Outcome
/-!
# Only names stand for models

Whatever has been asked before, the type of a part or of a property that is no
bare name is no declaration's, so no model is found for it, and it is written in
full. It does not matter how many models are written like it.
-/

namespace WireSchema

open Project TypeSpec

/-- The expression is a name without type arguments. -/
def TypeExpr.isBare : TypeExpr → Bool
  | .reference _ [] _ => true
  | _ => false

variable {p : Project} {config : Config} {s : Store}

theorem Project.target?_eq_none {context : Context} {e : TypeExpr} (h : e.isBare = false) : p.target? context e = none := by
  cases htarget : p.target? context e with
  | none => rfl
  | some d =>
    obtain ⟨name, text, rfl, _⟩ := target?_eq_some.1 htarget
    cases h

/-! ## Models have types of declarations -/

/-- A declaration that is there has the type that is found for it. -/
theorem Project.declarationType_owned {d : DeclarationId} {declaration : Declaration}
    (h : p.declaration? d = some declaration) (s : Store) :
    (p.declarationType d s).2.Owned (p.declarationType d s).1 := by
  have hdeclaring : p.Declaring p.aliases d s (p.declarationType d s) := p.declaring p.aliases d s
  generalize p.declarationType d s = made at hdeclaring ⊢
  cases hdeclaring with
  | known hsome => exact Store.owned_of_declared? hsome
  | missing _ hnone => cases hnone.symm.trans h
  | interface _ _ _ => exact ⟨d, List.mem_cons_self⟩
  | enumeration _ _ _ _ => exact ⟨d, List.mem_cons_self⟩
  | definition _ _ _ _ _ => exact ⟨d, List.mem_cons_self⟩
  | circular _ hd hkind hout => exact absurd (mem_aliases ⟨_, _, (body?_eq hd).trans (congrArg some hkind)⟩) hout

namespace Registry

/-- What the registry has for a declaration has the type of one. -/
theorem modelOf?_owned (config : Config) (id : DeclarationId) (s : Store) {model : Model}
    (h : (modelOf? p config id s).1 = some model) : (modelOf? p config id s).2.Owned model.type := by
  rw [modelOf?] at h ⊢
  cases hd : p.declaration? id with
  | none =>
    rw [hd] at h
    cases h
  | some d =>
    rw [hd] at h
    simp only at h ⊢
    cases hname : exportName? config d with
    | none =>
      rw [hname] at h
      cases h
    | some name =>
      rw [hname] at h
      cases h
      exact declarationType_owned hd s

theorem turns_modelOf? (config : Config) (id : DeclarationId) (s : Store) : p.Turns s (modelOf? p config id s).2 := by
  rw [modelOf?]
  cases p.declaration? id with
  | none => exact .refl
  | some d =>
    simp only
    cases exportName? config d with
    | none => exact .refl
    | some name => exact .single (.declaration id)

theorem build_owned (config : Config) (s : Store) {model : Model} (h : model ∈ (build p config s).1.models) :
    (build p config s).2.Owned model.type := by
  have hmodels (ids : List DeclarationId) (s : Store) (found : Option Model)
      (hfound : found ∈ (ids.mapM (modelOf? p config) s).1) (hmodel : found = some model) :
      (ids.mapM (modelOf? p config) s).2.Owned model.type := by
    induction ids generalizing s with
    | nil => cases hfound
    | cons id rest ih =>
      rw [Resolving.mapM_cons] at hfound ⊢
      rcases List.mem_cons.1 hfound with rfl | hfound
      · have hrest := turns_mapM (fun id (_ : id ∈ rest) => turns_modelOf? (p := p) config id) (modelOf? p config id s).2
        exact hrest.apart.kept _ (modelOf?_owned config id s hmodel)
      · exact ih _ hfound
  obtain ⟨found, hfound, hmodel⟩ := List.mem_filterMap.1 h
  exact hmodels p.declarationIds s found hfound hmodel

/-- A type that no declaration ever has is no model's. -/
theorem find?_eq_none_of_not_owned {s' : Store} {t : TypeId} (hlater : p.Turns (build p config s).2 s')
    (h : ¬ s'.Owned t) : (build p config s).1.find? t = none := by
  rw [find?, List.find?_eq_none]
  intro model hmodel heq
  rw [beq_iff_eq] at heq
  exact h (heq ▸ hlater.apart.kept _ (build_owned config s hmodel))

end Registry

/-! ## All calls of a run -/

theorem Project.keeping_turns (p : Project) : p.Keeping p.Turns where
  refl _ := .refl
  trans h h' := h.trans h'
  events := turns_events
  declarationType d _ := .single (.declaration d)
  properties := turns_propertiesIn p.interfaces
  propertyType q _ := .single (.property q)

/-- A conversion, wherever asking has got to, takes such steps as the project is
asked for. Of all that is resolved in them, the types of what is no bare name and
no whole definition have no model, and are written in full. -/
theorem occurrences_expanded {names : List Text} {sections : List Section} {s₀ : Store}
    (hrun : Document.convertUnits p config names s₀ = some (sections, s)) :
    let built := Registry.build p config s₀
    p.Turns s₀ built.2 ∧ p.Turns built.2 s ∧
      ∀ before k after k', p.Turns {} before → p.Asks before k after → p.Turns after s → Call.Calls p k k' →
        k'.type.isBare = false → k'.whole = false →
          k'.Gives p (k'.made p).1 ∧ ∀ t, k'.Gives p t → built.1.find? t = none ∧
            ∀ write path, reference (Document.settingFrom p config built) write path t = write path t := by
  intro built
  obtain ⟨hbuilt, hlater⟩ := keeps_convertUnits (keeping_turns p) hrun
  refine ⟨hbuilt, hlater, fun before k after k' hstart hasks hafter hcalls hbare hinner => ?_⟩
  have htarget : p.target? k'.context k'.type = none := target?_eq_none hbare
  refine ⟨Call.gives_made htarget, fun t ht => ?_⟩
  have hnone : built.1.find? t = none :=
    Registry.find?_eq_none_of_not_owned hlater (hstart.never_owned hasks hcalls hafter hinner htarget ht)
  refine ⟨hnone, fun write path => ?_⟩
  have hsetting : (Document.settingFrom p config built).registry.find? t = none := hnone
  rw [reference, hsetting]

/-! ## An alias and its look-alike -/

/-- `type Word = string` and `type Words = string[]`, both exported. -/
def wordsProject : Project where
  units := [{ name := "u", declarations := [
    { name := "Word", docs := { tags := [{ name := "model", text := [] }] },
      body := .typeAlias [] (.keyword "string") },
    { name := "Words", docs := { tags := [{ name := "model", text := [] }] },
      body := .typeAlias [] (.array (.keyword "string") "string[]") }] }]

/-- The store in which the type of the first alias has been asked for. -/
def wordsProject_word : Store := (wordsProject.declarationType ⟨0, 0⟩ {}).2

/-- The store in which the type of the second one has been asked for, too. -/
def wordsProject_words : Store := (wordsProject.declarationType ⟨0, 1⟩ wordsProject_word).2

/-- The definition of the second alias. -/
def wordsProject_definition : Call where
  closed := wordsProject.aliases.erase ⟨0, 1⟩
  context := { unit := 0 }
  type := .array (.keyword "string") "string[]"
  store := wordsProject_word
  whole := true

/-- The element of the array is written like the first alias, and has a type of its own. -/
theorem occurrences_expanded_words : ∃ sections s,
    Document.convertUnits wordsProject {} ["u"] wordsProject_words = some (sections, s) ∧
      ∃ element : Call, element.type = .keyword "string" ∧ Call.Calls wordsProject wordsProject_definition element ∧
        (Registry.build wordsProject {} wordsProject_words).1.find? (element.made wordsProject).1 = none := by
  have hrun : (Document.convertUnits wordsProject {} ["u"] wordsProject_words).map (·.1) =
      some [.converted "u" "alias Word = string;\n\nalias Words = string[];" []] := by cbv
  obtain ⟨⟨sections, s⟩, hs, _⟩ := Option.map_eq_some_iff.1 hrun
  obtain ⟨hbuilt, hlater, hall⟩ := occurrences_expanded hs
  let element : Call :=
    { closed := wordsProject_definition.closed, context := { unit := 0 }, type := .keyword "string"
      store := wordsProject_word, whole := false }
  have hnone : wordsProject_word.declared? ⟨0, 1⟩ = none := by cbv
  have hfirst : wordsProject.Turns {} wordsProject_word := .single (.declaration ⟨0, 0⟩)
  have hasks : wordsProject.Asks wordsProject_word wordsProject_definition wordsProject_words := .declaration hnone rfl
  have hcalls : Call.Calls wordsProject wordsProject_definition element := by
    refine .single ?_
    have hpart := Call.Makes.part (p := wordsProject) (k := wordsProject_definition) (i := 0) (e := .keyword "string") rfl
    rwa [List.take_zero, resolveAll, Resolving.pure_apply] at hpart
  obtain ⟨hgives, hfound⟩ := hall _ _ _ element hfirst hasks (hbuilt.trans hlater) hcalls rfl rfl
  exact ⟨sections, s, hs, element, rfl, hcalls, (hfound _ hgives).1⟩

end WireSchema
