import WireSchema.Proofs.Layout.Blank
import WireSchema.Proofs.Project.Named
import WireSchema.Proofs.Project.Solid
import WireSchema.Proofs.Project.Worded
import WireSchema.Proofs.TypeSpec.Blocks
/-!
# Types that are written as nothing

What is written for a type can be seen, but for the number type, if the
configuration leaves it blank, and for unions without members, on their own or as
the only member of a union. A union lacks members only where an enumeration does.
-/

namespace WireSchema

open Project TypeSpec

variable {p : Project} {config : Config} {setting : Setting} {s s' : Store} {c : Chart} {t : TypeId}

/-! ## Names -/

/-- Words are not blank. -/
theorem Text.isBlank_of_mem_words {t word : Text} (h : word ∈ words t) : isBlank word = false := by
  obtain ⟨hne, hseen⟩ := seen_of_mem_words h
  obtain ⟨c, rest, rfl⟩ := List.exists_cons_of_ne_nil hne
  rw [isBlank, List.all_cons, hseen c List.mem_cons_self, Bool.false_and]

/-- The name of a model can be seen. -/
theorem Registry.Covers.isBlank_displayName {r : Registry} (hp : p.Visible) (h : Covers p config s r) {model : Model}
    (hmodel : model ∈ r.models) : Text.isBlank model.displayName = false := by
  obtain ⟨d, hd⟩ := h.sound model hmodel
  have hname := hd.name
  rw [exportName?] at hname
  split at hname
  · cases hname
  next tag _ _ =>
    rw [← Option.some.inj hname]
    cases hwords : Text.words tag.text with
    | nil => exact (hp.declaration hd.declaration).name
    | cons word rest => exact Text.isBlank_of_mem_words (hwords ▸ List.mem_cons_self)

namespace TypeSpec

theorem not_contains_of_lt {path : List TypeId} (h : ∀ u ∈ path, t.index < u.index) : path.contains t = false :=
  Bool.eq_false_iff.2 fun hmem => Nat.lt_irrefl _ (h t (List.contains_iff_mem.1 hmem))

/-! ## Types without a text -/

/-- The type is written as nothing. -/
inductive Vacant (setting : Setting) (s : Store) : TypeId → Prop where
  | number {t : TypeId} : (s.node t).shape = .number → Text.isBlank setting.config.numberType = true → Vacant setting s t
  | empty {t : TypeId} : (s.node t).shape = .union [] → Vacant setting s t
  | single {t u : TypeId} : (s.node t).shape = .union [u] → setting.registry.find? u = none → Vacant setting s u →
    Vacant setting s t

/-- Where all enumerations have members and numbers have a name, no type is vacant. -/
theorem not_vacant (hp : p.Visible) (h : p.Charted s c)
    (henumerations : ∀ d members, p.body? d = some (.enumeration members) → members ≠ [])
    (hnumber : Text.isBlank setting.config.numberType = false) (ht : t.index < s.types.size) : ¬ Vacant setting s t := by
  intro hvacant
  induction hvacant with
  | number _ hblank => cases hnumber.symm.trans hblank
  | empty hshape => exact h.union_ne_nil hp henumerations ht hshape
  | @single t u hshape _ _ ih =>
    have hmember : u ∈ (s.node t).members := by
      rw [TypeNode.members, hshape]
      exact List.mem_cons_self
    exact ih (Nat.lt_trans (h.below t ht u hmember) ht)

/-- A text that cannot be seen is that of a union that is written as nothing. -/
theorem vacant_of_text (hp : p.Visible) (h : p.Charted s c) (hs : s.Solid)
    (hr : Registry.Covers p config s setting.registry) {t : TypeId} (ht : t.index < s.types.size)
    (hblank : Text.isBlank (s.node t).text = true) : (s.node t).isUnion = true ∧ Vacant setting s t := by
  have hmember {u : TypeId} {members : List TypeId} (hmembers : (s.node t).members = members) (hu : u ∈ members) :
      u.index < t.index := h.below t ht u (hmembers ▸ hu)
  rcases h.text_cases hp ht with hvisible | ⟨variants, hnode, hwhole⟩ | ⟨members, hnode⟩
  · cases hvisible.symm.trans hblank
  · have hmembers : (s.node t).members = variants := by rw [hnode]; rfl
    rw [hnode] at hblank
    refine ⟨by rw [hnode]; rfl, ?_⟩
    match variants with
    | [] => exact .empty (by rw [hnode])
    | [u] =>
      have hlt : u.index < t.index := hmember hmembers List.mem_cons_self
      have hvacant := (vacant_of_text hp h hs hr (Nat.lt_trans hlt ht) hblank).2
      exact .single (by rw [hnode]) (hr.find?_eq_none h (hwhole u List.mem_cons_self)) hvacant
    | u :: v :: rest =>
      have hseen : Text.isBlank (s.texts " | " (u :: v :: rest)) = false :=
        Text.isBlank_join_of_two (by decide) (by simp)
      cases hseen.symm.trans hblank
  · have hmembers : (s.node t).members = members := by rw [hnode]; rfl
    have hinter : Shape.intersectionMembers? (s.node t) = some members := by rw [hnode]; rfl
    obtain ⟨u, rest, rfl⟩ := List.exists_cons_of_ne_nil (hs.joined t members hinter)
    have hlt : u.index < t.index := hmember hmembers List.mem_cons_self
    -- a member of an intersection is no union, so its text is seen
    have hplain := (h.joined t _ hinter u List.mem_cons_self).1
    have hseen : Text.isBlank (s.node u).text = false := by
      cases hu : Text.isBlank (s.node u).text with
      | false => rfl
      | true =>
        have hunion := (vacant_of_text hp h hs hr (Nat.lt_trans hlt ht) hu).1
        cases hplain.symm.trans hunion
    rw [hnode] at hblank
    cases (Store.isBlank_texts " & " List.mem_cons_self hseen).symm.trans hblank
termination_by t.index

/-! ## What is written -/

/-- Whatever the step answers can be seen. -/
def Shows (x : Converting Layout) : Prop := ∀ s layout s', x s = some (layout, s') → Text.isBlank layout.render = false

theorem Shows.pure {layout : Layout} (h : Text.isBlank layout.render = false) : Shows (pure layout) := by
  rintro s layout s' ⟨⟩
  exact h

theorem Shows.bind {α : Type} {x : Converting α} {f : α → Converting Layout} (h : ∀ a, Shows (f a)) : Shows (x >>= f) := by
  intro s layout s' hrun
  rw [Converting.bind_apply, Option.bind_eq_some_iff] at hrun
  obtain ⟨⟨a, s₁⟩, _, hrun⟩ := hrun
  exact h a s₁ layout s' hrun

/-- One part that can be seen is enough. -/
theorem Shows.concat {parts : List Layout} (part : Layout) (hmem : part ∈ parts) (h : Text.isBlank part.render = false) :
    Shows (Pure.pure (.concat parts)) :=
  .pure (Layout.isBlank_join [] hmem h)

section
variable (setting : Setting) (write : Writer) (path : List TypeId)

theorem shows_template (spans : List (Span TypeId)) : Shows (template setting write path spans) :=
  .bind fun _ => .concat (.text "\"") (by simp) (by decide)

theorem shows_arrayOf (t : TypeId) : Shows (arrayOf setting write path t) := by
  refine .bind fun written => .bind fun n => ?_
  split
  · exact .concat ")[]" (by simp) (by decide)
  · exact .concat "[]" (by simp) (by decide)

theorem shows_tuple (types : List TypeId) : Shows (do
    return .concat ["[", .join ", " (← references setting write path types), "]"]) :=
  .bind fun _ => .concat "[" (by simp) (by decide)

theorem shows_application (name : Text) (types : List TypeId) : Shows (application setting write path name types) :=
  .bind fun _ => .concat "<" (by simp) (by decide)

theorem shows_body (ids : List PropertyId) : Shows (body setting write path ids) := by
  rw [body]
  split
  · exact .pure (by decide)
  · exact .bind fun _ => .pure (Layout.isBlank_template (by decide) _)

/-- A generic type is written with brackets, or as it stands. -/
theorem instantiation_cases (t : TypeId) (symbol : Option Text) (types : List TypeId) :
    instantiation setting write path t symbol types = verbatim t .unnamed ∨
      Shows (instantiation setting write path t symbol types) := by
  cases symbol with
  | none => exact .inl rfl
  | some name =>
    refine .inr ?_
    cases types with
    | nil => exact shows_application setting write path name []
    | cons first rest =>
      rw [instantiation]
      split
      · exact shows_arrayOf setting write path first
      · split
        · exact shows_application setting write path name _
        · exact shows_application setting write path name _

end

/-- A union of several members shows the bar between them. -/
theorem union_blank {write : Writer} {path : List TypeId} {members : List TypeId} {layout : Layout}
    (hrun : (do return .union (← references setting write path members) : Converting Layout) s = some (layout, s'))
    (hblank : Text.isBlank layout.render = true) :
    members = [] ∨ ∃ u layout s₁, members = [u] ∧ reference setting write path u s = some (layout, s₁) ∧
      Text.isBlank layout.render = true := by
  rw [Converting.bind_apply, Option.bind_eq_some_iff] at hrun
  obtain ⟨⟨written, s₁⟩, hmembers, hwritten⟩ := hrun
  cases hwritten
  rcases members with _ | ⟨u, _ | ⟨v, rest⟩⟩
  · exact .inl rfl
  · rw [references, List.mapM_cons, Converting.bind_apply, Option.bind_eq_some_iff] at hmembers
    obtain ⟨⟨layout, s₁⟩, hfirst, hrest⟩ := hmembers
    cases hrest
    exact .inr ⟨u, layout, s₁, rfl, hfirst, hblank⟩
  · have hlength : 2 ≤ written.length := by
      rw [Converting.length_mapM hmembers]
      simp
    have hseen : Text.isBlank (Layout.union written).render = false := by
      rw [Layout.union, Layout.render, Arrangement.combine]
      exact Text.isBlank_join_of_two (by decide) (by rwa [Layout.renderAll_eq_map, List.length_map])
    cases hseen.symm.trans hblank

section
variable (hp : p.Visible) (h : p.Charted s c) (hs : s.Solid) (hr : Registry.Covers p config s setting.registry)
include hp hr

/-- A name is never blank, so what is blank is written in full. -/
theorem reference_blank {write : Writer} {path : List TypeId} {layout : Layout}
    (hrun : reference setting write path t s = some (layout, s')) (hblank : Text.isBlank layout.render = true) :
    setting.registry.find? t = none ∧ write path t s = some (layout, s') := by
  rw [reference] at hrun
  cases hfound : setting.registry.find? t with
  | none =>
    rw [hfound] at hrun
    exact ⟨rfl, hrun⟩
  | some model =>
    rw [hfound] at hrun
    cases hrun
    cases (hr.isBlank_displayName hp (List.mem_of_find?_eq_some hfound)).symm.trans hblank

include h hs

theorem verbatim_blank (ht : t.index < s.types.size) {reason : VerbatimReason} {layout : Layout}
    (hrun : verbatim t reason s = some (layout, s')) (hblank : Text.isBlank layout.render = true) : Vacant setting s t := by
  cases hrun
  exact (vacant_of_text hp h hs hr ht hblank).2

/-- A type that is written as nothing is vacant, as far as what is inside of it is. -/
theorem convertWith_blank {write : Writer} (hwrite : ∀ path t layout s', t.index < s.types.size →
      write path t s = some (layout, s') → Text.isBlank layout.render = true → Vacant setting s t)
    {path : List TypeId} (ht : t.index < s.types.size) {layout : Layout}
    (hrun : convertWith setting write path t s = some (layout, s')) (hblank : Text.isBlank layout.render = true) :
    Vacant setting s t := by
  have hshown {x : Converting Layout} (hx : Shows x) (hx' : x s = some (layout, s')) : Vacant setting s t := by
    cases (hx s layout s' hx').symm.trans hblank
  have henter {step : Converting Layout} (hstep : step s = some (layout, s') → Vacant setting s t)
      (hrun : (if path.contains t then verbatim t .recursive else step) s = some (layout, s')) : Vacant setting s t := by
    split at hrun
    · exact verbatim_blank hp h hs hr ht hrun hblank
    · exact hstep hrun
  rw [convertWith_apply] at hrun
  cases hshape : (s.node t).shape <;> simp only [hshape] at hrun
  case string | boolean =>
    cases hrun
    cases hblank
  case number =>
    cases hrun
    exact .number hshape hblank
  case template spans => exact hshown (shows_template setting write path spans) hrun
  case array element =>
    cases element with
    | none => exact henter (fun hstep => verbatim_blank hp h hs hr ht hstep hblank) hrun
    | some element => exact henter (hshown (shows_arrayOf setting write _ element)) hrun
  case tuple elements => exact henter (hshown (shows_tuple setting write _ elements)) hrun
  case instantiation arguments =>
    refine henter (fun hstep => ?_) hrun
    rcases instantiation_cases setting write (t :: path) t (s.node t).symbol arguments with hverbatim | hshows
    · rw [hverbatim] at hstep
      exact verbatim_blank hp h hs hr ht hstep hblank
    · exact hshown hshows hstep
  case object | intersection => exact henter (hshown (.bind fun ids => shows_body setting write _ ids)) hrun
  case union members =>
    -- one blank member may be all that there is of a union
    refine henter (fun hstep => ?_) hrun
    rcases union_blank hstep hblank with rfl | ⟨u, layout, s₁, rfl, hmember, hblank⟩
    · exact .empty hshape
    · obtain ⟨hnone, hin⟩ := reference_blank hp hr hmember hblank
      have hu : u ∈ (s.node t).members := by
        rw [TypeNode.members, hshape]
        exact List.mem_cons_self
      exact .single hshape hnone (hwrite _ u _ _ (Nat.lt_trans (h.below t ht u hu) ht) hin hblank)
  case other => exact henter (fun hstep => verbatim_blank hp h hs hr ht hstep hblank) hrun

theorem convertIn_blank {depth : Nat} {path : List TypeId} {layout : Layout} (ht : t.index < s.types.size)
    (hrun : convertIn setting depth path t s = some (layout, s')) (hblank : Text.isBlank layout.render = true) :
    Vacant setting s t := by
  induction depth generalizing path t layout s' with
  | zero => cases hrun
  | succ depth ih => exact convertWith_blank hp h hs hr (fun _ _ _ _ ht hrun hblank => ih ht hrun hblank) ht hrun hblank

end

theorem convertIn_eq_some {depth : Nat} {path : List TypeId} {layout : Layout}
    (h : convertIn setting depth path t s = some (layout, s')) :
    ∃ n, convertWith setting (convertIn setting n) path t s = some (layout, s') := by
  cases depth with
  | zero => cases h
  | succ n => exact ⟨n, h⟩

/-- A vacant type is written as nothing, wherever that is not inside of what is made before it. -/
theorem isBlank_of_vacant (hs : s.Descends) (h : Vacant setting s t) {depth : Nat} {path : List TypeId}
    (ht : t.index < s.types.size) (hpath : ∀ u ∈ path, t.index < u.index) {layout : Layout}
    (hrun : convertIn setting depth path t s = some (layout, s')) : Text.isBlank layout.render = true := by
  -- by induction on how the type is vacant; the member of a union of one is written in its place
  induction h generalizing depth path layout s' with
  | number hshape hblank =>
    obtain ⟨n, hrun⟩ := convertIn_eq_some hrun
    rw [convertWith_apply] at hrun
    simp only [hshape] at hrun
    cases hrun
    exact hblank
  | empty hshape =>
    obtain ⟨n, hrun⟩ := convertIn_eq_some hrun
    rw [convertWith_apply] at hrun
    simp only [hshape, not_contains_of_lt hpath] at hrun
    cases hrun
    rfl
  | @single t u hshape hnone _ ih =>
    obtain ⟨n, hrun⟩ := convertIn_eq_some hrun
    have hlt : u.index < t.index := by
      refine hs t ht u ?_
      rw [TypeNode.members, hshape]
      exact List.mem_cons_self
    have hbefore : ∀ v ∈ t :: path, u.index < v.index :=
      List.forall_mem_cons.2 ⟨hlt, fun v hv => Nat.lt_trans hlt (hpath v hv)⟩
    rw [convertWith_apply] at hrun
    simp only [hshape, not_contains_of_lt hpath, Bool.false_eq_true, if_false] at hrun
    rw [Converting.bind_apply, Option.bind_eq_some_iff] at hrun
    obtain ⟨⟨written, s₁⟩, hmembers, hwritten⟩ := hrun
    cases hwritten
    rw [references, List.mapM_cons, Converting.bind_apply, Option.bind_eq_some_iff] at hmembers
    obtain ⟨⟨layout, s₁⟩, hfirst, hrest⟩ := hmembers
    cases hrest
    rw [reference, hnone] at hfirst
    have hmember : Text.isBlank layout.render = true := ih (Nat.lt_trans hlt ht) hbefore hfirst
    exact hmember

/-- What a model is written with: its own type, and the types inside of that. -/
inductive WrittenWith (setting : Setting) (s : Store) : TypeId → Prop where
  | model {model : Model} : model ∈ setting.registry.models → WrittenWith setting s model.type
  | inside {t u : TypeId} : WrittenWith setting s t → u ∈ inside setting.config s t → WrittenWith setting s u

end TypeSpec

open TypeSpec

namespace Document.Outcome

variable {names : List Text} {sections : List Section} (h : Outcome p config names sections s setting c)
  (hrun : convertUnits p config names {} = some (sections, s))
include h

/-- An exported enumeration without members is written as nothing. -/
theorem vacant_enumeration {model : Model} (hmodel : model ∈ setting.registry.models)
    (hbody : p.body? model.origin = some (.enumeration [])) : Vacant setting s model.type := by
  obtain ⟨d, hd⟩ := h.registry.sound model hmodel
  obtain ⟨earlier, ⟨hlt, _, hentry⟩, _⟩ := h.charted.entries.entry hd.type
  rw [hbody] at hentry
  have hnode := h.charted.nodes model.type hlt
  rw [NodeOk, show c.types model.type.index = .declaration model.origin from hentry] at hnode
  obtain ⟨declaration, hdeclaration, hkind⟩ := hnode
  rw [body?_eq hdeclaration] at hbody
  rw [Option.some.inj hbody] at hkind
  obtain ⟨values, hnode, hlength, _⟩ := hkind
  rw [List.length_eq_zero_iff.1 hlength] at hnode
  exact .empty (by rw [hnode])

include hrun

theorem written_lt (ht : WrittenWith setting s t) : t.index < s.types.size := by
  induction ht with
  | @model model hmodel =>
    obtain ⟨d, hd⟩ := h.registry.sound model hmodel
    obtain ⟨_, ⟨hlt, _⟩, _⟩ := h.charted.entries.entry hd.type
    exact hlt
  | inside _ hinside ih =>
    obtain ⟨w, rfl⟩ := exists_stage hrun
    exact lt_of_inside ih hinside

end Document.Outcome

/-- What is known of how a type is written: there is an answer, in full it is blank
just if the type is vacant, and where the type is referred to, it is blank only
then, too. -/
structure SeenUnlessVacant (setting : Setting) (s : Store) (t : TypeId) : Prop where
  answers : ∃ depth layout s', convertIn setting depth [] t s = some (layout, s')
  full : ∀ depth layout s', convertIn setting depth [] t s = some (layout, s') →
    (Text.isBlank layout.render = true ↔ Vacant setting s t)
  referred : ∀ depth path layout s', reference setting (convertIn setting depth) path t s = some (layout, s') →
    Text.isBlank layout.render = true → Vacant setting s t

theorem Project.keeping_solid (hp : p.Visible) : p.Keeping fun s s' => s.Solid → s'.Solid where
  refl _ hs := hs
  trans h h' hs := h' (h hs)
  events _ events hs := hs.events events
  declarationType d _ hs := declarationType_solid hp d hs
  properties t s hs := propertiesIn_solid hp p.interfaces t s hs
  propertyType q _ hs := propertyType_solid hp q hs

/-- Whatever a project has been read from, its conversion answers, and all types of the
store, the types that its models are written with among them, can be seen unless they
are vacant. An exported enumeration without members is vacant. Where all enumerations
have members and numbers have a name, no type is. -/
theorem types_seen (calls : List (Text × Text)) (config : Config) (names : List Text) : ∃ sections s setting c,
    Document.convertUnits (Project.after calls) config names {} = some (sections, s) ∧
      Document.Outcome (Project.after calls) config names sections s setting c ∧
      (∀ t, WrittenWith setting s t → t.index < s.types.size) ∧
      (∀ t, t.index < s.types.size → SeenUnlessVacant setting s t) ∧
      (∀ model ∈ setting.registry.models, (Project.after calls).body? model.origin = some (.enumeration []) →
        Vacant setting s model.type) ∧
      ((∀ d members, (Project.after calls).body? d = some (.enumeration members) → members ≠ []) →
        Text.isBlank config.numberType = false → ∀ t, t.index < s.types.size → ¬ Vacant setting s t) := by
  have hp := visible_after calls
  generalize Project.after calls = p at hp ⊢
  obtain ⟨w₀, hstart⟩ := Project.exists_empty p
  obtain ⟨sections, w, hrun, _⟩ := Document.convertUnits_answers config names w₀
  rw [hstart] at hrun
  obtain ⟨setting, c, houtcome⟩ := Document.outcome hrun
  obtain ⟨hbuilt, hlater⟩ := keeps_convertUnits (keeping_solid hp) hrun
  have hsolid : w.store.Solid := hlater (hbuilt .empty)
  refine ⟨sections, w.store, setting, c, hrun, houtcome, fun t => houtcome.written_lt hrun, ?seen, ?enumerations, ?none⟩
  case seen =>
    intro t ht
    refine ⟨houtcome.answers hrun ht, fun depth layout s' hconvert => ⟨?_, ?_⟩, ?_⟩
    · exact convertIn_blank hp houtcome.charted hsolid houtcome.registry ht hconvert
    · exact fun hvacant => isBlank_of_vacant houtcome.charted.descends hvacant ht (List.forall_mem_nil _) hconvert
    · intro depth path layout s' hrefer hblank
      obtain ⟨_, hconvert⟩ := reference_blank hp houtcome.registry hrefer hblank
      exact convertIn_blank hp houtcome.charted hsolid houtcome.registry ht hconvert hblank
  case enumerations => exact fun model hmodel hbody => houtcome.vacant_enumeration hmodel hbody
  case none =>
    intro henumerations hnumber t ht
    exact not_vacant hp houtcome.charted henumerations (houtcome.config ▸ hnumber) ht

/-- The project that one source is read into. -/
theorem Project.after_parse {name source : Text} {declarations : List Declaration}
    (h : Declaration.parse source = .ok declarations) :
    Project.after [(name, source)] = { units := [{ name, declarations }] } := by
  have hadd : ({} : Project).add name source = .ok { units := [{ name, declarations }] } := by
    refine add_eq_ok.2 ⟨List.not_mem_nil, _, ?_, rfl⟩
    rw [readUnit, h]
  rw [Project.after, List.foldl_cons, List.foldl_nil, behind, hadd]
  rfl

/-- An exported enumeration `E` with such members. -/
def enumProject (members : List EnumMember) : Project where
  units := [{ name := "u", declarations := [
    { name := "E", docs := { tags := [{ name := "model", text := [] }] }, body := .enumeration members }] }]

theorem enumProject_members {ms members : List EnumMember} {d : DeclarationId}
    (h : (enumProject ms).body? d = some (.enumeration members)) : members = ms := by
  match d with
  | ⟨0, 0⟩ =>
    cases h
    rfl
  | ⟨0, _ + 1⟩ => cases h
  | ⟨_ + 1, _⟩ => cases h

/-- A token; only the last one has a line break before it. -/
def flatToken (lexeme : Source.Lexeme) (raw : Text) (start stop : Nat) (spaceBefore : Bool) (docs : List Text) :
    Source.Token :=
  { lexeme, raw, start, stop, spaceBefore, lineBreak := lexeme == .endOfInput, docs }

/-- An enumeration with one member. -/
def memberCalls : List (Text × Text) := [("u", "/** @model */ enum E \x7b A \x7d")]

/-- An enumeration with none. -/
def emptyCalls : List (Text × Text) := [("u", "/** @model */ enum E \x7b\x7d")]

theorem after_memberCalls : Project.after memberCalls = enumProject [{ name := "A", value := some "0" }] := by
  have htokens : Source.tokenize "/** @model */ enum E \x7b A \x7d" 0 ("/** @model */ enum E \x7b A \x7d" : Text).length =
      .ok [flatToken .word "enum" 14 18 true ["/** @model */"], flatToken .word "E" 19 20 true [],
        flatToken .mark "\x7b" 21 22 true [], flatToken .word "A" 23 24 true [], flatToken .mark "\x7d" 25 26 true [],
        flatToken .endOfInput [] 26 26 false []] := by cbv
  refine Project.after_parse ?_
  rw [Declaration.parse]
  exact (congrArg (· >>= _) htokens).trans rfl

theorem after_emptyCalls : Project.after emptyCalls = enumProject [] := by
  have htokens : Source.tokenize "/** @model */ enum E \x7b\x7d" 0 ("/** @model */ enum E \x7b\x7d" : Text).length =
      .ok [flatToken .word "enum" 14 18 true ["/** @model */"], flatToken .word "E" 19 20 true [],
        flatToken .mark "\x7b" 21 22 true [], flatToken .mark "\x7d" 22 23 false [],
        flatToken .endOfInput [] 23 23 false []] := by cbv
  refine Project.after_parse ?_
  rw [Declaration.parse]
  exact (congrArg (· >>= _) htokens).trans rfl

/-- An enumeration with a member is written as its value, which can be seen. -/
theorem types_seen_member : ∃ sections s setting c t layout,
    Document.convertUnits (Project.after memberCalls) {} ["u"] {} = some (sections, s) ∧
      Document.Outcome (Project.after memberCalls) {} ["u"] sections s setting c ∧ WrittenWith setting s t ∧
      (∃ depth s', convertIn setting depth [] t s = some (layout, s')) ∧ Text.isBlank layout.render = false := by
  obtain ⟨sections, s, setting, c, hrun, houtcome, hthere, hseen, _, hnone⟩ := types_seen memberCalls {} ["u"]
  have hmembers (d : DeclarationId) (members : List EnumMember)
      (hbody : (Project.after memberCalls).body? d = some (.enumeration members)) : members ≠ [] := by
    rw [after_memberCalls] at hbody
    rw [enumProject_members hbody]
    exact List.cons_ne_nil _ _
  obtain ⟨d, hd, hname⟩ : ∃ d, (Project.after memberCalls).declaration? ⟨0, 0⟩ = some d ∧
      Registry.exportName? {} d = some "E" := by
    rw [after_memberCalls]
    exact ⟨_, rfl, by decide⟩
  obtain ⟨model, hmodel, _⟩ := houtcome.registry.complete ⟨0, 0⟩ d "E" hd hname
  have hwritten : WrittenWith setting s model.type := .model hmodel
  have hlt : model.type.index < s.types.size := hthere _ hwritten
  obtain ⟨depth, layout, s', hconvert⟩ := (hseen _ hlt).answers
  refine ⟨sections, s, setting, c, model.type, layout, hrun, houtcome, hwritten, ⟨depth, s', hconvert⟩, ?_⟩
  have hfull := (hseen _ hlt).full depth layout s' hconvert
  exact Bool.eq_false_iff.2 fun hblank => hnone hmembers (by decide) _ hlt (hfull.1 hblank)

/-- An enumeration without members leaves an alias without a type. -/
theorem enumeration_not_seen : ∃ s setting c model layout,
    Document.convertUnits (Project.after emptyCalls) {} ["u"] {} = some ([.converted "u" "alias E = ;" []], s) ∧
      Document.Outcome (Project.after emptyCalls) {} ["u"] [.converted "u" "alias E = ;" []] s setting c ∧
      model ∈ setting.registry.models ∧ (∃ depth s', convertIn setting depth [] model.type s = some (layout, s')) ∧
      Text.isBlank layout.render = true := by
  rw [after_emptyCalls]
  have hsections : (Document.convertUnits (enumProject []) {} ["u"] {}).map (·.1) =
      some [.converted "u" "alias E = ;" []] := by cbv
  obtain ⟨⟨sections, s⟩, hrun, rfl⟩ := Option.map_eq_some_iff.1 hsections
  obtain ⟨setting, c, houtcome⟩ := Document.outcome hrun
  obtain ⟨model, hmodel, horigin⟩ := houtcome.registry.complete ⟨0, 0⟩ _ "E" rfl (by decide)
  have hvacant : Vacant setting s model.type := houtcome.vacant_enumeration hmodel (by rw [horigin]; rfl)
  have hlt := houtcome.written_lt hrun (.model hmodel)
  obtain ⟨depth, layout, s', hconvert⟩ := houtcome.answers hrun hlt
  exact ⟨s, setting, c, model, layout, hrun, houtcome, hmodel, ⟨depth, s', hconvert⟩,
    isBlank_of_vacant houtcome.charted.descends hvacant hlt (List.forall_mem_nil _) hconvert⟩

end WireSchema
