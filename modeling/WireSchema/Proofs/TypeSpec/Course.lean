import WireSchema.Proofs.Project.Resolved
import WireSchema.Proofs.TypeSpec.Settled
/-!
# Writing a type and what is inside of it

A conversion gets an answer for a type where it gets one for each type that is
written in full inside of it. The store may change meanwhile, as long as what is
known stays known.
-/

namespace WireSchema

namespace Store

variable (s : Store)

/-- The properties of a type, if they have been found. -/
def listed (t : TypeId) : List PropertyId :=
  match (s.cell t).properties with
  | .listed ids => ids
  | _ => []

/-- The type of a property, if it has been found. -/
def typeOf? (q : PropertyId) : Option TypeId :=
  match s.resolution? q with
  | some (.done t) => some t
  | _ => none

end Store

namespace TypeSpec

open Project

/-- The type arguments that are written. -/
def writtenArguments (config : Config) (symbol : Option Text) (arguments : List TypeId) : List TypeId :=
  match symbol with
  | none => []
  | some name =>
    match arguments with
    | [] => []
    | first :: rest =>
      if name = "Array" then [first]
      else if name = "Record" ∧ config.recordStyle = .value then [(first :: rest).getLastD first]
      else first :: rest

/-- The properties that a type is written with. -/
def fields (s : Store) (t : TypeId) : List PropertyId :=
  match (s.node t).shape with
  | .object => s.listed t
  | .intersection members => withNewNames s [] (members.flatMap s.listed)
  | _ => []

/-- The types that are written inside a type. -/
def inside (config : Config) (s : Store) (t : TypeId) : List TypeId :=
  match (s.node t).shape with
  | .template spans => spanTypes spans
  | .array element => element.toList
  | .tuple elements => elements
  | .instantiation arguments => writtenArguments config (s.node t).symbol arguments
  | .union members => members
  | _ => (fields s t).filterMap s.typeOf?

/-- The path that the inside of a type is written with: templates do not enter it. -/
def onward (n : TypeNode) (path : List TypeId) (t : TypeId) : List TypeId :=
  match n.shape with
  | .template _ => path
  | _ => t :: path

theorem onward_template {n : TypeNode} {spans : List (Span TypeId)} (h : n.shape = .template spans)
    (path : List TypeId) (t : TypeId) : onward n path t = path := by
  rw [onward, h]

theorem onward_of_not_template {n : TypeNode} (h : ¬ ∃ spans, n.shape = .template spans) (path : List TypeId)
    (t : TypeId) : onward n path t = t :: path := by
  unfold onward
  split
  next spans hspans => exact absurd ⟨spans, hspans⟩ h
  · rfl

/-- The inside of the type is looked at. -/
def Enters (n : TypeNode) (path : List TypeId) (t : TypeId) : Prop :=
  t ∉ path ∨ ∃ spans, n.shape = .template spans

/-! ## How a store may change -/

/-- What may become of a store while types are written: in a later world, what was
known is as it was. -/
structure Course (p : Project) where
  World : Type
  store : World → Store
  later : World → World → Prop
  /-- The type may be asked for. -/
  known : World → TypeId → Prop
  refl : ∀ w, later w w
  trans : ∀ {w w' w''}, later w w' → later w' w'' → later w w''
  events : ∀ w events, ∃ w', store w' = { store w with events } ∧ later w w'
  known_later : ∀ {w w' t}, later w w' → known w t → known w' t
  child : ∀ {w t t'}, known w t → t' ∈ ((store w).node t).shape.children → known w t'
  node : ∀ {w w' t}, later w w' → known w t → (store w').node t = (store w).node t
  listed : ∀ {w w' t ids}, later w w' → known w t → ((store w).cell t).properties = .listed ids →
    ((store w').cell t).properties = .listed ids
  name : ∀ {w w' t ids q}, later w w' → known w t → ((store w).cell t).properties = .listed ids → q ∈ ids →
    (store w').propertyName q = (store w).propertyName q
  typeOf? : ∀ {w w' q t}, later w w' → (store w).typeOf? q = some t → (store w').typeOf? q = some t
  properties : ∀ {w t}, known w t → ∃ ids w', p.properties t (store w) = (ids, store w') ∧ later w w' ∧
    ((store w').cell t).properties = .listed ids
  propertyType : ∀ {w q r}, (store w).property? q = some r → ∃ t w', p.propertyType q (store w) = (t, store w') ∧
    later w w' ∧ known w' t ∧ (store w').typeOf? q = some t

variable {p : Project} {α β : Type}

/-- What the step comes to: an answer in a later world, as described, or else none,
which it may only come to where it need not answer. -/
def Course.Does (C : Course p) (must : Prop) (w : C.World) (x : Converting α) (post : α → C.World → Prop) : Prop :=
  match x (C.store w) with
  | none => ¬ must
  | some (a, s) => ∃ w', C.store w' = s ∧ C.later w w' ∧ post a w'

namespace Course

variable {C : Course p} {must : Prop} {w w' : C.World} {post : α → C.World → Prop} {post' : β → C.World → Prop}

theorem Does.pure {a : α} (ha : post a w) : C.Does must w (Pure.pure a) post := ⟨w, rfl, C.refl w, ha⟩

theorem Does.bind {x : Converting α} {f : α → Converting β} (h : C.Does must w x post)
    (hf : ∀ a w', C.later w w' → post a w' → C.Does must w' (f a) post') : C.Does must w (x >>= f) post' := by
  have hbind : (x >>= f) (C.store w) = (x (C.store w)).bind fun r => f r.1 r.2 := rfl
  unfold Does at h ⊢
  rw [hbind]
  cases hx : x (C.store w) with
  | none =>
    rw [hx] at h
    exact h
  | some r =>
    rw [hx] at h
    obtain ⟨w₁, hstore, hlater, ha⟩ := h
    have hnext := hf r.1 w₁ hlater ha
    unfold Does at hnext
    rw [hstore] at hnext
    rw [Option.bind_some]
    cases hy : f r.1 r.2 with
    | none =>
      rw [hy] at hnext
      exact hnext
    | some r' =>
      rw [hy] at hnext
      obtain ⟨w₂, hstore₂, hlater₂, hb⟩ := hnext
      exact ⟨w₂, hstore₂, C.trans hlater hlater₂, hb⟩

theorem Does.mono {post₂ : α → C.World → Prop} {x : Converting α} (h : C.Does must w x post)
    (hpost : ∀ a w', C.later w w' → post a w' → post₂ a w') : C.Does must w x post₂ := by
  unfold Does at h ⊢
  cases hx : x (C.store w) with
  | none =>
    rw [hx] at h
    exact h
  | some r =>
    rw [hx] at h
    obtain ⟨w', hstore, hlater, ha⟩ := h
    exact ⟨w', hstore, hlater, hpost r.1 w' hlater ha⟩

/-- A step that must answer does. -/
theorem Does.answer {x : Converting α} (h : C.Does True w x post) :
    ∃ a w', x (C.store w) = some (a, C.store w') ∧ C.later w w' ∧ post a w' := by
  unfold Does at h
  cases hx : x (C.store w) with
  | none =>
    rw [hx] at h
    exact absurd trivial h
  | some r =>
    rw [hx] at h
    obtain ⟨w', hstore, hlater, ha⟩ := h
    exact ⟨r.1, w', by rw [hstore], hlater, ha⟩

/-- A step that resolves always has an answer. -/
theorem Does.lift {x : Resolving α} {a : α} (hx : x (C.store w) = (a, C.store w')) (hlater : C.later w w')
    (ha : post a w') : C.Does must w (liftM x) post := by
  have hrun : (liftM x : Converting α) (C.store w) = some (a, C.store w') := congrArg some hx
  unfold Does
  rw [hrun]
  exact ⟨w', rfl, hlater, ha⟩

theorem Does.found {x : Resolving α} {a : α} (hx : x (C.store w) = (a, C.store w')) (hlater : C.later w w') :
    C.Does must w (liftM x) fun found reached => found = a ∧ reached = w' :=
  .lift hx hlater ⟨rfl, rfl⟩

theorem Does.mapM {f : α → Converting β} {as : List α} (result : α → β → C.World → Prop)
    (hkeep : ∀ {a b w w'}, C.later w w' → result a b w → result a b w')
    (hstep : ∀ a ∈ as, ∀ w', C.later w w' → C.Does must w' (f a) (result a)) :
    C.Does must w (as.mapM f) fun bs w' => bs.length = as.length ∧
      ∀ (i : Nat) (a : α) (b : β), as[i]? = some a → bs[i]? = some b → result a b w' := by
  induction as generalizing w with
  | nil => exact .pure ⟨rfl, fun i a b ha => by cases ha⟩
  | cons a as ih =>
    rw [List.mapM_cons]
    refine (hstep a List.mem_cons_self w (C.refl w)).bind fun b w₁ hlater hb => ?_
    refine (ih fun a' ha' w' hlater' => hstep a' (List.mem_cons_of_mem a ha') w' (C.trans hlater hlater')).bind
      fun bs w₂ hlater₂ hbs => ?_
    refine .pure ⟨by rw [List.length_cons, hbs.1, List.length_cons], fun i a' b' ha' hb' => ?_⟩
    cases i with
    | zero =>
      cases ha'
      cases hb'
      exact hkeep hlater₂ hb
    | succ i => exact hbs.2 i a' b' ha' hb'

/-- One after the other, where the results do not matter. -/
theorem Does.forM {f : α → Converting β} {as : List α} {good : α → Prop}
    (hstep : ∀ a ∈ as, ∀ w', C.later w w' → C.Does must w' (f a) fun _ _ => good a) :
    C.Does must w (as.mapM f) fun _ _ => ∀ a ∈ as, good a := by
  refine (Does.mapM (fun a _ _ => good a) (fun _ h => h) hstep).mono fun bs w' _ ⟨hlength, heach⟩ a ha => ?_
  obtain ⟨i, b, hb, hi⟩ := exists_getElem?_of_mem hlength.symm ha
  exact heach i a b hi hb

end Course

/-! ## Writing -/

section
variable {setting : Setting} {C : Course setting.project} {must : Prop} {w : C.World} {write : Writer}
  {path : List TypeId} {t : TypeId} {kid : TypeId → Prop}

/-- The type is a model, or it has been written in full. -/
def Asked (setting : Setting) (kid : TypeId → Prop) (t : TypeId) : Prop := setting.registry.find? t = none → kid t

theorem node_does : C.Does must w (liftM (Resolving.node t)) fun n w' => w = w' ∧ n = (C.store w).node t :=
  .lift rfl (C.refl w) ⟨rfl, rfl⟩

theorem report_does (event : Event) : C.Does must w (liftM (Resolving.report event)) fun _ _ => True := by
  obtain ⟨w', hstore, hlater⟩ := C.events w (event :: (C.store w).events)
  have hrun : Resolving.report event (C.store w) = ((), C.store w') := by
    rw [hstore]
    rfl
  exact .lift hrun hlater trivial

theorem verbatim_does (reason : VerbatimReason) : C.Does must w (verbatim t reason) fun _ _ => True :=
  node_does.bind fun _ _ _ _ => (report_does _).bind fun _ _ _ _ => .pure trivial

/-- Writing the type in full, if it is no model, comes to what is described. -/
def Answers (C : Course setting.project) (must : Prop) (write : Writer) (kid : TypeId → Prop) (path : List TypeId)
    (t : TypeId) (w : C.World) : Prop :=
  setting.registry.find? t = none → C.Does must w (write path t) fun _ _ => kid t

theorem reference_does (h : Answers C must write kid path t w) :
    C.Does must w (reference setting write path t) fun _ _ => Asked setting kid t := by
  rw [reference]
  split
  next model hmodel => exact .pure fun hnone => by rw [hmodel] at hnone; cases hnone
  next hnone => exact (h hnone).mono fun _ _ _ hkid _ => hkid

theorem references_does {types : List TypeId}
    (h : ∀ t ∈ types, ∀ w', C.later w w' → Answers C must write kid path t w') :
    C.Does must w (references setting write path types) fun _ _ => ∀ t ∈ types, Asked setting kid t :=
  .forM fun t ht w' hlater => reference_does (h t ht w' hlater)

theorem hole_of_mem_spanTypes {spans : List (Span TypeId)} (h : t ∈ spanTypes spans) : .hole t ∈ spans := by
  induction spans with
  | nil => cases h
  | cons span rest ih =>
    cases span with
    | chunk _ => exact List.mem_cons_of_mem _ (ih h)
    | hole u =>
      rcases List.mem_cons.1 h with rfl | h
      · exact List.mem_cons_self
      · exact List.mem_cons_of_mem _ (ih h)

theorem template_does {spans : List (Span TypeId)}
    (h : ∀ t ∈ spanTypes spans, ∀ w', C.later w w' → Answers C must write kid path t w') :
    C.Does must w (template setting write path spans) fun _ _ => ∀ t ∈ spanTypes spans, Asked setting kid t := by
  have hone (span : Span TypeId) (hspan : span ∈ spans) (w' : C.World) (hlater : C.later w w') :
      C.Does must w' (TypeSpec.span setting write path span) fun _ _ => ∀ t, span = .hole t → Asked setting kid t := by
    cases span with
    | chunk t => exact .pure fun t ht => by cases ht
    | hole t =>
      refine (reference_does (h t (mem_spanTypes hspan) w' hlater)).bind fun _ _ _ hasked => .pure fun t' ht' => ?_
      cases ht'
      exact hasked
  exact (Course.Does.forM hone).bind fun _ _ _ hspans => .pure fun t ht => hspans _ (hole_of_mem_spanTypes ht) t rfl

theorem arrayOf_does (h : Answers C must write kid path t w) :
    C.Does must w (arrayOf setting write path t) fun _ _ => Asked setting kid t := by
  refine (reference_does h).bind fun written w₁ _ hasked => node_does.bind fun n w₂ _ _ => ?_
  split
  · exact .pure hasked
  · exact .pure hasked

theorem application_does (name : Text) {types : List TypeId}
    (h : ∀ t ∈ types, ∀ w', C.later w w' → Answers C must write kid path t w') :
    C.Does must w (application setting write path name types) fun _ _ => ∀ t ∈ types, Asked setting kid t :=
  (references_does h).bind fun _ _ _ hasked => .pure hasked

theorem instantiation_does (symbol : Option Text) {arguments : List TypeId}
    (h : ∀ t ∈ writtenArguments setting.config symbol arguments, ∀ w', C.later w w' →
      Answers C must write kid path t w') (whole : TypeId) :
    C.Does must w (instantiation setting write path whole symbol arguments) fun _ _ =>
      ∀ t ∈ writtenArguments setting.config symbol arguments, Asked setting kid t := by
  cases symbol with
  | none => exact (verbatim_does _).mono fun _ _ _ _ t ht => by cases ht
  | some name =>
    cases arguments with
    | nil => exact application_does name fun t ht => by cases ht
    | cons first rest =>
      simp only [writtenArguments] at h
      simp only [instantiation, writtenArguments]
      split
      next harray =>
        rw [if_pos harray] at h
        refine (arrayOf_does (h first List.mem_cons_self w (C.refl w))).mono fun _ _ _ hasked t ht => ?_
        rw [List.mem_singleton.1 ht]
        exact hasked
      next harray =>
        rw [if_neg harray] at h
        split
        next hrecord =>
          rw [if_pos hrecord] at h
          exact application_does name h
        next hrecord =>
          rw [if_neg hrecord] at h
          exact application_does name h

/-! ### Fields -/

theorem typeOf?_eq_none {s : Store} {q : PropertyId} (h : s.property? q = none) : s.typeOf? q = none := by
  rw [Store.typeOf?, Store.resolution?, h]
  rfl

theorem field_does {q : PropertyId}
    (h : ∀ w', C.later w w' → ∀ t, (C.store w').typeOf? q = some t → Answers C must write kid path t w') :
    C.Does must w (field setting write path q) fun _ _ => ∀ t, (C.store w).typeOf? q = some t → Asked setting kid t := by
  have hget (f : Store → Converting Layout) : (get >>= f) (C.store w) = f (C.store w) (C.store w) := rfl
  cases hproperty : (C.store w).property? q with
  | none =>
    have hrun : field setting write path q (C.store w) = some (.lines [], C.store w) := by
      rw [field, hget, hproperty]
      rfl
    unfold Course.Does
    rw [hrun]
    exact ⟨w, rfl, C.refl w, fun t ht => by rw [typeOf?_eq_none hproperty] at ht; cases ht⟩
  | some r =>
    obtain ⟨t, w₁, hrun, hlater, _, htype⟩ := C.propertyType hproperty
    have htyped : C.Does must w (typed setting write path r q) fun _ _ =>
        ∀ t, (C.store w).typeOf? q = some t → Asked setting kid t := by
      refine (Course.Does.found hrun hlater).bind ?_
      rintro _ _ _ ⟨rfl, rfl⟩
      refine (reference_does (h _ hlater _ htype)).bind fun _ _ _ hasked => .pure fun t' ht' => ?_
      rw [C.typeOf? hlater ht'] at htype
      cases htype
      exact hasked
    unfold Course.Does at htyped ⊢
    rw [field_eq hproperty]
    exact htyped

theorem body_does {ids : List PropertyId}
    (h : ∀ q ∈ ids, ∀ w', C.later w w' → ∀ t, (C.store w').typeOf? q = some t → Answers C must write kid path t w') :
    C.Does must w (body setting write path ids) fun _ _ =>
      ∀ q ∈ ids, ∀ t, (C.store w).typeOf? q = some t → Asked setting kid t := by
  unfold body
  split
  next hempty =>
    rw [List.isEmpty_iff.1 hempty]
    exact .pure fun q hq => by cases hq
  next =>
    refine (Course.Does.forM fun q hq w' hlater => ?_).bind fun _ _ _ hfields => .pure hfields
    exact (field_does fun w'' hlater' => h q hq w'' (C.trans hlater hlater')).mono
      fun _ _ _ hasked t ht => hasked t (C.typeOf? hlater ht)

theorem mergedProperties_does (text : Text) {members : List TypeId} (hknown : ∀ t ∈ members, C.known w t) :
    C.Does must w (mergedProperties setting text members) fun ids w' =>
      ids = withNewNames (C.store w') [] (members.flatMap (C.store w').listed) ∧
        ∀ t ∈ members, ∃ ids, ((C.store w').cell t).properties = .listed ids := by
  have hone (member : TypeId) (hmember : member ∈ members) (w' : C.World) (hlater : C.later w w') :
      C.Does must w' (do
        let ids ← setting.project.properties member
        if ids.isEmpty then
          let node ← Resolving.node member
          Resolving.report (.droppedMember node.shape.label text node.text)
        return ids) fun ids w'' => C.known w'' member ∧ ((C.store w'').cell member).properties = .listed ids := by
    obtain ⟨ids, w₁, hrun, hlater₁, hlisted⟩ := C.properties (C.known_later hlater (hknown member hmember))
    have hmember₁ := C.known_later (C.trans hlater hlater₁) (hknown member hmember)
    refine (Course.Does.found hrun hlater₁).bind ?_
    rintro _ _ _ ⟨rfl, rfl⟩
    split
    · exact node_does.bind fun _ w₂ hlater₂ _ => (report_does _).bind fun _ w₃ hlater₃ _ =>
        .pure ⟨C.known_later (C.trans hlater₂ hlater₃) hmember₁, C.listed (C.trans hlater₂ hlater₃) hmember₁ hlisted⟩
    · exact .pure ⟨hmember₁, hlisted⟩
  refine (Course.Does.mapM (fun member ids w' =>
    C.known w' member ∧ ((C.store w').cell member).properties = .listed ids)
    (fun hlater h => ⟨C.known_later hlater h.1, C.listed hlater h.1 h.2⟩) hone).bind ?_
  rintro found w₁ _ ⟨hlength, heach⟩
  -- what was found first is what is listed in the end
  have hfound : found = members.map (C.store w₁).listed := by
    refine List.ext_getElem? fun i => ?_
    rw [List.getElem?_map]
    cases hi : members[i]? with
    | none => rw [Option.map_none, List.getElem?_eq_none (hlength ▸ List.getElem?_eq_none_iff.1 hi)]
    | some member =>
      have hlt : i < found.length := hlength ▸ (List.getElem?_eq_some_iff.1 hi).1
      have hlisted := (heach i member found[i] hi (List.getElem?_eq_getElem hlt)).2
      rw [List.getElem?_eq_getElem hlt, Option.map_some, Store.listed, hlisted]
  have hget : (get >>= fun s => Pure.pure (withNewNames s [] found.flatten) : Converting _) (C.store w₁) =
      some (withNewNames (C.store w₁) [] found.flatten, C.store w₁) := rfl
  unfold Course.Does
  rw [hget]
  refine ⟨w₁, rfl, C.refl w₁, ?_, fun member hmember => ?_⟩
  · rw [hfound, List.flatMap_def]
  · obtain ⟨i, ids, hids, hi⟩ := exists_getElem?_of_mem hlength.symm hmember
    exact ⟨ids, (heach i member ids hi hids).2⟩

/-! ### Any type -/

theorem listed_later {w w' : C.World} (hlater : C.later w w') (hknown : C.known w t)
    (hlisted : ∃ ids, ((C.store w).cell t).properties = .listed ids) : (C.store w').listed t = (C.store w).listed t := by
  obtain ⟨ids, hids⟩ := hlisted
  rw [Store.listed, Store.listed, hids, C.listed hlater hknown hids]

/-- The properties of an intersection stay, once those of its members are found. -/
theorem merged_later {w w' : C.World} (hlater : C.later w w') {members : List TypeId}
    (hknown : ∀ t ∈ members, C.known w t)
    (hlisted : ∀ t ∈ members, ∃ ids, ((C.store w).cell t).properties = .listed ids) :
    withNewNames (C.store w') [] (members.flatMap (C.store w').listed) =
      withNewNames (C.store w) [] (members.flatMap (C.store w).listed) := by
  have hsame : members.flatMap (C.store w').listed = members.flatMap (C.store w).listed := by
    rw [List.flatMap_def, List.flatMap_def,
      List.map_congr_left fun t ht => listed_later hlater (hknown t ht) (hlisted t ht)]
  rw [hsame]
  refine withNewNames_congr (fun q hq => ?_) []
  obtain ⟨t, ht, hq⟩ := List.mem_flatMap.1 hq
  obtain ⟨ids, hids⟩ := hlisted t ht
  rw [Store.listed, hids] at hq
  exact C.name hlater (hknown t ht) hids hq

/-- All that is written inside of the type, whenever that is, comes to what is
described. -/
def AllAnswer (C : Course setting.project) (must : Prop) (write : Writer) (kid : TypeId → Prop) (path : List TypeId)
    (w : C.World) (t : TypeId) : Prop :=
  ∀ w', C.later w w' → ∀ t' ∈ inside setting.config (C.store w') t, Answers C must write kid path t' w'

/-- All that is inside of the type at any rate has been asked for. -/
def AllAsked (C : Course setting.project) (kid : TypeId → Prop) (w : C.World) (t : TypeId) : Prop :=
  ∀ t', (∀ w', C.later w w' → t' ∈ inside setting.config (C.store w') t) → Asked setting kid t'

theorem allAsked_of_nil (h : inside setting.config (C.store w) t = []) : AllAsked C kid w t := by
  intro t' ht'
  have := ht' w (C.refl w)
  rw [h] at this
  cases this

/-- Where the node itself says which types are inside. -/
theorem fixed_does (types : List TypeId) (hinside : ∀ w', C.later w w' → inside setting.config (C.store w') t = types)
    {step : Converting Layout} (hkids : AllAnswer C must write kid path w t)
    (hstep : (∀ t' ∈ types, ∀ w', C.later w w' → Answers C must write kid path t' w') →
      C.Does must w step fun _ _ => ∀ t' ∈ types, Asked setting kid t') :
    C.Does must w step fun _ _ => AllAsked C kid w t := by
  refine (hstep fun t' ht' w' hlater => hkids w' hlater t' ((hinside w' hlater).symm ▸ ht')).mono
    fun _ _ _ hasked t' ht' => hasked t' ?_
  have := ht' w (C.refl w)
  rwa [hinside w (C.refl w)] at this

/-- Where the types inside are those of fields that have been found. -/
theorem fields_does {ids : List PropertyId} {w₁ : C.World} (hlater₁ : C.later w w₁)
    (hinside : ∀ w', C.later w₁ w' → inside setting.config (C.store w') t = ids.filterMap (C.store w').typeOf?)
    (hkids : AllAnswer C must write kid path w t) :
    C.Does must w₁ (body setting write path ids) fun _ _ => AllAsked C kid w t := by
  have hbody : C.Does must w₁ (body setting write path ids) fun _ _ =>
      ∀ q ∈ ids, ∀ u, (C.store w₁).typeOf? q = some u → Asked setting kid u := by
    refine body_does fun q hq w' hlater' u hu => hkids w' (C.trans hlater₁ hlater') u ?_
    rw [hinside w' hlater']
    exact List.mem_filterMap.2 ⟨q, hq, hu⟩
  refine hbody.mono fun _ _ _ hasked u hu => ?_
  have hu := hu w₁ hlater₁
  rw [hinside w₁ (C.refl w₁)] at hu
  obtain ⟨q, hq, hu⟩ := List.mem_filterMap.1 hu
  exact hasked q hq u hu

/-- A type that is on the path is not looked at, and nothing inside of it is asked for. -/
theorem enter_does (hplain : ∀ spans, ((C.store w).node t).shape ≠ .template spans) {step : Converting Layout}
    (hstep : t ∉ path → C.Does must w step fun _ _ => AllAsked C kid w t) :
    C.Does must w (if path.contains t then verbatim t .recursive else step) fun _ _ =>
      Enters ((C.store w).node t) path t → AllAsked C kid w t := by
  split
  next hmem =>
    refine (verbatim_does _).mono fun _ _ _ _ henters => ?_
    rcases henters with hout | ⟨spans, hspans⟩
    · exact absurd (List.contains_iff_mem.1 hmem) hout
    · exact absurd hspans (hplain spans)
  next hmem => exact (hstep fun h => hmem (List.contains_iff_mem.2 h)).mono fun _ _ _ h _ => h

/-- A type gets an answer where all that is written inside of it does, and then
all of that has been asked for. -/
theorem convertWith_does (hknown : C.known w t)
    (hkids : Enters ((C.store w).node t) path t →
      AllAnswer C must write kid (onward ((C.store w).node t) path t) w t) :
    C.Does must w (convertWith setting write path t) fun _ _ =>
      Enters ((C.store w).node t) path t → AllAsked C kid w t := by
  refine node_does.bind ?_
  rintro _ _ _ ⟨rfl, rfl⟩
  have hsame (w' : C.World) (hlater : C.later w w') : (C.store w').node t = (C.store w).node t :=
    C.node hlater hknown
  have hchild (t' : TypeId) (ht' : t' ∈ ((C.store w).node t).shape.children) : C.known w t' := C.child hknown ht'
  rw [onward] at hkids
  -- the types inside are asked on the path that goes on from here
  cases hshape : ((C.store w).node t).shape with
  | string => exact .pure fun _ => allAsked_of_nil (by simp [inside, hshape, fields])
  | number => exact .pure fun _ => allAsked_of_nil (by simp [inside, hshape, fields])
  | boolean => exact .pure fun _ => allAsked_of_nil (by simp [inside, hshape, fields])
  | other =>
    exact enter_does (by simp [hshape]) fun _ => (verbatim_does _).mono fun _ _ _ _ =>
      allAsked_of_nil (by simp [inside, hshape, fields])
  | template spans =>
    rw [hshape] at hkids
    refine (fixed_does _ (fun w' hlater => ?_) (hkids (.inr ⟨spans, hshape⟩)) template_does).mono fun _ _ _ h _ => h
    rw [inside, hsame w' hlater, hshape]
  | array element =>
    cases element with
    | none =>
      exact enter_does (by simp [hshape]) fun _ => (verbatim_does _).mono fun _ _ _ _ =>
        allAsked_of_nil (by simp [inside, hshape])
    | some element =>
      rw [hshape] at hkids
      refine enter_does (by simp [hshape]) fun hout => fixed_does [element] (fun w' hlater => ?_)
        (hkids (.inl hout)) fun h => ?_
      · rw [inside, hsame w' hlater, hshape]
        rfl
      · exact (arrayOf_does (h element List.mem_cons_self w (C.refl w))).mono
          fun _ _ _ hasked t' ht' => List.mem_singleton.1 ht' ▸ hasked
  | tuple elements =>
    rw [hshape] at hkids
    refine enter_does (by simp [hshape]) fun hout => fixed_does elements (fun w' hlater => ?_)
      (hkids (.inl hout)) fun h => (references_does h).bind fun _ _ _ hasked => .pure hasked
    rw [inside, hsame w' hlater, hshape]
  | instantiation arguments =>
    rw [hshape] at hkids
    refine enter_does (by simp [hshape]) fun hout => fixed_does _ (fun w' hlater => ?_) (hkids (.inl hout))
      fun h => instantiation_does _ h t
    rw [inside, hsame w' hlater, hshape]
  | union members =>
    rw [hshape] at hkids
    refine enter_does (by simp [hshape]) fun hout => fixed_does members (fun w' hlater => ?_)
      (hkids (.inl hout)) fun h => (references_does h).bind fun _ _ _ hasked => .pure hasked
    rw [inside, hsame w' hlater, hshape]
  | object =>
    rw [hshape] at hkids
    refine enter_does (by simp [hshape]) fun hout => ?_
    obtain ⟨ids, w₁, hrun, hlater₁, hlisted⟩ := C.properties hknown
    refine (Course.Does.found hrun hlater₁).bind ?_
    rintro _ _ _ ⟨rfl, rfl⟩
    refine fields_does hlater₁ (fun w' hlater' => ?_) (hkids (.inl hout))
    rw [inside, hsame w' (C.trans hlater₁ hlater'), hshape]
    simp only [fields, hsame w' (C.trans hlater₁ hlater'), hshape, Store.listed,
      C.listed hlater' (C.known_later hlater₁ hknown) hlisted]
  | intersection members =>
    rw [hshape] at hkids
    refine enter_does (by simp [hshape]) fun hout => ?_
    have hmembers (t' : TypeId) (ht' : t' ∈ members) : C.known w t' := hchild t' (by rw [hshape]; exact ht')
    refine (mergedProperties_does _ hmembers).bind ?_
    rintro _ w₁ hlater₁ ⟨rfl, hlisted⟩
    refine fields_does hlater₁ (fun w' hlater' => ?_) (hkids (.inl hout))
    rw [inside, hsame w' (C.trans hlater₁ hlater'), hshape]
    simp only [fields, hsame w' (C.trans hlater₁ hlater'), hshape,
      merged_later hlater' (fun t' ht' => C.known_later hlater₁ (hmembers t' ht')) hlisted]

/-- A type gets an answer where all that is written inside of it does. -/
theorem convertWith_answers (hknown : C.known w t)
    (hkids : Enters ((C.store w).node t) path t → ∀ w', C.later w w' → ∀ t' ∈ inside setting.config (C.store w') t,
      setting.registry.find? t' = none →
        C.Does must w' (write (onward ((C.store w).node t) path t) t') fun _ _ => True) :
    C.Does must w (convertWith setting write path t) fun _ _ => True := by
  have hdoes : C.Does must w (convertWith setting write path t) fun _ _ =>
      Enters ((C.store w).node t) path t → AllAsked C (fun _ => True) w t := convertWith_does hknown hkids
  exact hdoes.mono fun _ _ _ _ => trivial

end

end TypeSpec

end WireSchema
