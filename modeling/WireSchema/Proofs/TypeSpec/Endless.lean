import Mathlib.Data.List.Perm.Subperm
import Mathlib.Data.Nat.Find
import Mathlib.Logic.Relation
import WireSchema.Proofs.TypeSpec.Course
/-!
# Types that have no text

In a graph that is given in full, a type has a text unless it leads to a
template that is made of itself. All other cycles are cut where a type is met
again on the path, and between two types of the path there are only so many
templates, so the depth that a conversion allows itself is enough.
-/

namespace WireSchema

namespace Store

/-- All properties and their types have been found. -/
structure Given (s : Store) : Prop where
  listed : ∀ t, ∃ ids, (s.cell t).properties = .listed ids
  done : ∀ q r, s.property? q = some r → ∃ t, r.type = .done t

/-- The type is a template. -/
def IsTemplate (s : Store) (t : TypeId) : Prop := ∃ spans, (s.node t).shape = .template spans

end Store

namespace TypeSpec

open Project Relation

/-! ## Inside a type -/

section
variable (setting : Setting) (s : Store)

/-- The one type is written in full inside of the other. -/
def Inner (t t' : TypeId) : Prop := t' ∈ inside setting.config s t ∧ setting.registry.find? t' = none

/-- The one type is written in full in a hole of the other. -/
def InHole (t t' : TypeId) : Prop := s.IsTemplate t ∧ Inner setting s t t'

/-- The template is made of itself. -/
def Endless (t : TypeId) : Prop := TransGen (InHole setting s) t t

/-- The type leads to a template that is made of itself. -/
def Hangs (t : TypeId) : Prop := ∃ u, ReflTransGen (Inner setting s) t u ∧ Endless setting s u

end

/-- A node that enters the path while it is written. -/
def Tracked (n : TypeNode) : Prop :=
  match n.shape with
  | .string => False
  | .number => False
  | .boolean => False
  | .template _ => False
  | _ => True

variable {setting : Setting} {s : Store} {t t' u : TypeId} {path seen : List TypeId} {n : Nat}

theorem Hangs.of_inner (hinner : Inner setting s t t') (h : Hangs setting s t') : Hangs setting s t := by
  obtain ⟨u, hleads, hendless⟩ := h
  exact ⟨u, .head hinner hleads, hendless⟩

theorem Endless.hangs (h : Endless setting s t) : Hangs setting s t := ⟨t, .refl, h⟩

/-- A type with something inside is there. -/
theorem lt_of_mem_inside {config : Config} (h : t' ∈ inside config s t) : t.index < s.types.size := by
  refine Nat.lt_of_not_le fun hle => ?_
  have hshape : (s.node t).shape = .other := by rw [Store.node_of_size_le hle]; rfl
  simp [inside, fields, hshape] at h

theorem length_le_of_nodup {ts : List TypeId} {N : Nat} (hnodup : ts.Nodup) (hlt : ∀ t ∈ ts, t.index < N) :
    ts.length ≤ N := by
  have hindices : (ts.map TypeId.index).Nodup := by
    refine List.pairwise_map.2 (hnodup.imp fun {a b} hne heq => hne ?_)
    cases a
    cases b
    cases heq
    rfl
  have hsubset : ts.map TypeId.index ⊆ List.range N := by
    intro i hi
    obtain ⟨t, ht, rfl⟩ := List.mem_map.1 hi
    exact List.mem_range.2 (hlt t ht)
  simpa using (List.subperm_of_subset hindices hsubset).length_le

/-! ## The course of a store where nothing is left to be found -/

/-- Nothing but events comes to a store in which all is found. -/
def given (p : Project) (s : Store) (h : s.Given) : Course p where
  World := List Event
  store events := { s with events }
  later _ _ := True
  known _ _ := True
  refl _ := trivial
  trans _ _ := trivial
  events _ events := ⟨events, rfl, trivial⟩
  known_later _ _ := trivial
  child _ _ := trivial
  node _ _ := rfl
  listed _ _ hlisted := hlisted
  name _ _ _ _ := rfl
  typeOf? _ htype := htype
  properties {events t} _ := by
    obtain ⟨ids, hids⟩ := h.listed t
    exact ⟨ids, events, propertiesIn_listed _ hids, trivial, hids⟩
  propertyType {events q r} hr := by
    obtain ⟨t, ht⟩ := h.done q r hr
    have hdone : ({ s with events } : Store).resolution? q = some (.done t) := by rw [Store.resolution?, hr, ← ht]; rfl
    refine ⟨t, events, ?_, trivial, trivial, ?_⟩
    · rw [propertyType, Resolving.bind_apply]
      simp only [Resolving.get_apply, hdone]
      rfl
    · rw [Store.typeOf?, hdone]

theorem inside_events (config : Config) (events : List Event) (t : TypeId) :
    inside config { s with events } t = inside config s t := by
  have hmerged (ids : List PropertyId) : withNewNames { s with events } [] ids = withNewNames s [] ids := by
    have hname : ∀ q ∈ ids, ({ s with events } : Store).propertyName q = s.propertyName q := fun _ _ => rfl
    exact withNewNames_congr hname []
  unfold inside fields
  simp only [hmerged]
  rfl

/-- Between two types of the path there are only templates, none of them twice. -/
theorem convertIn_does (hgiven : s.Given) (hpath : path.Nodup) (hthere : ∀ x ∈ path, x.index < s.types.size) (hseen : seen.Nodup)
    (hholes : ∀ x ∈ seen, x.index < s.types.size ∧ TransGen (InHole setting s) x t) (hends : ¬ Hangs setting s t)
    (hdepth : (s.types.size - path.length) * (s.types.size + 1) + (s.types.size - seen.length) + 1 ≤ n)
    (events : List Event) :
    (given setting.project s hgiven).Does True events (convertIn setting n path t) fun _ _ => True := by
  -- by the depth; the measure counts the types off the path first, then the templates not passed since
  induction n generalizing path seen t events with
  | zero => omega
  | succ n ih =>
    refine convertWith_answers trivial fun henters events' _ t' ht' hnone => ?_
    have hinner : Inner setting s t t' := ⟨(inside_events _ events' t).subst ht', hnone⟩
    have hlt : t.index < s.types.size := lt_of_mem_inside hinner.1
    have hends' : ¬ Hangs setting s t' := fun h => hends (h.of_inner hinner)
    by_cases htemplate : s.IsTemplate t
    · -- one more template between two types of the path
      have hstep : InHole setting s t t' := ⟨htemplate, hinner⟩
      have hnew : t ∉ seen := fun hmem => hends (Endless.hangs (hholes t hmem).2)
      have hseen' : (t :: seen).Nodup := List.nodup_cons.2 ⟨hnew, hseen⟩
      have hthere' : ∀ x ∈ t :: seen, x.index < s.types.size :=
        List.forall_mem_cons.2 ⟨hlt, fun x hx => (hholes x hx).1⟩
      have hroom := length_le_of_nodup hseen' hthere'
      rw [List.length_cons] at hroom
      obtain ⟨spans, hspans⟩ := htemplate
      show (given setting.project s hgiven).Does True events' (convertIn setting n (onward (s.node t) path t) t') _
      rw [onward_template hspans]
      refine ih hpath hthere hseen' (List.forall_mem_cons.2 ⟨⟨hlt, .single hstep⟩, fun x hx => ?_⟩) hends' ?_ events'
      · exact ⟨(hholes x hx).1, (hholes x hx).2.tail hstep⟩
      · rw [List.length_cons]
        omega
    · -- one more type on the path, and no template behind it so far
      have hout : t ∉ path := henters.resolve_right htemplate
      have hpath' : (t :: path).Nodup := List.nodup_cons.2 ⟨hout, hpath⟩
      have hthere' : ∀ x ∈ t :: path, x.index < s.types.size := List.forall_mem_cons.2 ⟨hlt, hthere⟩
      have hroom := length_le_of_nodup hpath' hthere'
      rw [List.length_cons] at hroom
      show (given setting.project s hgiven).Does True events' (convertIn setting n (onward (s.node t) path t) t') _
      rw [onward_of_not_template htemplate]
      refine ih hpath' hthere' List.nodup_nil (fun x hx => by cases hx) hends' ?_ events'
      obtain ⟨left, hleft⟩ : ∃ left, s.types.size - path.length = left + 1 :=
        ⟨s.types.size - path.length - 1, by omega⟩
      have hleft' : s.types.size - (t :: path).length = left := by rw [List.length_cons]; omega
      rw [hleft, Nat.succ_mul] at hdepth
      rw [hleft', List.length_nil]
      omega

/-! ## No text -/

/-- Whatever a conversion comes to, nothing but events is added. -/
theorem convertIn_keeps (hgiven : s.Given) (n : Nat) (path : List TypeId) (t : TypeId) (events : List Event) :
    (given setting.project s hgiven).Does False events (convertIn setting n path t) fun _ _ => True := by
  induction n generalizing path t events with
  | zero => exact not_false
  | succ n ih =>
    exact convertWith_answers trivial fun _ events' _ t' _ _ => ih _ t' events'

/-- A type has no answer if one that is written inside of it has none. -/
theorem convertIn_none_of_inner (hgiven : s.Given) (hinner : Inner setting s t t') (henters : Enters (s.node t) path t)
    (hnone : ∀ events, convertIn setting n (onward (s.node t) path t) t' { s with events } = none) (events : List Event) :
    convertIn setting (n + 1) path t { s with events } = none := by
  have hdoes : (given setting.project s hgiven).Does False events (convertIn setting (n + 1) path t) fun _ _ =>
      Enters (s.node t) path t → AllAsked (given setting.project s hgiven) (· ≠ t') events t := by
    refine convertWith_does (C := given setting.project s hgiven) trivial fun _ events' _ u _ _ => ?_
    by_cases hu : u = t'
    · subst hu
      have hrun : convertIn setting n (onward (s.node t) path t) u ((given setting.project s hgiven).store events') =
        none := hnone events'
      unfold Course.Does
      rw [show ((given setting.project s hgiven).store events).node t = s.node t from rfl, hrun]
      exact not_false
    · exact (convertIn_keeps hgiven n _ u events').mono fun _ _ _ _ => hu
  unfold Course.Does at hdoes
  cases hrun : convertIn setting (n + 1) path t { s with events } with
  | none => rfl
  | some r =>
    rw [show (given setting.project s hgiven).store events = { s with events } from rfl, hrun] at hdoes
    obtain ⟨_, _, _, hasked⟩ := hdoes
    have hinside (events' : List Event) : t' ∈ inside setting.config ({ s with events := events' } : Store) t := by
      rw [inside_events]
      exact hinner.1
    exact absurd rfl (hasked henters t' (fun events' _ => hinside events') hinner.2)

/-- An endless template has no answer, on whatever path. -/
theorem convertIn_none_of_endless (hgiven : s.Given) (h : Endless setting s t) (n : Nat) (path : List TypeId)
    (events : List Event) : convertIn setting n path t { s with events } = none := by
  induction n generalizing t path events with
  | zero => rfl
  | succ n ih =>
    -- the template in its hole is endless too
    obtain ⟨t', hstep, hback⟩ := TransGen.head'_iff.1 h
    have hendless : Endless setting s t' := TransGen.tail'_iff.2 ⟨t, hback, hstep⟩
    exact convertIn_none_of_inner hgiven hstep.2 (.inr hstep.1) (fun events => ih hendless _ events) events

/-- The type leads in so many steps to a template that is made of itself. -/
def LeadsIn (setting : Setting) (s : Store) : Nat → TypeId → Prop
  | 0, t => Endless setting s t
  | k + 1, t => ∃ t', Inner setting s t t' ∧ LeadsIn setting s k t'

theorem leadsIn_of_hangs (h : Hangs setting s t) : ∃ k, LeadsIn setting s k t := by
  obtain ⟨u, hleads, hendless⟩ := h
  induction hleads using ReflTransGen.head_induction_on with
  | refl => exact ⟨0, hendless⟩
  | head hstep _ ih =>
    obtain ⟨k, hk⟩ := ih
    exact ⟨k + 1, _, hstep, hk⟩

/-- On the shortest way to an endless template no type is met again. -/
theorem convertIn_none_of_leadsIn (hgiven : s.Given) {k : Nat} (h : LeadsIn setting s k t)
    (hleast : ∀ m < k, ¬ LeadsIn setting s m t) (hfar : ∀ x ∈ path, ∀ m ≤ k, ¬ LeadsIn setting s m x) (n : Nat)
    (events : List Event) : convertIn setting n path t { s with events } = none := by
  induction k generalizing t path n events with
  | zero => exact convertIn_none_of_endless hgiven h n path events
  | succ k ih =>
    cases n with
    | zero => rfl
    | succ n =>
      obtain ⟨t', hinner, ht'⟩ := h
      have hout : t ∉ path := fun hmem => hfar t hmem (k + 1) (Nat.le_refl _) ⟨t', hinner, ht'⟩
      refine convertIn_none_of_inner hgiven hinner (.inl hout) (fun events => ?_) events
      refine ih ht' (fun m hm hnear => hleast (m + 1) (Nat.succ_lt_succ hm) ⟨t', hinner, hnear⟩) (fun x hx m hm => ?_)
        n events
      have hmem : x = t ∨ x ∈ path := by
        unfold onward at hx
        split at hx
        · exact .inr hx
        · exact List.mem_cons.1 hx
      rcases hmem with rfl | hmem
      · exact hleast m (Nat.lt_succ_of_le hm)
      · exact hfar x hmem m (Nat.le_succ_of_le hm)

theorem convertIn_none_of_hangs (hgiven : s.Given) (h : Hangs setting s t) (n : Nat) :
    convertIn setting n [] t s = none := by
  classical
  have hleads := leadsIn_of_hangs h
  exact convertIn_none_of_leadsIn hgiven (Nat.find_spec hleads) (fun m hm => Nat.find_min hleads hm)
    (fun x hx => by cases hx) n s.events

/-! ## Whole conversions -/

/-- The depth that a conversion allows itself is enough for all types of the store. -/
theorem depthBound_ge (setting : Setting) (s : Store) :
    (s.types.size + 1) * (s.types.size + 1) ≤ depthBound setting s := by
  have hsize : s.types.size ≤ s.weight := by
    rw [Store.weight, Nat.add_assoc]
    exact Nat.le_add_right _ _
  have hmost : s.types.size + 1 ≤
      4 * (s.weight + Store.total declarationWeight (setting.project.units.flatMap (·.declarations)) + 1) := by
    omega
  exact Nat.mul_le_mul hmost hmost

theorem depth_eq (hdepth : setting.depth = none) (s : Store) : depth setting s = some (depthBound setting s, s) := by
  have hrun : depth setting s = some (setting.depth.getD (depthBound setting s), s) := rfl
  rw [hrun, hdepth, Option.getD_none]

theorem convert_eq (hdepth : setting.depth = none) (t : TypeId) (s : Store) :
    convert setting t s = convertIn setting (depthBound setting s) [] t s := by
  have hbind : convert setting t s = (depth setting s).bind fun r => convertIn setting r.1 [] t r.2 := rfl
  rw [hbind, depth_eq hdepth, Option.bind_some]

theorem refer_eq (hdepth : setting.depth = none) (t : TypeId) (s : Store) :
    refer setting t s = reference setting (convertIn setting (depthBound setting s)) [] t s := by
  have hbind : refer setting t s = (depth setting s).bind fun r => reference setting (convertIn setting r.1) [] t r.2 :=
    rfl
  rw [hbind, depth_eq hdepth, Option.bind_some]

theorem convert_isSome_iff (hdepth : setting.depth = none) (hgiven : s.Given) (t : TypeId) :
    (convert setting t s).isSome = true ↔ ¬ Hangs setting s t := by
  rw [convert_eq hdepth]
  constructor
  · intro hsome hhangs
    rw [convertIn_none_of_hangs hgiven hhangs] at hsome
    cases hsome
  · intro hends
    have hroom : (s.types.size - ([] : List TypeId).length) * (s.types.size + 1) +
        (s.types.size - ([] : List TypeId).length) + 1 ≤ depthBound setting s := by
      have hbound := depthBound_ge setting s
      rw [Nat.succ_mul] at hbound
      rw [List.length_nil, Nat.sub_zero]
      omega
    have hdoes := convertIn_does hgiven List.nodup_nil (fun x hx => by cases hx) List.nodup_nil
      (fun x hx => by cases hx) hends hroom s.events
    obtain ⟨layout, events, hrun, _⟩ := hdoes.answer
    rw [show (given setting.project s hgiven).store s.events = s from rfl] at hrun
    rw [hrun]
    rfl

theorem refer_isSome_iff (hdepth : setting.depth = none) (hgiven : s.Given) (t : TypeId) :
    (refer setting t s).isSome = true ↔ (setting.registry.find? t).isSome = true ∨ ¬ Hangs setting s t := by
  rw [refer_eq hdepth, reference]
  cases hfind : setting.registry.find? t with
  | some model => exact ⟨fun _ => .inl rfl, fun _ => rfl⟩
  | none =>
    have hconvert := convert_isSome_iff hdepth hgiven t
    rw [convert_eq hdepth] at hconvert
    simpa using hconvert

/-- A model has a statement just if its type has a text. -/
theorem isSome_convertModel (setting : Setting) (model : Model) (s : Store) :
    (convertModel setting model s).isSome = (convert setting model.type s).isSome := by
  have hbind : convertModel setting model s = (convert setting model.type s).bind _ := rfl
  rw [hbind]
  cases convert setting model.type s <;> rfl

theorem convertModel_isSome_iff (hdepth : setting.depth = none) (hgiven : s.Given) (model : Model) :
    (convertModel setting model s).isSome = true ↔ ¬ Hangs setting s model.type := by
  rw [isSome_convertModel, convert_isSome_iff hdepth hgiven]

/-- A type that is met again on the path is written as its text. -/
theorem convertIn_of_mem (htracked : Tracked (s.node t)) (hmem : t ∈ path) (n : Nat) :
    convertIn setting (n + 1) path t s = verbatim t .recursive s := by
  have hcontains : path.contains t = true := List.contains_iff_mem.2 hmem
  have hbind (f : TypeNode → Converting Layout) :
      ((liftM (Resolving.node t) : Converting TypeNode) >>= f) s = f (s.node t) s := rfl
  rw [convertIn, convertWith, hbind]
  rw [Tracked] at htracked
  cases hshape : (s.node t).shape with
  | string => simp [hshape] at htracked
  | number => simp [hshape] at htracked
  | boolean => simp [hshape] at htracked
  | template spans => simp [hshape] at htracked
  | array element => cases element <;> simp only [hcontains, if_true]
  | _ => simp only [hcontains, if_true]

/-- In a graph that is given in full, types and models have a text just if they do
not lead to a template that is made of itself. Such a template has none at any
depth. All other types are cut where they are met again on the path. -/
theorem given_types_answer (hdepth : setting.depth = none) (hgiven : s.Given) :
    (∀ t, (convert setting t s).isSome = true ↔ ¬ Hangs setting s t) ∧
      (∀ t, (refer setting t s).isSome = true ↔ (setting.registry.find? t).isSome = true ∨ ¬ Hangs setting s t) ∧
      (∀ model, (convertModel setting model s).isSome = true ↔ ¬ Hangs setting s model.type) ∧
      (∀ t n, Hangs setting s t → convertIn setting n [] t s = none) ∧
      ∀ t n path, Tracked (s.node t) → t ∈ path →
        convertIn setting (n + 1) path t s = some (.text (s.node t).text,
          { s with events := .verbatim (s.node t).shape.label .recursive (s.node t).text :: s.events }) :=
  ⟨convert_isSome_iff hdepth hgiven, refer_isSome_iff hdepth hgiven, convertModel_isSome_iff hdepth hgiven,
    fun _ n hhangs => convertIn_none_of_hangs hgiven hhangs n,
    fun _ n _ htracked hmem => convertIn_of_mem htracked hmem n⟩

/-- A store of types without properties. -/
def bareStore (nodes : List TypeNode) : Store where
  types := (nodes.map fun node => { node }).toArray

theorem bareStore_given (nodes : List TypeNode) : (bareStore nodes).Given where
  listed t := by
    refine ⟨[], ?_⟩
    rw [Store.cell, bareStore, Array.getD_eq_getD_getElem?]
    cases hnode : nodes[t.index]? with
    | none => simp [hnode, default]
    | some node => simp [hnode]
  done q r hr := by simp [Store.property?, bareStore] at hr

/-- A template of lists of it ends where the list is met again. -/
theorem given_types_answer_lists :
    (convert { registry := {} } ⟨0⟩ (bareStore [{ shape := .template [.hole ⟨1⟩], text := "a" },
      { shape := .array (some ⟨0⟩), text := "b" }])).isSome = true := by
  refine ((given_types_answer rfl (bareStore_given _)).1 ⟨0⟩).2 ?_
  rintro ⟨u, _, hendless⟩
  have hlt : ∀ v : TypeId, (bareStore [{ shape := .template [.hole ⟨1⟩], text := "a" },
      { shape := .array (some ⟨0⟩), text := "b" }]).IsTemplate v → v = ⟨0⟩ := by
    rintro ⟨i⟩ ⟨spans, hspans⟩
    match i with
    | 0 => rfl
    | 1 => cases hspans
    | i + 2 => simp [Store.node, Store.cell, bareStore, default] at hspans
  obtain ⟨v, hstep, hback⟩ := TransGen.head'_iff.1 hendless
  obtain rfl := hlt u hstep.1
  obtain rfl := List.mem_singleton.1 hstep.2.1
  obtain heq | ⟨_, hstep, _⟩ := ReflTransGen.cases_head hback
  · cases heq
  · exact absurd (hlt _ hstep.1) (by decide)

/-- A template with itself in its hole has no text. -/
theorem endless_template :
    let s := bareStore [{ shape := .template [.chunk "x", .hole ⟨0⟩], text := "a" }]
    convert { registry := {} } ⟨0⟩ s = none ∧ ∀ n, convertIn { registry := {} } n [] ⟨0⟩ s = none := by
  intro s
  have hhangs : Hangs { registry := {} } s ⟨0⟩ := Endless.hangs (.single ⟨⟨_, rfl⟩, List.mem_cons_self, rfl⟩)
  have hnone := convertIn_none_of_hangs (bareStore_given _) hhangs
  exact ⟨(convert_eq rfl _ _).trans (hnone _), hnone⟩

end TypeSpec

end WireSchema
