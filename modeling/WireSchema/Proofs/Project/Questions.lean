import Mathlib.Algebra.BigOperators.Ring.Finset
import WireSchema.Proofs.Project.Costs
/-!
# Asking a project

What is asked of a project is the type of a declaration, the properties of a
type or the type of a property. However the questions are ordered, only so many
have an answer that is not known, and then all of them are known.
-/

namespace WireSchema

/-! ## Questions -/

/-- What is asked of a store. -/
inductive Question where
  | declaration (id : DeclarationId)
  | properties (type : TypeId)
  | type (property : PropertyId)
deriving DecidableEq

namespace Question

variable (p : Project) (s : Store)

/-- It is asked of something that is there. -/
def Valid : Question → Prop
  | declaration d => ∃ declaration, p.declaration? d = some declaration
  | properties t => t.index < s.types.size
  | type q => q.index < s.properties.size

/-- The answer is there already. -/
def Known : Question → Prop
  | declaration d => ∃ t, s.declared? d = some t
  | properties t => ∃ ids, (s.cell t).properties = .listed ids
  | type q => ∃ r t, s.property? q = some r ∧ r.type = .done t

/-- The store when the question is answered. -/
def ask : Question → Store
  | declaration d => (p.declarationType d s).2
  | properties t => (p.properties t s).2
  | type q => (p.propertyType q s).2

end Question

namespace Project

open Resolving

/-- The store is reached from the empty one by questions in some order. Those whose
answers were not known are listed, the latest first. -/
inductive Reached (p : Project) : List Question → Store → Prop where
  | start : Reached p [] {}
  | known {news : List Question} {s : Store} {q : Question} :
    Reached p news s → q.Valid p s → q.Known s → Reached p news (q.ask p s)
  | new {news : List Question} {s : Store} {q : Question} :
    Reached p news s → q.Valid p s → ¬ q.Known s → Reached p (q :: news) (q.ask p s)

variable {p : Project} {s s' : Store} {c c' : Chart} {q : Question} {news : List Question}

/-- A question whose answer is known changes nothing. -/
theorem ask_of_known (h : q.Known s) : q.ask p s = s := by
  cases q with
  | declaration d =>
    obtain ⟨t, ht⟩ := h
    rw [Question.ask, declarationType, resolveDeclaration, bind_apply]
    simp only [get_apply, ht]
    rfl
  | properties t =>
    obtain ⟨ids, hids⟩ := h
    rw [Question.ask, properties, propertiesIn_listed _ hids]
  | type q =>
    obtain ⟨r, t, hr, ht⟩ := h
    have hdone : s.resolution? q = some (.done t) := by rw [Store.resolution?, hr, ← ht]; rfl
    rw [Question.ask, propertyType, bind_apply]
    simp only [get_apply, hdone]
    rfl

theorem valid_later (h : Later s s' c c') (hq : q.Valid p s) : q.Valid p s' := by
  cases q with
  | declaration d => exact hq
  | properties t => exact Nat.lt_of_lt_of_le hq h.size
  | type q => exact Nat.lt_of_lt_of_le hq h.count

theorem known_later (h : Later s s' c c') (hvalid : q.Valid p s) (hq : q.Known s) : q.Known s' := by
  cases q with
  | declaration d =>
    obtain ⟨t, ht⟩ := hq
    exact ⟨t, h.declared d t ht⟩
  | properties t =>
    obtain ⟨ids, hids⟩ := hq
    exact ⟨ids, h.listed t ids hvalid hids⟩
  | type q =>
    obtain ⟨r, t, hr, ht⟩ := hq
    obtain ⟨r', hr', hkept⟩ := h.record q r hr
    exact ⟨_, t, hr', hkept t ht⟩

/-! ## Stages -/

/-- A store that is all paid for, with a chart. -/
structure Stage (p : Project) where
  store : Store
  chart : Chart
  charted : p.Charted store chart
  homes : store.Homes
  paid : p.budget p.interfaces store ≤ 4 * p.weight

namespace Stage

/-- The later stage knows all that was known. -/
def LeadsTo (w w' : Stage p) : Prop := Later w.store w'.store w.chart w'.chart

/-- The stage after a step that costs nothing. -/
theorem next (w : Stage p) (hcharted : p.Charted s c) (hlater : Later w.store s w.chart c)
    (hwithin : p.Within p.interfaces 0 w.store s) : ∃ w' : Stage p, w'.store = s ∧ w.LeadsTo w' :=
  ⟨⟨s, c, hcharted, hwithin.homes w.homes, Nat.le_trans (hwithin.budget w.homes) w.paid⟩, rfl, hlater⟩

theorem events (w : Stage p) (events : List Event) :
    ∃ w' : Stage p, w'.store = { w.store with events } ∧ w.LeadsTo w' :=
  have hadds := adds_events [] (fun _ => False) w.charted events
  w.next hadds.charted hadds.later ((costs_events [] w.store events).within _)

theorem declarationType (w : Stage p) {d : DeclarationId} (hd : ∃ declaration, p.declaration? d = some declaration) :
    ∃ t w', p.declarationType d w.store = (t, w'.store) ∧ w.LeadsTo w' ∧ w'.store.declared? d = some t := by
  obtain ⟨c', hadds, hdeclared⟩ := declarationType_ok w.charted hd
  obtain ⟨w', hstore, hleads⟩ := w.next hadds.charted hadds.later ((declarationType_costs hd w.store).within _)
  rw [← hstore] at hdeclared
  exact ⟨_, w', by rw [hstore]; rfl, hleads, hdeclared⟩

theorem properties (w : Stage p) {t : TypeId} (ht : t.index < w.store.types.size) :
    ∃ ids w', p.properties t w.store = (ids, w'.store) ∧ w.LeadsTo w' ∧ (w'.store.cell t).properties = .listed ids := by
  obtain ⟨c', hcharted, hlater, hlisted⟩ := propertiesIn_ok p.interfaces w.charted ht
  obtain ⟨w', hstore, hleads⟩ := w.next hcharted hlater (propertiesIn_within _ (nodup_interfaces p) t w.store)
  rw [← hstore] at hlisted
  exact ⟨_, w', by rw [hstore]; rfl, hleads, hlisted⟩

theorem propertyType (w : Stage p) {q : PropertyId} (hq : q.index < w.store.properties.size) :
    ∃ t w', p.propertyType q w.store = (t, w'.store) ∧ w.LeadsTo w' ∧
      ∃ r, w'.store.property? q = some r ∧ r.type = .done t := by
  obtain ⟨c', hcharted, hlater, r, hr, hdone⟩ := propertyType_ok w.charted hq
  obtain ⟨w', hstore, hleads⟩ := w.next hcharted hlater (propertyType_within hq)
  rw [← hstore] at hr
  exact ⟨_, w', by rw [hstore]; rfl, hleads, r, hr, hdone⟩

/-- Any question leads to a stage where its answer is known. -/
theorem ask (w : Stage p) (hq : q.Valid p w.store) :
    ∃ w', w'.store = q.ask p w.store ∧ w.LeadsTo w' ∧ q.Known w'.store := by
  cases q with
  | declaration d =>
    obtain ⟨t, w', hrun, hleads, hknown⟩ := w.declarationType hq
    exact ⟨w', by rw [Question.ask, hrun], hleads, t, hknown⟩
  | properties t =>
    obtain ⟨ids, w', hrun, hleads, hknown⟩ := w.properties hq
    exact ⟨w', by rw [Question.ask, hrun], hleads, ids, hknown⟩
  | type q =>
    obtain ⟨t, w', hrun, hleads, r, hr, hdone⟩ := w.propertyType hq
    exact ⟨w', by rw [Question.ask, hrun], hleads, r, t, hr, hdone⟩

end Stage

/-! ### The first stage -/

theorem charted_empty (p : Project) (c : Chart) : p.Charted {} c where
  nodes id hid := absurd hid (Nat.not_lt_zero _)
  below id hid := absurd hid (Nat.not_lt_zero _)
  joined id ts hts := by cases hts
  has id hid := absurd hid (Nat.not_lt_zero _)
  entries := trivial
  listings id hid := absurd hid (Nat.not_lt_zero _)
  properties q hq := absurd hq (Nat.not_lt_zero _)

theorem filterMap_range {α : Type} (as : List α) : (List.range as.length).filterMap (as[·]?) = as := by
  induction as with
  | nil => rfl
  | cons a as ih =>
    have hrest : ((List.range as.length).map Nat.succ).filterMap ((a :: as)[·]?) = as := by
      rw [List.filterMap_map]
      exact ih
    rw [List.length_cons, List.range_succ_eq_map, List.filterMap_cons, hrest]
    rfl

/-- The declarations by their places in the units. -/
theorem filterMap_declarationIds (p : Project) :
    p.declarationIds.filterMap p.declaration? = p.units.flatMap (·.declarations) := by
  have hunit (x : SourceUnit × Nat) (hx : x ∈ p.units.zipIdx) :
      ((List.range x.1.declarations.length).map fun index => (⟨x.2, index⟩ : DeclarationId)).filterMap p.declaration? =
        x.1.declarations := by
    have hunit : p.unit? x.2 = some x.1 := List.mem_zipIdx_iff_getElem?.1 hx
    rw [List.filterMap_map]
    refine Eq.trans ?_ (filterMap_range x.1.declarations)
    congr 1
    funext index
    simp only [Function.comp, declaration?, hunit]
    rfl
  have hunits : p.units.zipIdx.map (·.1.declarations) = p.units.map (·.declarations) := by
    calc p.units.zipIdx.map (·.1.declarations)
      _ = (p.units.zipIdx.map Prod.fst).map (·.declarations) := List.map_map.symm
      _ = p.units.map (·.declarations) := by rw [List.zipIdx_map_fst]
  rw [declarationIds, List.filterMap_flatMap, List.flatMap_def, List.map_congr_left hunit, hunits, ← List.flatMap_def]

theorem weights_eq (p : Project) : ∑ d ∈ p.declarationIds.toFinset, p.weightOf d = p.weight := by
  rw [List.sum_toFinset _ (nodup_declarationIds p), weight, ← filterMap_declarationIds]
  induction p.declarationIds with
  | nil => rfl
  | cons d ids ih =>
    rw [List.map_cons, List.sum_cons, ih, List.filterMap_cons, weightOf]
    cases p.declaration? d with
    | none => exact Nat.zero_add _
    | some declaration => rfl

theorem budget_empty (p : Project) (idle : List DeclarationId) : p.budget idle {} = 4 * p.weight := by
  have hdeclarations : p.declarationsPrice {} = ∑ d ∈ p.declarationIds.toFinset, 4 * p.weightOf d := rfl
  rw [budget, hdeclarations, ← Finset.mul_sum, weights_eq]
  exact Nat.zero_add _

theorem homes_empty : ({} : Store).Homes := fun _ _ h => by cases h

/-- Nothing is there, and all is paid for. -/
theorem exists_empty (p : Project) : ∃ w : Stage p, w.store = {} :=
  ⟨⟨{}, ⟨fun _ => .value ⟨0, 0⟩ 0, fun _ => (.value ⟨0, 0⟩ 0, 0)⟩, charted_empty p _, homes_empty,
    Nat.le_of_eq (budget_empty p _)⟩, rfl⟩

/-! ## How many questions there are -/

/-- Nodes, references and properties are bounded by the declarations. -/
theorem Stage.held_le (w : Stage p) : w.store.held.length + w.store.properties.size ≤ 4 * p.weight := by
  have hheld := length_held_le (p := p) p.interfaces w.store
  have hproperties := size_le_propertiesPrice w.store
  have hpaid := w.paid
  rw [budget] at hpaid
  omega

/-- A type whose properties are still to be found is held by itself. -/
theorem mem_held_of_not_listed (h : p.Charted s c) {t : TypeId} (ht : t.index < s.types.size)
    (hnot : ∀ ids, (s.cell t).properties ≠ .listed ids) : t ∈ s.held := by
  -- only objects are listed late
  suffices hobject : (s.node t).shape = .object by
    refine Store.mem_held ht ?_
    rw [Store.heldBy, TypeNode.isMix, hobject]
    exact List.mem_cons_self
  have hlisting := h.listings t ht
  have hnode := h.nodes t ht
  rw [ListingOk] at hlisting
  rw [NodeOk] at hnode
  cases hproperties : (s.cell t).properties with
  | listed ids => exact absurd hproperties (hnot ids)
  | ofInterface d =>
    rw [hproperties] at hlisting
    obtain ⟨horigin, parameters, bases, members, hbody⟩ := hlisting
    rw [horigin] at hnode
    obtain ⟨declaration, hd, hnode⟩ := hnode
    rw [body?_eq hd, Option.some.injEq] at hbody
    rw [hbody] at hnode
    simp only at hnode
    rw [hnode]
  | ofMembers context members =>
    rw [hproperties] at hlisting
    obtain ⟨hmembers, hplain⟩ := hlisting
    cases horigin : c.types t.index with
    | declaration d => exact absurd horigin (hplain d)
    | value d i => rw [horigin] at hmembers; cases hmembers
    | part root steps choice =>
      rw [horigin] at hnode hmembers
      obtain ⟨context', e, types, hpart, _, _, hnode⟩ := hnode
      rw [membersOf?_part hpart] at hmembers
      cases e with
      | object members' text => rw [hnode.2, nodeOf]
      | _ => cases hmembers

theorem declarationWeight_pos (d : Declaration) : 0 < TypeSpec.declarationWeight d := by
  rw [TypeSpec.declarationWeight]
  cases d.body with
  | typeAlias parameters e => exact e.size_pos
  | _ => exact Nat.succ_pos _

theorem valid_of_mem {d : DeclarationId} (h : d ∈ p.declarationIds) :
    ∃ declaration, p.declaration? d = some declaration := by
  obtain ⟨⟨unit, place⟩, hunit, hd⟩ := List.mem_flatMap.1 h
  obtain ⟨index, hindex, rfl⟩ := List.mem_map.1 hd
  have hplace : p.unit? place = some unit := List.mem_zipIdx_iff_getElem?.1 hunit
  have hlt : index < unit.declarations.length := List.mem_range.1 hindex
  refine ⟨unit.declarations[index], ?_⟩
  rw [declaration?, hplace]
  exact List.getElem?_eq_getElem hlt

theorem length_declarationIds_le (p : Project) : p.declarationIds.length ≤ p.weight := by
  rw [← weights_eq, ← List.toFinset_card_of_nodup (nodup_declarationIds p), Finset.card_eq_sum_ones]
  refine Finset.sum_le_sum fun d hd => ?_
  obtain ⟨declaration, hdeclaration⟩ := valid_of_mem (List.mem_toFinset.1 hd)
  rw [weightOf_eq hdeclaration]
  exact declarationWeight_pos declaration

/-- What may ever have to be asked, as far as the store goes. -/
def questions (p : Project) (s : Store) : List Question :=
  p.declarationIds.map .declaration ++ s.held.map .properties ++
    (List.range s.properties.size).map fun i => .type ⟨i⟩

theorem mem_questions (h : p.Charted s c) (hvalid : q.Valid p s) (hunknown : ¬ q.Known s) : q ∈ p.questions s := by
  rw [questions, List.mem_append, List.mem_append]
  cases q with
  | declaration d =>
    obtain ⟨declaration, hd⟩ := hvalid
    exact .inl (.inl (List.mem_map_of_mem (mem_declarationIds hd)))
  | properties t =>
    have hheld := mem_held_of_not_listed h hvalid fun ids hids => hunknown ⟨ids, hids⟩
    exact .inl (.inr (List.mem_map_of_mem hheld))
  | type q => exact .inr (List.mem_map.2 ⟨q.index, List.mem_range.2 hvalid, rfl⟩)

theorem held_later (h : Later s s' c c') {t : TypeId} (ht : t ∈ s.held) : t ∈ s'.held := by
  obtain ⟨i, hi, ht⟩ := List.mem_flatMap.1 ht
  have hlt : i < s.types.size := List.mem_range.1 hi
  refine Store.mem_held (t := ⟨i⟩) (Nat.lt_of_lt_of_le hlt h.size) ?_
  rwa [Store.heldBy, h.node ⟨i⟩ hlt]

theorem questions_later (h : Later s s' c c') (hq : q ∈ p.questions s) : q ∈ p.questions s' := by
  rw [questions, List.mem_append, List.mem_append] at hq ⊢
  rcases hq with (hq | hq) | hq
  · exact .inl (.inl hq)
  · obtain ⟨t, ht, rfl⟩ := List.mem_map.1 hq
    exact .inl (.inr (List.mem_map_of_mem (held_later h ht)))
  · obtain ⟨i, hi, rfl⟩ := List.mem_map.1 hq
    exact .inr (List.mem_map.2 ⟨i, List.mem_range.2 (Nat.lt_of_lt_of_le (List.mem_range.1 hi) h.count), rfl⟩)

theorem Stage.length_questions_le (w : Stage p) : (p.questions w.store).length ≤ 5 * p.weight := by
  have hheld := w.held_le
  have hdeclarations := length_declarationIds_le p
  simp only [questions, List.length_append, List.length_map, List.length_range]
  omega

/-- Whatever was asked for is known from then on. -/
theorem Reached.exists_stage (h : p.Reached news s) :
    ∃ w : Stage p, w.store = s ∧ news.Nodup ∧ ∀ q ∈ news, q ∈ p.questions s ∧ q.Valid p s ∧ q.Known s := by
  induction h with
  | start =>
    obtain ⟨w, hw⟩ := exists_empty p
    exact ⟨w, hw, List.nodup_nil, fun q hq => by cases hq⟩
  | known _ _ hknown ih =>
    rw [ask_of_known hknown]
    exact ih
  | @new news s q _ hvalid hunknown ih =>
    obtain ⟨w, rfl, hnodup, hnews⟩ := ih
    obtain ⟨w', hstore, hleads, hknown⟩ := w.ask hvalid
    rw [← hstore]
    refine ⟨w', rfl, List.nodup_cons.2 ⟨fun hmem => hunknown (hnews q hmem).2.2, hnodup⟩, ?_⟩
    intro q' hq'
    rcases List.mem_cons.1 hq' with rfl | hq'
    · exact ⟨questions_later hleads (mem_questions w.charted hvalid hunknown), valid_later hleads hvalid, hknown⟩
    · obtain ⟨hmem, hvalid', hknown'⟩ := hnews q' hq'
      exact ⟨questions_later hleads hmem, valid_later hleads hvalid', known_later hleads hvalid' hknown'⟩

/-- In whatever order the questions come, only so many find something new. -/
theorem Reached.length_le (h : p.Reached news s) : news.length ≤ 5 * p.weight := by
  obtain ⟨w, rfl, hnodup, hnews⟩ := h.exists_stage
  have hsubset : news ⊆ p.questions w.store := fun q hq => (hnews q hq).1
  exact Nat.le_trans (List.subperm_of_subset hnodup hsubset).length_le w.length_questions_le

/-! ## All answers -/

/-- All answers are known. -/
def Complete (p : Project) (s : Store) : Prop := ∀ q : Question, q.Valid p s → q.Known s

/-- From any store that is reached, more questions lead to one where all answers
are known. -/
theorem Reached.exists_complete {news : List Question} {s : Store} (h : p.Reached news s) :
    ∃ more s', p.Reached (more ++ news) s' ∧ p.Complete s' := by
  by_cases hcomplete : p.Complete s
  · exact ⟨[], s, h, hcomplete⟩
  · obtain ⟨q, hq⟩ := Classical.not_forall.1 hcomplete
    obtain ⟨hvalid, hunknown⟩ := Classical.not_imp.1 hq
    have hnew := h.new hvalid hunknown
    have hbound : news.length < 5 * p.weight := hnew.length_le
    obtain ⟨more, s', hreached, hcomplete⟩ := hnew.exists_complete
    exact ⟨more ++ [q], s', by rwa [List.append_assoc, List.singleton_append], hcomplete⟩
termination_by 5 * p.weight - news.length
decreasing_by
  rw [List.length_cons]
  omega

end Project

namespace Store

/-- The type can be got at from the declarations. -/
inductive Reaches (s : Store) : TypeId → Prop where
  | declared {d : DeclarationId} {t : TypeId} : s.declared? d = some t → Reaches s t
  | child {t u : TypeId} : Reaches s t → u ∈ (s.node t).shape.children → Reaches s u
  | property {t u : TypeId} {ids : List PropertyId} {q : PropertyId} {r : Property Resolution} :
    Reaches s t → (s.cell t).properties = .listed ids → q ∈ ids → s.property? q = some r → r.type = .done u →
    Reaches s u

end Store

namespace Project

variable {p : Project} {s : Store} {c : Chart}

/-- No type outside of the store can be got at. -/
theorem lt_of_reaches (h : p.Charted s c) {t : TypeId} (ht : s.Reaches t) : t.index < s.types.size := by
  induction ht with
  | declared hd => exact h.entries.lt hd
  | child _ hu ih => exact Nat.lt_trans (h.child_lt ih hu) ih
  | property _ _ _ hr hdone _ => exact done_lt h hr hdone

end Project

end WireSchema
