import WireSchema.Proofs.Project.Resolved
import WireSchema.Proofs.Project.Later
import WireSchema.Proofs.Project.Questions
import WireSchema.Proofs.TypeSpec.Course
/-!
# How deep types are written

What a type holds is bounded by the declarations, and a type that is written
inside of another is one of those, unless the other is a union. Unions do not
nest deep, so the path of a conversion does not get long, and the depth that a
conversion allows itself is enough.
-/

/-!
## Unions of unions

A union without a name is opened in a union around it, and an intersection is
distributed until nothing is left to choose. So a union may have unions for its
members, but these have none.
-/

namespace WireSchema

/-- Unions are at most so deep, one a member of the other. -/
def Store.Nests (s : Store) : Nat → TypeId → Prop
  | 0, t => (s.node t).isUnion = false
  | n + 1, t => (s.node t).isUnion = true → ∀ u ∈ (s.node t).members, s.Nests n u

namespace Project

open Store

variable {p : Project} {s s' : Store} {c c' : Chart} {t u v : TypeId} {ts : List TypeId}

theorem nests_of_not_isUnion (h : (s.node t).isUnion = false) (n : Nat) : s.Nests n t := by
  cases n with
  | zero => exact h
  | succ n =>
    intro hunion
    rw [h] at hunion
    cases hunion

theorem nests_later (h : Later s s' c c') (hcharted : p.Charted s c) (ht : t.index < s.types.size) {n : Nat}
    (hnests : s.Nests n t) : s'.Nests n t := by
  induction n generalizing t with
  | zero => rwa [Nests, h.node t ht]
  | succ n ih =>
    intro hunion u hu
    rw [h.node t ht] at hunion hu
    exact ih (Nat.lt_trans (hcharted.below t ht u hu) ht) (hnests hunion u hu)

/-! ## Choices -/

/-- What is chosen is no union, if the unions that it is chosen from have none. -/
theorem isUnion_chosen {types : List TypeId} {n i : Nat} (h : s.Layered) (hnests : ∀ u ∈ types, s.Nests (n + 1) u)
    (ht : t ∈ s.chosen types [i]) : s.Nests n t := by
  rcases mem_getD_choices ht with ⟨_, hnone⟩ | ⟨u, hu, hunion, ht⟩
  · exact nests_of_not_isUnion hnone n
  · exact hnests u (isUnion_of_mem_joined h hu hunion) hunion t ht

/-- After two choices no union is left. -/
theorem anyUnion_chosen {types : List TypeId} {i j : Nat} (h : s.Layered) (hnests : ∀ u ∈ types, s.Nests 2 u) :
    s.anyUnion (s.joined (s.chosen types [i, j])) = false := by
  rw [anyUnion, List.any_eq_false]
  intro t ht hunion
  have hchosen : t ∈ s.chosen (s.chosen types [i]) [j] := isUnion_of_mem_joined h ht hunion
  have hnone : (s.node t).isUnion = false := isUnion_chosen h (fun u hu => isUnion_chosen h hnests hu) hchosen
  rw [hnone] at hunion
  cases hunion

/-! ## All unions -/

section
variable {root : Root} {steps choice : List Nat} {context : Context} {e : TypeExpr} {types : List TypeId}

theorem isUnion_of_anonymous {n : TypeNode} {ts : List TypeId} (h : Shape.anonymousUnion? n = some ts) :
    n.isUnion = true := by
  obtain ⟨shape, text, symbol⟩ := n
  cases shape <;> first | rfl | cases h

theorem ValueNode.isUnion {d : DeclarationId} {i : Nat} (h : p.ValueNode s d i t) : (s.node t).isUnion = false := by
  obtain ⟨_, _, _, _, _, _, hnode⟩ := h
  rw [hnode]
  rfl

/-- The union that an expression stands for has no name. -/
theorem anonymousUnion?_nodeOf (hmeet : isMeet e = false) (hunion : (p.nodeOf s context types e).isUnion = true) :
    Shape.anonymousUnion? (p.nodeOf s context types e) = some (s.opened Shape.anonymousUnion? types) := by
  cases e with
  | union members text => rfl
  | intersection members text => cases hmeet
  | keyword name =>
    rw [nodeOf, TypeNode.isUnion] at hunion
    rcases keywordShape_cases name with h | h | h | h <;> rw [h] at hunion <;> cases hunion
  | template spans text =>
    rw [nodeOf] at hunion
    split at hunion <;> cases hunion
  | tuple elements text variadic => cases variadic <;> cases hunion
  | reference name arguments text =>
    rw [nodeOf] at hunion
    split at hunion <;> cases hunion
  | _ => cases hunion

/-- If there are unions among what is left to intersect, the node is the union of
what comes of the choices. -/
theorem Crosses.variants (h : Crosses s c root steps choice types t) (hunion : (s.node t).isUnion = true) :
    s.anyUnion (s.joined (s.chosen types choice)) = true ∧ ∃ variants text,
      s.node t = { shape := .union variants, text } ∧
        ∀ u ∈ variants, ∃ i, c.types u.index = .part root steps (choice ++ [i]) := by
  unfold Crosses at h
  simp only at h
  split at h
  next hany =>
    obtain ⟨variants, hnode, _, heach⟩ := h
    refine ⟨hany, variants, _, hnode, fun u hu => ?_⟩
    obtain ⟨i, hi⟩ := List.getElem?_of_mem hu
    exact ⟨i, (heach i u hi).2⟩
  next =>
    rw [h] at hunion
    cases hunion

/-- A node of an intersection, when some choices are made. -/
theorem Charted.crosses (h : p.Charted s c) {members : List TypeExpr} {text : Text}
    (hpart : p.partType? root steps = some (context, .intersection members text)) (ht : t.index < s.types.size)
    (horigin : c.types t.index = .part root steps choice) :
    ∃ types, Below t.index types ∧ Crosses s c root steps choice types t := by
  have hnode := h.nodes t ht
  rw [NodeOk, horigin] at hnode
  obtain ⟨context', e', types, hpart', _, hbelow, hnode⟩ := hnode
  rw [hpart] at hpart'
  cases hpart'
  exact ⟨types, hbelow, hnode⟩

/-- A node that is made after two choices is no union. -/
theorem Charted.isUnion_eq_false (h : p.Charted s c) {members : List TypeExpr} {text : Text}
    (hpart : p.partType? root steps = some (context, .intersection members text)) (ht : t.index < s.types.size) {i j : Nat}
    (horigin : c.types t.index = .part root steps (choice ++ [i] ++ [j]))
    (hunder : ∀ u : TypeId, u.index < t.index → s.Nests 2 u) : (s.node t).isUnion = false := by
  obtain ⟨types, hbelow, hcrosses⟩ := h.crosses hpart ht horigin
  cases hunion : (s.node t).isUnion with
  | false => rfl
  | true =>
    have hany := (hcrosses.variants hunion).1
    have hleft := hbelow.chosen h.descends (Nat.le_of_lt ht) choice
    rw [List.append_assoc, chosen_append, List.singleton_append,
      anyUnion_chosen h.layered fun u hu => hunder u (hleft u hu)] at hany
    cases hany

end

/-- The members of an enumeration are no unions. -/
theorem nests_declaration {d : DeclarationId} (h : p.Charted s c) (ht : t.index < s.types.size)
    (horigin : c.types t.index = .declaration d) : s.Nests 1 t := by
  intro hunion u hu
  have hnode := h.nodes t ht
  have hlt := Nat.lt_trans (h.below t ht u hu) ht
  rw [NodeOk, horigin] at hnode
  obtain ⟨declaration, hd, hnode⟩ := hnode
  split at hnode
  · rw [hnode] at hunion
    cases hunion
  · obtain ⟨values, hvalues, _, heach⟩ := hnode
    rw [hvalues] at hu
    obtain ⟨i, hi⟩ := List.getElem?_of_mem hu
    have hvalue := h.nodes u hlt
    rw [NodeOk, (heach i u hi).2] at hvalue
    exact hvalue.isUnion
  · exact hnode.elim

/-- The members of a union with a name are no unions. -/
theorem nests_named (h : p.Charted s c) (ht : t.index < s.types.size) (hnamed : Shape.anonymousUnion? (s.node t) = none) :
    s.Nests 1 t := by
  intro hunion
  have hnode := h.nodes t ht
  rw [NodeOk] at hnode
  split at hnode
  next d horigin => exact nests_declaration h ht horigin hunion
  next d i _ =>
    rw [hnode.isUnion] at hunion
    cases hunion
  next root steps choice _ =>
    obtain ⟨context, e, types, _, _, _, ⟨_, _, _, hcrosses⟩ | ⟨hmeet, hnode⟩⟩ := PartNode.cases hnode
    · obtain ⟨_, variants, text, hvariants, _⟩ := hcrosses.variants hunion
      rw [hvariants] at hnamed
      cases hnamed
    · rw [hnode] at hunion hnamed
      rw [anonymousUnion?_nodeOf hmeet hunion] at hnamed
      cases hnamed

/-- A union has no unions for members of its members. -/
theorem Charted.nests (h : p.Charted s c) (t : TypeId) (ht : t.index < s.types.size) : s.Nests 2 t := by
  intro hunion u hu
  have hlt := h.below t ht u hu
  have hunder (w : TypeId) (hw : w.index < t.index) : s.Nests 2 w := h.nests w (Nat.lt_trans hw ht)
  have hnode := h.nodes t ht
  rw [NodeOk] at hnode
  split at hnode
  next d horigin => exact nests_of_not_isUnion (nests_declaration h ht horigin hunion u hu) 1
  next d i _ =>
    rw [hnode.isUnion] at hunion
    cases hunion
  next root steps choice _ =>
    obtain ⟨context, e, types, hpart, _, hbelow, ⟨_, _, rfl, hcrosses⟩ | ⟨hmeet, hnode⟩⟩ := PartNode.cases hnode
    -- a variant of a variant is made after two choices
    · obtain ⟨_, variants, _, hvariants, heach⟩ := hcrosses.variants hunion
      rw [hvariants] at hu
      obtain ⟨i, hi⟩ := heach u hu
      intro hunion' v hv
      have hlt' := h.below u (Nat.lt_trans hlt ht) v hv
      obtain ⟨_, _, hcrosses'⟩ := h.crosses hpart (Nat.lt_trans hlt ht) hi
      obtain ⟨_, variants', _, hvariants', heach'⟩ := hcrosses'.variants hunion'
      rw [hvariants'] at hv
      obtain ⟨j, hj⟩ := heach' v hv
      have hbehind := Nat.lt_trans hlt' hlt
      exact h.isUnion_eq_false hpart (Nat.lt_trans hbehind ht) hj fun w hw => hunder w (Nat.lt_trans hw hbehind)
    -- a union that has been opened has no unions but those with a name
    · rw [hnode] at hunion hu
      rw [Shape.anonymousUnion?_eq (anonymousUnion?_nodeOf hmeet hunion)] at hu
      rcases mem_opened (fun _ _ => Shape.anonymousUnion?_eq) hu with ⟨_, hnamed⟩ | ⟨w, hw, hu, ts, hts⟩
      · exact nests_named h (Nat.lt_trans hlt ht) hnamed
      · exact hunder w (hbelow w hw) (isUnion_of_anonymous hts) u hu
termination_by t.index

end Project

end WireSchema

/-! ## What a conversion holds -/

namespace WireSchema

/-- The types that are held and the types of the properties. -/
def Store.anchors (s : Store) : List TypeId :=
  s.held ++ (List.range s.properties.size).filterMap fun i => s.typeOf? ⟨i⟩

/-! ## Stages as a course -/

namespace Project

variable {p : Project}

theorem typeOf?_eq_some {s : Store} {q : PropertyId} {t : TypeId} :
    s.typeOf? q = some t ↔ ∃ r, s.property? q = some r ∧ r.type = .done t := by
  rw [Store.typeOf?, Store.resolution?]
  cases s.property? q with
  | none => simp
  | some r => cases hr : r.type <;> simp [hr]

end Project

namespace TypeSpec

open Project

/-- What is resolved while types are written is all paid for. -/
def staged (p : Project) : Course p where
  World := Stage p
  store := Stage.store
  later := Stage.LeadsTo
  known w t := t.index < w.store.types.size
  refl w := .refl w.store w.chart
  trans h h' := h.trans h'
  events w events := w.events events
  known_later h ht := Nat.lt_of_lt_of_le ht h.size
  child {w} _ _ ht hchild := Nat.lt_trans (w.charted.child_lt ht hchild) ht
  node h ht := h.node _ ht
  listed h ht hlisted := h.listed _ _ ht hlisted
  name {w} _ _ _ _ h ht hlisted hq := h.propertyName (listed_lt w.charted ht hlisted _ hq)
  typeOf? {w w' q t} h ht := by
    obtain ⟨r, hr, hdone⟩ := typeOf?_eq_some.1 ht
    obtain ⟨r', hr', hkept⟩ := h.record q r hr
    exact typeOf?_eq_some.2 ⟨_, hr', hkept t hdone⟩
  properties {w _} ht := w.properties ht
  propertyType {w q r} hr := by
    obtain ⟨t, w', hrun, hleads, r', hr', hdone⟩ := w.propertyType (Array.getElem?_eq_some_iff.1 hr).1
    exact ⟨t, w', hrun, hleads, done_lt w'.charted hr' hdone, typeOf?_eq_some.2 ⟨r', hr', hdone⟩⟩

/-! ## What is inside of types -/

section
variable {p : Project} {config : Config} {w w' : Stage p} {t t' : TypeId}

theorem mem_anchors_of_typeOf? {s : Store} {q : PropertyId} (h : s.typeOf? q = some t) : t ∈ s.anchors := by
  obtain ⟨r, hr, _⟩ := typeOf?_eq_some.1 h
  have hlt : q.index < s.properties.size := (Array.getElem?_eq_some_iff.1 hr).1
  exact List.mem_append_right _ (List.mem_filterMap.2 ⟨q.index, List.mem_range.2 hlt, h⟩)

theorem mem_anchors_of_held {s : Store} (ht : t.index < s.types.size) (h : t' ∈ s.heldBy t) : t' ∈ s.anchors :=
  List.mem_append_left _ (Store.mem_held ht h)

theorem anchors_later (h : w.LeadsTo w') (ht : t ∈ w.store.anchors) : t ∈ w'.store.anchors := by
  rcases List.mem_append.1 ht with ht | ht
  · exact List.mem_append_left _ (held_later h ht)
  · obtain ⟨i, _, ht⟩ := List.mem_filterMap.1 ht
    exact mem_anchors_of_typeOf? ((staged p).typeOf? h ht)

/-- There are only so many anchors. -/
theorem length_le_of_anchored {ts : List TypeId} (hnodup : ts.Nodup) (h : ∀ t ∈ ts, t ∈ w.store.anchors) :
    ts.length ≤ 4 * p.weight := by
  have hanchors : w.store.anchors.length ≤ w.store.held.length + w.store.properties.size := by
    rw [Store.anchors, List.length_append]
    refine Nat.add_le_add_left ?_ _
    simpa using List.length_filterMap_le (fun i => w.store.typeOf? ⟨i⟩) (List.range w.store.properties.size)
  exact Nat.le_trans (List.subperm_of_subset hnodup h).length_le (Nat.le_trans hanchors w.held_le)

theorem mem_of_mem_writtenArguments {symbol : Option Text} {arguments : List TypeId}
    (h : t ∈ writtenArguments config symbol arguments) : t ∈ arguments := by
  unfold writtenArguments at h
  split at h
  · cases h
  split at h
  · cases h
  next first rest =>
    split at h
    · rw [List.mem_singleton.1 h]
      exact List.mem_cons_self
    split at h
    · rw [List.mem_singleton.1 h, List.getLastD_cons, List.getLastD_eq_getLast?]
      cases hlast : rest.getLast? with
      | none => exact List.mem_cons_self
      | some last => exact List.mem_cons_of_mem _ (List.mem_of_getLast? hlast)
    · exact h

theorem mem_heldBy {s : Store} (hmix : (s.node t).isMix = false) (h : t' ∈ (s.node t).shape.children) :
    t' ∈ s.heldBy t := by
  rw [Store.heldBy, hmix, if_neg Bool.false_ne_true]
  exact List.mem_cons_of_mem t h

/-- What is written inside of a type is held by it, unless it is a member of a
union or the type of a property. -/
theorem inside_cases {s : Store} (h : t' ∈ inside config s t) :
    t' ∈ s.heldBy t ∨ ((s.node t).isUnion = true ∧ t' ∈ (s.node t).members) ∨ ∃ q, s.typeOf? q = some t' := by
  unfold inside at h
  split at h
  next spans hshape => exact .inl (mem_heldBy (by rw [TypeNode.isMix, hshape]) (by rw [hshape]; exact h))
  next element hshape => exact .inl (mem_heldBy (by rw [TypeNode.isMix, hshape]) (by rw [hshape]; exact h))
  next elements hshape => exact .inl (mem_heldBy (by rw [TypeNode.isMix, hshape]) (by rw [hshape]; exact h))
  next arguments hshape =>
    refine .inl (mem_heldBy (by rw [TypeNode.isMix, hshape]) ?_)
    rw [hshape]
    exact mem_of_mem_writtenArguments h
  next members hshape =>
    refine .inr (.inl ⟨by rw [TypeNode.isUnion, hshape], ?_⟩)
    rw [TypeNode.members, hshape]
    exact h
  next =>
    obtain ⟨q, _, hq⟩ := List.mem_filterMap.1 h
    exact .inr (.inr ⟨q, hq⟩)

theorem lt_of_inside (ht : t.index < w.store.types.size) (h : t' ∈ inside config w.store t) :
    t'.index < w.store.types.size := by
  rcases inside_cases h with hheld | ⟨_, hmember⟩ | ⟨q, hq⟩
  · rw [Store.heldBy] at hheld
    split at hheld
    · cases hheld
    · rcases List.mem_cons.1 hheld with rfl | hchild
      · exact ht
      · exact Nat.lt_trans (w.charted.child_lt ht hchild) ht
  · exact Nat.lt_trans (w.charted.below t ht t' hmember) ht
  · obtain ⟨r, hr, hdone⟩ := typeOf?_eq_some.1 hq
    exact done_lt w.charted hr hdone

/-- What is written inside of a type that is no union is an anchor. -/
theorem mem_anchors_of_inside (ht : t.index < w.store.types.size) (hplain : (w.store.node t).isUnion = false)
    (h : t' ∈ inside config w.store t) : t' ∈ w.store.anchors := by
  rcases inside_cases h with hheld | ⟨hunion, _⟩ | ⟨q, hq⟩
  · exact mem_anchors_of_held ht hheld
  · rw [hplain] at hunion
    cases hunion
  · exact mem_anchors_of_typeOf? hq

/-- A type that is no anchor is a union or an intersection. -/
theorem isMix_of_not_mem_anchors (ht : t.index < w.store.types.size) (h : t ∉ w.store.anchors) :
    (w.store.node t).isMix = true := by
  cases hmix : (w.store.node t).isMix with
  | true => rfl
  | false =>
    refine absurd (mem_anchors_of_held ht ?_) h
    rw [Store.heldBy, hmix, if_neg Bool.false_ne_true]
    exact List.mem_cons_self

end

/-! ## Answers -/

/-- The type is an anchor, or else a union or an intersection with no template
around it and fewer levels of unions than that. -/
def Level (s : Store) (chain : List TypeId) (t : TypeId) (levels : Nat) : Prop :=
  t ∈ s.anchors ∨ chain = [] ∧ ∃ k < levels, s.Nests k t

section
variable {p : Project} {config : Config} {w w' : Stage p} {path seen chain : List TypeId} {t t' : TypeId}
  {k levels : Nat}

theorem level_of_inside (ht : t.index < w.store.types.size) (hnests : w.store.Nests (k + 1) t)
    (h : t' ∈ inside config w.store t) (hk : k < levels) : Level w.store [] t' levels := by
  rcases inside_cases h with hheld | ⟨hunion, hmember⟩ | ⟨q, hq⟩
  · exact .inl (mem_anchors_of_held ht hheld)
  · exact .inr ⟨rfl, k, hk, hnests hunion t' hmember⟩
  · exact .inl (mem_anchors_of_typeOf? hq)

/-- A type is to be written inside of the types on the path. Of these, `seen` are
anchors, and the templates in `chain` stand between the last one and the type, each
made before the one around it. -/
structure Along (w : Stage p) (path seen chain : List TypeId) (t : TypeId) (levels : Nat) : Prop where
  there : t.index < w.store.types.size
  seen_nodup : seen.Nodup
  seen_path : ∀ x ∈ seen, x ∈ path ∧ x ∈ w.store.anchors
  chain_nodup : chain.Nodup
  chain_above : ∀ x ∈ chain, t.index < x.index ∧ x ∈ w.store.anchors
  level : Level w.store chain t levels

/-- The depth that is needed for it: all anchors that are not on the path yet, and
between two of them the templates, and then at most two unions and an intersection. -/
def needed (p : Project) (seen chain : List TypeId) (levels : Nat) : Nat :=
  (4 * p.weight - seen.length) * (4 * p.weight + 4) + (4 * p.weight - chain.length) + levels + 1

theorem Along.start (ht : t.index < w.store.types.size) : Along w [] [] [] t 3 where
  there := ht
  seen_nodup := List.nodup_nil
  seen_path := List.forall_mem_nil _
  chain_nodup := List.nodup_nil
  chain_above := List.forall_mem_nil _
  level := .inr ⟨rfl, 2, Nat.lt_succ_self 2, w.charted.nests t ht⟩

theorem Along.seen_later (h : Along w path seen chain t levels) (hleads : w.LeadsTo w') :
    ∀ x ∈ seen, x ∈ path ∧ x ∈ w'.store.anchors :=
  fun x hx => ⟨(h.seen_path x hx).1, anchors_later hleads (h.seen_path x hx).2⟩

/-- Inside a template there is one more template. -/
theorem Along.template (h : Along w path seen chain t levels) (hleads : w.LeadsTo w') {spans : List (Span TypeId)}
    (hspans : (w.store.node t).shape = .template spans) (ht' : t' ∈ inside config w'.store t) :
    Along w' path seen (t :: chain) t' 0 ∧ needed p seen (t :: chain) 0 < needed p seen chain levels := by
  have ht : t.index < w'.store.types.size := Nat.lt_of_lt_of_le h.there hleads.size
  have hspans' : (w'.store.node t).shape = .template spans := (congrArg _ (hleads.node t h.there)).trans hspans
  have hanchor : t ∈ w'.store.anchors := by
    refine Classical.byContradiction fun hnot => ?_
    have hmix := isMix_of_not_mem_anchors ht hnot
    rw [TypeNode.isMix, hspans'] at hmix
    cases hmix
  have hless : t'.index < t.index := by
    refine w'.charted.child_lt ht ?_
    rw [inside, hspans'] at ht'
    rw [hspans']
    exact ht'
  have hplain : (w'.store.node t).isUnion = false := by rw [TypeNode.isUnion, hspans']
  have hchain : (t :: chain).Nodup :=
    List.nodup_cons.2 ⟨fun hmem => Nat.lt_irrefl _ (h.chain_above t hmem).1, h.chain_nodup⟩
  have habove : ∀ x ∈ t :: chain, t'.index < x.index ∧ x ∈ w'.store.anchors :=
    List.forall_mem_cons.2 ⟨⟨hless, hanchor⟩, fun x hx =>
      ⟨Nat.lt_trans hless (h.chain_above x hx).1, anchors_later hleads (h.chain_above x hx).2⟩⟩
  have hroom := length_le_of_anchored hchain fun x hx => (habove x hx).2
  refine ⟨⟨Nat.lt_trans hless ht, h.seen_nodup, h.seen_later hleads, hchain, habove,
    .inl (mem_anchors_of_inside ht hplain ht')⟩, ?_⟩
  rw [List.length_cons] at hroom
  rw [needed, needed, List.length_cons]
  omega

/-- Inside an anchor there is one anchor less that is not on the path. -/
theorem Along.anchor (h : Along w path seen chain t levels) (hleads : w.LeadsTo w') (hout : t ∉ path)
    (hanchor : t ∈ w.store.anchors) (ht' : t' ∈ inside config w'.store t) :
    Along w' (t :: path) (t :: seen) [] t' 2 ∧ needed p (t :: seen) [] 2 < needed p seen chain levels := by
  have ht : t.index < w'.store.types.size := Nat.lt_of_lt_of_le h.there hleads.size
  have hseen : (t :: seen).Nodup := List.nodup_cons.2 ⟨fun hmem => hout (h.seen_path t hmem).1, h.seen_nodup⟩
  have hpath : ∀ x ∈ t :: seen, x ∈ t :: path ∧ x ∈ w'.store.anchors :=
    List.forall_mem_cons.2 ⟨⟨List.mem_cons_self, anchors_later hleads hanchor⟩, fun x hx =>
      ⟨List.mem_cons_of_mem t (h.seen_later hleads x hx).1, (h.seen_later hleads x hx).2⟩⟩
  have hroom := length_le_of_anchored hseen fun x hx => (hpath x hx).2
  refine ⟨⟨lt_of_inside ht ht', hseen, hpath, List.nodup_nil, List.forall_mem_nil _,
    level_of_inside ht (w'.charted.nests t ht) ht' (Nat.lt_succ_self 1)⟩, ?_⟩
  rw [List.length_cons] at hroom
  obtain ⟨left, hleft⟩ : ∃ left, 4 * p.weight - seen.length = left + 1 := ⟨4 * p.weight - seen.length - 1, by omega⟩
  have hleft' : 4 * p.weight - (t :: seen).length = left := by
    rw [List.length_cons]
    omega
  rw [needed, needed, hleft, hleft', Nat.add_mul left, List.length_nil]
  omega

/-- Inside a union or an intersection that is no anchor there is one level of
unions less. -/
theorem Along.mix (h : Along w path seen chain t levels) (hleads : w.LeadsTo w') (hanchor : t ∉ w.store.anchors)
    (ht' : t' ∈ inside config w'.store t) :
    Along w' (t :: path) seen [] t' (levels - 1) ∧ needed p seen [] (levels - 1) < needed p seen chain levels := by
  have ht : t.index < w'.store.types.size := Nat.lt_of_lt_of_le h.there hleads.size
  obtain ⟨rfl, k, hk, hnests⟩ := h.level.resolve_left hanchor
  have hnests' := nests_later hleads w.charted h.there hnests
  have hlevel : Level w'.store [] t' (levels - 1) := by
    cases k with
    | zero => exact .inl (mem_anchors_of_inside ht hnests' ht')
    | succ k => exact level_of_inside ht hnests' ht' (by omega)
  refine ⟨⟨lt_of_inside ht ht', h.seen_nodup, fun x hx => ?_, List.nodup_nil, List.forall_mem_nil _, hlevel⟩, ?_⟩
  · exact ⟨List.mem_cons_of_mem t (h.seen_later hleads x hx).1, (h.seen_later hleads x hx).2⟩
  · rw [needed, needed]
    omega

end

/-- There is an answer where the depth allows for all that may come. -/
theorem convertIn_answers {setting : Setting} {w : Stage setting.project} {path seen chain : List TypeId} {t : TypeId}
    {n levels : Nat} (h : Along w path seen chain t levels) (hdepth : needed setting.project seen chain levels ≤ n) :
    (staged setting.project).Does True w (convertIn setting n path t) fun _ _ => True := by
  induction n generalizing w path seen chain t levels with
  | zero => cases hdepth
  | succ n ih =>
    refine convertWith_answers h.there fun henters w' hleads t' ht' _ => ?_
    show (staged setting.project).Does True w' (convertIn setting n (onward (w.store.node t) path t) t') _
    by_cases htemplate : ∃ spans, (w.store.node t).shape = .template spans
    · obtain ⟨spans, hspans⟩ := htemplate
      obtain ⟨halong, hless⟩ := h.template hleads hspans ht'
      rw [onward_template hspans]
      exact ih halong (Nat.le_of_lt_succ (Nat.lt_of_lt_of_le hless hdepth))
    · rw [onward_of_not_template htemplate]
      by_cases hanchor : t ∈ w.store.anchors
      · obtain ⟨halong, hless⟩ := h.anchor hleads (henters.resolve_right htemplate) hanchor ht'
        exact ih halong (Nat.le_of_lt_succ (Nat.lt_of_lt_of_le hless hdepth))
      · obtain ⟨halong, hless⟩ := h.mix hleads hanchor ht'
        exact ih halong (Nat.le_of_lt_succ (Nat.lt_of_lt_of_le hless hdepth))

end TypeSpec

end WireSchema
