import WireSchema.Proofs.Project.Extends
/-!
# Steps that make nodes

Resolving makes nodes and gives declarations their types, and nothing else. No
two of the nodes have the same origin.
-/

namespace WireSchema

namespace Origin

/-- The node belongs to the declaration. -/
def Of (d : DeclarationId) : Origin → Prop
  | declaration d' => d' = d
  | value d' _ => d' = d
  | part (.body d') _ _ => d' = d
  | part (.member _ _) _ _ => False

theorem Of.unique {o : Origin} {d d' : DeclarationId} (h : o.Of d) (h' : o.Of d') : d = d' := by
  unfold Of at h h'
  split at h
  · exact h.symm.trans h'
  · exact h.symm.trans h'
  · exact h.symm.trans h'
  · exact h.elim

/-- The node is made for the part or for a part of it. -/
def Under (root : Root) (steps : List Nat) (o : Origin) : Prop :=
  ∃ more choice, o = .part root (more ++ steps) choice

/-- The node is made for the `k`-th part of the part or for one behind, or for a
part of these. -/
def UnderFrom (root : Root) (steps : List Nat) (k : Nat) (o : Origin) : Prop :=
  ∃ i, k ≤ i ∧ o.Under root (i :: steps)

theorem Under.of_root {root : Root} {steps : List Nat} {o : Origin} {d : DeclarationId} (h : o.Under root steps)
    (hd : o.Of d) : root = .body d := by
  obtain ⟨more, choice, rfl⟩ := h
  cases root with
  | body d' => rw [show d' = d from hd]
  | member owner index => exact hd.elim

theorem Under.step_inj {root : Root} {steps : List Nat} {i j : Nat} {o : Origin} (h : o.Under root (i :: steps))
    (h' : o.Under root (j :: steps)) : i = j := by
  obtain ⟨more, choice, rfl⟩ := h
  obtain ⟨more', choice', heq⟩ := h'
  simp only [part.injEq, true_and] at heq
  rw [List.append_cons, List.append_cons more' j] at heq
  have := List.append_inj' (List.append_cancel_right heq.1) rfl
  simpa using this.2

theorem UnderFrom.under {root : Root} {steps : List Nat} {k : Nat} {o : Origin}
    (h : o.UnderFrom root steps k) : o.Under root steps := by
  obtain ⟨i, _, more, choice, rfl⟩ := h
  exact ⟨more ++ [i], choice, by rw [List.append_assoc, List.singleton_append]⟩

/-- A part of a part has another place. -/
theorem UnderFrom.ne {root : Root} {steps : List Nat} {k : Nat} {o : Origin} (h : o.UnderFrom root steps k)
    (choice : List Nat) : o ≠ .part root steps choice := by
  obtain ⟨i, _, more, choice', rfl⟩ := h
  intro heq
  simp only [part.injEq, true_and] at heq
  have := congrArg List.length heq.1
  simp only [List.length_append, List.length_cons] at this
  omega

end Origin

namespace Project

variable {p : Project}

/-- The declaration is a type alias. -/
def IsAlias (p : Project) (d : DeclarationId) : Prop := ∃ parameters e, p.body? d = some (.typeAlias parameters e)

/-- The step makes nodes whose origins are among `mine`, and those of the
declarations that it gives types. Of the aliases, these are among `closed`. -/
structure Adds (p : Project) (closed : List DeclarationId) (mine : Origin → Prop) (s s' : Store) (c c' : Chart) :
    Prop extends Extends s s' c c' where
  charted : p.Charted s' c'
  cells : ∀ id : TypeId, id.index < s.types.size → s'.cell id = s.cell id
  properties : s'.properties = s.properties
  places : c'.properties = c.properties
  closes : ∀ d, p.IsAlias d → s.declared? d = none → (s'.declared? d).isSome → d ∈ closed
  fresh : ∀ i, s.types.size ≤ i → i < s'.types.size → mine (c'.types i) ∨
    ∃ d, (c'.types i).Of d ∧ s.declared? d = none ∧ (s'.declared? d).isSome
  distinct : ∀ i j, s.types.size ≤ i → i < s'.types.size → s.types.size ≤ j → j < s'.types.size →
    c'.types i = c'.types j → i = j
  /-- The properties of new nodes with members are still to be found. -/
  unlisted : ∀ id : TypeId, s.types.size ≤ id.index → id.index < s'.types.size → ∀ ids,
    (s'.cell id).properties = .listed ids → p.membersOf? (c'.types id.index) = none

namespace Adds

variable {closed : List DeclarationId} {mine mine' : Origin → Prop} {s s' s'' : Store} {c c' c'' : Chart}

theorem refl (h : p.Charted s c) : p.Adds closed mine s s c c where
  toExtends := .refl s c
  charted := h
  cells _ _ := rfl
  properties := rfl
  places := rfl
  closes d _ hnone hsome := by rw [hnone] at hsome; cases hsome
  fresh i hi hlt := absurd hlt (Nat.not_lt.2 hi)
  distinct i j hi hlt := absurd hlt (Nat.not_lt.2 hi)
  unlisted id hi hlt := absurd hlt (Nat.not_lt.2 hi)

/-- An alias that is not among those that may be closed gets no type. -/
theorem declared?_eq_none (h : p.Adds closed mine s s' c c') {d : DeclarationId} (hd : p.IsAlias d)
    (hclosed : d ∉ closed) (hnone : s.declared? d = none) : s'.declared? d = none := by
  cases hsome : s'.declared? d with
  | none => rfl
  | some id => exact absurd (h.closes d hd hnone (by rw [hsome]; rfl)) hclosed

theorem mono (h : p.Adds closed mine s s' c c') (hmine : ∀ o, mine o → mine' o) : p.Adds closed mine' s s' c c' :=
  { h with fresh := fun i hi hlt => (h.fresh i hi hlt).imp (hmine _) id }

theorem isSome_of_isSome (h : Extends s s' c c') {d : DeclarationId} (hd : (s.declared? d).isSome) :
    (s'.declared? d).isSome := by
  obtain ⟨id, hid⟩ := Option.isSome_iff_exists.1 hd
  rw [h.declared d id hid]
  rfl

/-- One step after the other, if what they make for themselves is not the same
and belongs to no declaration that gets a type. -/
theorem trans (h : p.Adds closed mine s s' c c') (h' : p.Adds closed mine' s' s'' c' c'')
    (hdisjoint : ∀ o, mine o → ¬ mine' o)
    (hheld : ∀ o d, mine o ∨ mine' o → o.Of d → s''.declared? d = none) :
    p.Adds closed (fun o => mine o ∨ mine' o) s s'' c c'' where
  toExtends := h.toExtends.trans h'.toExtends
  charted := h'.charted
  cells id hid := by rw [h'.cells id (Nat.lt_of_lt_of_le hid h.size), h.cells id hid]
  properties := h'.properties.trans h.properties
  places := h'.places.trans h.places
  closes d hd hnone hsome := by
    cases hmid : s'.declared? d with
    | none => exact h'.closes d hd hmid hsome
    | some id => exact h.closes d hd hnone (by rw [hmid]; rfl)
  fresh i hi hlt := by
    by_cases hmid : i < s'.types.size
    · rw [h'.origin i hmid]
      rcases h.fresh i hi hmid with hmine | ⟨d, hd, hnone, hsome⟩
      · exact .inl (.inl hmine)
      · exact .inr ⟨d, hd, hnone, isSome_of_isSome h'.toExtends hsome⟩
    · rcases h'.fresh i (Nat.le_of_not_lt hmid) hlt with hmine | ⟨d, hd, hnone, hsome⟩
      · exact .inl (.inr hmine)
      · refine .inr ⟨d, hd, ?_, hsome⟩
        cases hdeclared : s.declared? d with
        | none => rfl
        | some id => rw [h.declared d id hdeclared] at hnone; cases hnone
  distinct i j hi hlt hj hlt' heq := by
    -- nodes of the first step and of the second have different origins
    have hcross : ∀ i j, s.types.size ≤ i → i < s'.types.size → s'.types.size ≤ j → j < s''.types.size →
        c''.types i ≠ c''.types j := by
      intro i j hi hlt hj hlt' heq
      have hfirst := h.fresh i hi hlt
      rw [← h'.origin i hlt, heq] at hfirst
      rcases hfirst with hmine | ⟨d, hd, _, hsome⟩
      · rcases h'.fresh j hj hlt' with hmine' | ⟨d, hd, _, hsome⟩
        · exact hdisjoint _ hmine hmine'
        · rw [hheld _ d (.inl hmine) hd] at hsome
          cases hsome
      · rcases h'.fresh j hj hlt' with hmine' | ⟨d', hd', hnone, _⟩
        · have := isSome_of_isSome h'.toExtends hsome
          rw [hheld _ d (.inr hmine') hd] at this
          cases this
        · rw [hd.unique hd', hnone] at hsome
          cases hsome
    by_cases hi' : i < s'.types.size
    · by_cases hj' : j < s'.types.size
      · rw [h'.origin i hi', h'.origin j hj'] at heq
        exact h.distinct i j hi hi' hj hj' heq
      · exact absurd heq (hcross i j hi hi' (Nat.le_of_not_lt hj') hlt')
    · by_cases hj' : j < s'.types.size
      · exact absurd heq.symm (hcross j i hj hj' (Nat.le_of_not_lt hi') hlt)
      · exact h'.distinct i j (Nat.le_of_not_lt hi') hlt (Nat.le_of_not_lt hj') hlt' heq
  unlisted id hi hlt ids hlisted := by
    by_cases hmid : id.index < s'.types.size
    · rw [h'.cells id hmid] at hlisted
      rw [h'.origin _ hmid]
      exact h.unlisted id hi hmid ids hlisted
    · exact h'.unlisted id (Nat.le_of_not_lt hmid) hlt ids hlisted

end Adds

end Project

/-! ## One more node -/

namespace Store

variable (s : Store) (cell : TypeCell)

/-- The store with one more type. -/
def added : Store := { s with types := s.types.push cell }

@[simp] theorem size_added : (s.added cell).types.size = s.types.size + 1 := by
  rw [added, Array.size_push]

theorem cell_added_self : (s.added cell).cell ⟨s.types.size⟩ = cell := by
  simp [Store.cell, added, Array.getD_eq_getD_getElem?]

variable {s cell}

theorem cell_added {id : TypeId} (h : id.index < s.types.size) : (s.added cell).cell id = s.cell id := by
  rw [Store.cell, Store.cell, added, Array.getD_eq_getD_getElem?, Array.getD_eq_getD_getElem?,
    Array.getElem?_push_lt h, Array.getElem?_eq_getElem h]

theorem node_added {id : TypeId} (h : id.index < s.types.size) : (s.added cell).node id = s.node id := by
  rw [node, node, cell_added h]

theorem node_added_self : (s.added cell).node ⟨s.types.size⟩ = cell.node := by rw [node, cell_added_self]

theorem node_of_size_le {id : TypeId} (h : s.types.size ≤ id.index) : s.node id = default := by
  rw [node, Store.cell, Array.getD_eq_getD_getElem?, Array.getElem?_eq_none h]
  rfl

end Store

/-- The chart with the origin of one more node. -/
def Chart.put (c : Chart) (i : Nat) (o : Origin) : Chart :=
  { c with types := fun j => if j = i then o else c.types j }

theorem Chart.put_self (c : Chart) (i : Nat) (o : Origin) : (c.put i o).types i = o := by
  simp [put]

theorem Chart.put_of_lt {c : Chart} {i j : Nat} (o : Origin) (h : j < i) : (c.put i o).types j = c.types j := by
  simp [put, Nat.ne_of_lt h]

namespace Project

section
variable {p : Project} {s : Store} {c : Chart} {cell : TypeCell} {o : Origin}

theorem extends_added (s : Store) (c : Chart) (cell : TypeCell) (o : Origin) :
    Extends s (s.added cell) c (c.put s.types.size o) where
  size := by simp
  node _ hid := Store.node_added hid
  origin _ hi := Chart.put_of_lt o hi
  declared _ _ hd := hd
  count := Nat.le_refl _
  place _ _ := rfl

/-- A node that is the one its origin says, with properties that are those of its
origin. -/
structure Fits (p : Project) (s : Store) (c : Chart) (cell : TypeCell) (o : Origin) : Prop where
  node : p.NodeOk (s.added cell) (c.put s.types.size o) ⟨s.types.size⟩
  below : ∀ t ∈ cell.node.members, t.index < s.types.size
  joined : ∀ ts, Shape.intersectionMembers? cell.node = some ts →
    ∀ t ∈ ts, (s.node t).isUnion = false ∧ Shape.intersectionMembers? (s.node t) = none
  has : ∀ t ∈ cell.node.members, ∀ context m, p.OriginHas (c.types t.index) context m → p.OriginHas o context m
  listing : p.ListingOk (s.added cell) (c.put s.types.size o) ⟨s.types.size⟩
  unlisted : ∀ ids, cell.properties = .listed ids → p.membersOf? o = none

theorem lt_or_eq_of_lt_added {id : TypeId} (h : id.index < (s.added cell).types.size) :
    id.index < s.types.size ∨ id = ⟨s.types.size⟩ := by
  rw [Store.size_added] at h
  rcases Nat.lt_succ_iff_lt_or_eq.1 h with h | h
  · exact .inl h
  · exact .inr (by cases id; simp only at h; rw [h])

theorem Charted.added (h : p.Charted s c) (hfits : p.Fits s c cell o) :
    p.Charted (s.added cell) (c.put s.types.size o) := by
  have hext := extends_added s c cell o
  -- each part holds of the old cells as before and of the new one by its fit
  refine ⟨fun id hid => ?nodes, fun id hid t ht => ?below, fun id ts hts t ht => ?joined, fun id hid t ht context m hm => ?has,
    h.entries.mono hext, fun id hid => ?listings, fun q hq => ?properties⟩
  case nodes =>
    rcases lt_or_eq_of_lt_added hid with hid | rfl
    · exact (h.nodes id hid).mono h.descends hext hid
    · exact hfits.node
  case below =>
    rcases lt_or_eq_of_lt_added hid with hid | rfl
    · rw [Store.node_added hid] at ht
      exact h.below id hid t ht
    · rw [Store.node_added_self] at ht
      exact hfits.below t ht
  case joined =>
    by_cases hid : id.index < (s.added cell).types.size
    · rcases lt_or_eq_of_lt_added hid with hid | rfl
      · rw [Store.node_added hid] at hts
        have hlt := Nat.lt_trans (h.below id hid t (by rw [Shape.intersectionMembers?_eq hts]; exact ht)) hid
        rw [Store.node_added hlt]
        exact h.joined id ts hts t ht
      · rw [Store.node_added_self] at hts
        have hlt := hfits.below t (by rw [Shape.intersectionMembers?_eq hts]; exact ht)
        rw [Store.node_added hlt]
        exact hfits.joined ts hts t ht
    · rw [Store.node_of_size_le (Nat.le_of_not_lt hid)] at hts
      cases hts
  case has =>
    rcases lt_or_eq_of_lt_added hid with hid | rfl
    · rw [Store.node_added hid] at ht
      have hlt := Nat.lt_trans (h.below id hid t ht) hid
      rw [Chart.put_of_lt o hlt] at hm
      rw [Chart.put_of_lt o hid]
      exact h.has id hid t ht context m hm
    · rw [Store.node_added_self] at ht
      rw [Chart.put_of_lt o (hfits.below t ht)] at hm
      rw [Chart.put_self]
      exact hfits.has t ht context m hm
  case listings =>
    rcases lt_or_eq_of_lt_added hid with hid | rfl
    · exact (h.listings id hid).mono hext hid (Store.cell_added hid)
    · exact hfits.listing
  case properties => exact (h.properties q hq).mono hext hq rfl

theorem Adds.one (closed : List DeclarationId) (h : p.Charted s c) (hfits : p.Fits s c cell o) :
    p.Adds closed (· = o) s (s.added cell) c (c.put s.types.size o) where
  toExtends := extends_added s c cell o
  charted := h.added hfits
  cells _ hid := Store.cell_added hid
  properties := rfl
  places := rfl
  closes d _ hnone hsome := by
    rw [show (s.added cell).declared? d = s.declared? d from rfl, hnone] at hsome
    cases hsome
  fresh i hi hlt := by
    rw [Store.size_added] at hlt
    rw [Nat.le_antisymm (Nat.le_of_lt_succ hlt) hi, Chart.put_self]
    exact .inl rfl
  distinct i j hi hlt hj hlt' _ := by
    rw [Store.size_added] at hlt hlt'
    omega
  unlisted id hi hlt ids hlisted := by
    rcases lt_or_eq_of_lt_added hlt with hlt | rfl
    · exact absurd hlt (Nat.not_lt.2 hi)
    · rw [Store.cell_added_self] at hlisted
      rw [Chart.put_self]
      exact hfits.unlisted ids hlisted

end

end Project

end WireSchema
