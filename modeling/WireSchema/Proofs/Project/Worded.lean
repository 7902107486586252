import WireSchema.Proofs.Project.Declared
import WireSchema.Proofs.Project.Legible
/-!
# Texts of nodes

A node has a text that can be seen, as what it was made for has one, unless it
was made by distributing an intersection: then it has the texts of its members.
A union has members if no enumeration lacks them.
-/

namespace WireSchema

/-- Where nothing can be chosen, one list has nothing to choose from. -/
theorem nil_mem_of_choices_eq_nil {α : Type} {lists : List (List α)} (h : choices lists = []) : [] ∈ lists := by
  induction lists with
  | nil => cases h
  | cons options rest ih =>
    cases options with
    | nil => exact List.mem_cons_self
    | cons x options =>
      rw [choices, List.flatMap_cons] at h
      have hrest := List.map_eq_nil_iff.1 (List.append_eq_nil_iff.1 h).1
      exact List.mem_cons_of_mem _ (ih hrest)

namespace Store

variable {s : Store} {t : TypeId} {types : List TypeId}

/-- A text among others can be seen. -/
theorem isBlank_texts (separator : Text) (ht : t ∈ types) (h : Text.isBlank (s.node t).text = false) :
    Text.isBlank (s.texts separator types) = false :=
  Text.isBlank_join separator (List.mem_map_of_mem ht) h

/-- What may be chosen lacks only where there is a union without members. -/
theorem exists_of_nil_mem_options (h : [] ∈ s.options types) : ∃ u ∈ s.joined types, (s.node u).shape = .union [] := by
  obtain ⟨u, hu, hnil⟩ := List.mem_map.1 h
  refine ⟨u, hu, ?_⟩
  cases hshape : (s.node u).shape with
  | union members =>
    rw [Shape.unionMembers?, hshape] at hnil
    rw [show members = [] from hnil]
  | _ =>
    rw [Shape.unionMembers?, hshape] at hnil
    cases hnil

/-- A type that nothing is put in the place of is a union without members. -/
theorem shape_of_opened_nil (h : (Shape.anonymousUnion? (s.node t)).getD [t] = []) : (s.node t).shape = .union [] := by
  cases hunion : Shape.anonymousUnion? (s.node t) with
  | none =>
    rw [hunion] at h
    cases h
  | some members =>
    rw [hunion, Option.getD_some] at h
    subst h
    rw [Shape.anonymousUnion?] at hunion
    split at hunion
    next hshape _ =>
      cases hunion
      exact hshape
    · cases hunion

end Store

namespace Project

variable {p : Project} {s : Store} {c : Chart} {t : TypeId}

/-- What a node is made for, and how. -/
theorem isBlank_nodeOf (hp : p.Visible) {context : Context} {types : List TypeId} {e : TypeExpr} (he : e.Visible) :
    Text.isBlank (p.nodeOf s context types e).text = false := by
  cases he with
  | keyword h => exact h
  | literal h => exact h
  | verbatim h => exact h
  | template h _ =>
    rw [nodeOf]
    split
    · exact TypeGrammar.isBlank_quote _
    · exact h
  | array h _ => exact h
  | tuple h _ => exact h
  | object h _ => exact h
  | union h _ _ => exact h
  | intersection h _ _ => exact h
  | @reference name text arguments hname htext _ =>
    rw [nodeOf]
    split
    · simp only
      split
      · exact hname
      · cases hlookup : p.lookup? context.unit name with
        | none => exact htext
        | some d =>
          obtain ⟨declaration, hd⟩ := lookup?_valid hlookup
          simp only [hd, Option.map_some, Option.getD_some]
          exact (hp.declaration hd).name
    · exact htext

theorem not_isWhole_choice (root : Root) (steps choice : List Nat) (i : Nat) :
    ¬ IsWhole (.part root steps (choice ++ [i])) := by
  rintro ⟨d, heq | heq⟩
  · cases heq
  · have hnil : choice ++ [i] = [] := (Origin.part.inj heq).2.2
    cases List.append_eq_nil_iff.1 hnil |>.2

/-- The text of a node can be seen, or it is put together from those of members: of
variants, which are no whole definitions, or of the members of an intersection. -/
theorem Charted.text_cases (hp : p.Visible) (h : p.Charted s c) (ht : t.index < s.types.size) :
    Text.isBlank (s.node t).text = false ∨
      (∃ variants, s.node t = { shape := .union variants, text := s.texts " | " variants } ∧
        ∀ u ∈ variants, ¬ IsWhole (c.types u.index)) ∨
      ∃ members, s.node t = { shape := .intersection members, text := s.texts " & " members } := by
  have hnode := h.nodes t ht
  rw [NodeOk] at hnode
  -- by what the node was made for; only unions and intersections take their text from members
  split at hnode
  next d _ =>
    obtain ⟨declaration, hd, hkind⟩ := hnode
    have hname := (hp.declaration hd).name
    cases hbody : declaration.body with
    | interface parameters bases members =>
      rw [hbody] at hkind
      rw [show s.node t = _ from hkind, Resolving.interfaceText]
      refine .inl ?_
      split
      · exact hname
      · exact Text.isBlank_append_left (Text.isBlank_append_left (Text.isBlank_append_left hname _) _) _
    | enumeration members =>
      rw [hbody] at hkind
      obtain ⟨values, hnode, _⟩ := hkind
      rw [hnode]
      exact .inl hname
    | typeAlias parameters e =>
      rw [hbody] at hkind
      exact hkind.elim
  next d i _ =>
    obtain ⟨declaration, members, m, hd, hbody, hm, hnode⟩ := hnode
    have hvisible : m.Visible := by
      have hmembers := (hp.declaration hd).body
      rw [hbody] at hmembers
      exact hmembers m (List.mem_of_getElem? hm)
    rw [hnode]
    refine .inl ?_
    cases hvalue : m.value with
    | none => exact Text.isBlank_append_left (Text.isBlank_append_left (hp.declaration hd).name _) _
    | some value => exact hvisible value hvalue
  next root steps choice _ =>
    obtain ⟨context, e, types, hpart, _, _, ⟨es, text, rfl, hcrosses⟩ | ⟨_, hnode⟩⟩ := PartNode.cases hnode
    · rw [Crosses] at hcrosses
      split at hcrosses
      · obtain ⟨variants, hnode, _, heach⟩ := hcrosses
        refine .inr (.inl ⟨variants, hnode, fun u hu => ?_⟩)
        obtain ⟨i, hi⟩ := List.getElem?_of_mem hu
        rw [(heach i u hi).2]
        exact not_isWhole_choice root steps choice i
      · exact .inr (.inr ⟨_, hcrosses⟩)
    · rw [hnode]
      exact .inl (isBlank_nodeOf hp (hp.partType hpart))

/-- Apart from intersections, what has a union for its node is a union. -/
theorem union_of_shape_nodeOf {context : Context} {types members : List TypeId} {e : TypeExpr} (hmeet : isMeet e = false)
    (h : (p.nodeOf s context types e).shape = .union members) :
    ∃ es text, e = .union es text ∧ members = s.opened Shape.anonymousUnion? types := by
  cases e with
  | union es text =>
    cases h
    exact ⟨es, text, rfl, rfl⟩
  | intersection => cases hmeet
  | keyword name =>
    rw [nodeOf] at h
    rcases keywordShape_cases name with hkeyword | hkeyword | hkeyword | hkeyword <;> rw [hkeyword] at h <;> cases h
  | template spans text =>
    rw [nodeOf] at h
    split at h <;> cases h
  | tuple es text variadic => cases variadic <;> cases h
  | reference name arguments text =>
    rw [nodeOf] at h
    split at h <;> cases h
  | _ => cases h

/-- No union is without members, unless an enumeration is. -/
theorem Charted.union_ne_nil (hp : p.Visible) (h : p.Charted s c)
    (henumerations : ∀ d members, p.body? d = some (.enumeration members) → members ≠ [])
    {t : TypeId} (ht : t.index < s.types.size) : (s.node t).shape ≠ .union [] := by
  intro hshape
  have hnode := h.nodes t ht
  rw [NodeOk] at hnode
  split at hnode
  next d _ =>
    obtain ⟨declaration, hd, hkind⟩ := hnode
    cases hbody : declaration.body with
    | interface parameters bases members =>
      rw [hbody] at hkind
      rw [show s.node t = _ from hkind] at hshape
      cases hshape
    | enumeration members =>
      rw [hbody] at hkind
      obtain ⟨values, hnode, hlength, _⟩ := hkind
      rw [hnode] at hshape
      cases hshape
      exact henumerations d members (by rw [body?_eq hd, hbody]) (List.length_eq_zero_iff.1 hlength.symm)
    | typeAlias parameters e =>
      rw [hbody] at hkind
      exact hkind
  next d i _ =>
    obtain ⟨declaration, members, m, _, _, _, hnode⟩ := hnode
    rw [hnode] at hshape
    cases hshape
  next root steps choice _ =>
    obtain ⟨context, e, types, hpart, hparts, hbelow, ⟨es, text, rfl, hcrosses⟩ | ⟨hmeet, hnode⟩⟩ := PartNode.cases hnode
    · rw [Crosses] at hcrosses
      split at hcrosses
      · obtain ⟨variants, hnode, hlength, _⟩ := hcrosses
        rw [hnode] at hshape
        cases hshape
        obtain ⟨u, hu, hempty⟩ :=
          Store.exists_of_nil_mem_options (nil_mem_of_choices_eq_nil (List.length_eq_zero_iff.1 hlength.symm))
        have hleft : Store.Below t.index (s.chosen types choice) :=
          Store.Below.chosen h.descends (Nat.le_of_lt ht) hbelow choice
        have hlt : u.index < t.index := hleft.joined h.descends (Nat.le_of_lt ht) u hu
        exact Charted.union_ne_nil hp h henumerations (Nat.lt_trans hlt ht) hempty
      · rw [hcrosses] at hshape
        cases hshape
    · rw [hnode] at hshape
      obtain ⟨es, text, rfl, hopened⟩ := union_of_shape_nodeOf hmeet hshape
      cases hp.partType hpart with
      | union _ hne _ =>
        -- the first member has nothing in its place only if it is such a union itself
        have hlength := hparts.length
        obtain ⟨e, rest, rfl⟩ := List.exists_cons_of_ne_nil hne
        cases types with
        | nil => cases hlength
        | cons u others =>
          rw [Store.opened, List.flatMap_cons, eq_comm, List.append_eq_nil_iff] at hopened
          have hlt : u.index < t.index := hbelow u List.mem_cons_self
          refine Charted.union_ne_nil hp h henumerations (Nat.lt_trans hlt ht) ?_
          exact Store.shape_of_opened_nil hopened.1
termination_by t.index

end Project

end WireSchema
