import WireSchema.Proofs.Project.Alike
import WireSchema.Proofs.Project.Tidy
/-!
# Two stores that come from one

Two stores that have grown from one, each in its own order, agree on everything
but identities: types that were made for the same are alike, have properties that
were made for the same members, and these have types that were made for the same.
Aliases that lead to each other are the exception, unless they had their types
before, and so are interfaces that inherit from themselves.
-/

namespace WireSchema

namespace Project

/-- What is asked for first makes no difference from the store on: aliases that
lead to each other have their types, and no interface inherits from itself. -/
structure OrderFree (p : Project) (s : Store) : Prop where
  aliases : ∀ a b, a ≠ b → p.Leads a b → p.Leads b a → (s.declared? a).isSome
  interfaces : ∀ d, ¬ Relation.TransGen p.Inherits d d

/-- Both stores have grown from the first one and are tidy. -/
structure Twins (p : Project) (s₀ : Store) (c₀ : Chart) (s : Store) (c : Chart) (s' : Store) (c' : Chart) : Prop where
  base : p.Charted s₀ c₀
  first : p.Tidy (fun _ => False) s c
  second : p.Tidy (fun _ => False) s' c'
  since : Grows s₀ s c₀ c
  since' : Grows s₀ s' c₀ c'

variable {p : Project} {s₀ s s' : Store} {c₀ c c' : Chart} {t u : TypeId} {d : DeclarationId}

namespace Twins

theorem symm (h : p.Twins s₀ c₀ s c s' c') : p.Twins s₀ c₀ s' c' s c := ⟨h.base, h.second, h.first, h.since', h.since⟩

/-- An old type is the same in both stores. -/
theorem eq_of_old (h : p.Twins s₀ c₀ s c s' c') (ht : t.index < s₀.types.size) (hu : u.index < s'.types.size)
    (heq : c.origin t = c'.origin u) : t = u := by
  refine h.second.unique t u (Nat.lt_of_lt_of_le ht h.since'.size) hu ?_
  rw [← show c.types t.index = c'.types u.index from heq, h.since.origin _ ht, h.since'.origin _ ht]

theorem origin_old (h : p.Twins s₀ c₀ s c s' c') (ht : t.index < s₀.types.size) : c.origin t = c'.origin t := by
  rw [Chart.origin, Chart.origin, h.since.origin _ ht, h.since'.origin _ ht]

/-- The node of an old type is the same. -/
theorem node_old (h : p.Twins s₀ c₀ s c s' c') (ht : t.index < s₀.types.size) :
    (s.node t).Alike c.origin c'.origin (s'.node t) := by
  rw [h.since'.node t ht, ← h.since.node t ht]
  refine .refl fun u hu => h.origin_old ?_
  exact Nat.lt_trans (h.first.child_lt (Nat.lt_of_lt_of_le ht h.since.size) hu) ht

end Twins

/-! ## Types of declarations -/

theorem leads_of_target {parameters : List Text} {e : TypeExpr} (hbody : p.body? d = some (.typeAlias parameters e))
    {other : DeclarationId} (htarget : p.target? { unit := d.unit, parameters } e = some other) : p.Leads d other := by
  refine .step ⟨[], _, e, ?_, htarget⟩ (.refl other)
  rw [partType?_nil, rootType?, hbody]

/-- By induction on what was asked for in the first store: an alias for another
declaration has the type that one had already. -/
theorem Twins.entries_alike (h : p.Twins s₀ c₀ s c s' c') (hfree : p.OrderFree s₀)
    {entries : List (DeclarationId × TypeId)} (hentries : p.Entries s c entries)
    (hlookup : ∀ a v, entries.lookup a = some v → s.declared? a = some v) (ht : entries.lookup d = some t)
    (hu : s'.declared? d = some u) : c.origin t = c'.origin u := by
  induction entries generalizing d with
  | nil => cases ht
  | cons entry earlier ih =>
    obtain ⟨a, v⟩ := entry
    obtain ⟨⟨_, hnone, hentry⟩, hearlier⟩ := hentries
    have hd := hlookup d t ht
    rw [List.lookup_cons] at ht
    split at ht
    next heq =>
      cases ht
      obtain rfl : d = a := eq_of_beq heq
      cases hold : s₀.declared? d with
      | some w =>
        rw [h.since.declared d w hold] at hd
        rw [h.since'.declared d w hold] at hu
        cases hd
        cases hu
        exact h.origin_old (h.base.entries.lt hold)
      | none =>
        obtain ⟨earlier', ⟨_, _, hentry'⟩, _, hlookup'⟩ := h.second.entries.entry hu
        -- the alias would lead to the other and back
        have hcycle {parameters : List Text} {e : TypeExpr} (hbody : p.body? d = some (.typeAlias parameters e))
            {other : DeclarationId} (htarget : p.target? { unit := d.unit, parameters } e = some other) (hne : other ≠ d)
            (hleads : p.Leads other d) : False := by
          have hsome := hfree.aliases d other hne.symm (leads_of_target hbody htarget) hleads
          rw [hold] at hsome
          cases hsome
        cases hbody : p.body? d with
        | none => rw [hbody] at hentry; exact hentry.elim
        | some body =>
          rw [hbody] at hentry hentry'
          cases body with
          | interface parameters bases members => exact hentry.trans hentry'.symm
          | enumeration members => exact hentry.trans hentry'.symm
          | typeAlias parameters e =>
            rcases hentry with ⟨other, htarget, hne, hother⟩ | ⟨hleads, horigin⟩
            · rcases hentry' with ⟨other', htarget', _, hother'⟩ | ⟨hleads', _⟩
              · rw [htarget] at htarget'
                cases htarget'
                exact ih hearlier (fun b w hb => hlookup b w (lookup_cons_of_lookup hnone hb)) hother
                  (hlookup' _ _ hother')
              · exact (hcycle hbody htarget hne (hleads' other htarget)).elim
            · rcases hentry' with ⟨other', htarget', hne', _⟩ | ⟨_, horigin'⟩
              · exact (hcycle hbody htarget' hne' (hleads other' htarget')).elim
              · exact horigin.trans horigin'.symm
    · exact ih hearlier (fun b w hb => hlookup b w (lookup_cons_of_lookup hnone hb)) ht hu

/-- A declaration has types that correspond. -/
theorem Twins.declared_alike (h : p.Twins s₀ c₀ s c s' c') (hfree : p.OrderFree s₀) (ht : s.declared? d = some t)
    (hu : s'.declared? d = some u) : c.origin t = c'.origin u :=
  h.entries_alike hfree h.first.entries (fun _ _ => id) ht hu

/-! ## Types of parts -/

section
variable {root : Root} {steps choice : List Nat} {context : Context} {e : TypeExpr} {types types' : List TypeId}

/-- A part has types that correspond, inside the definition of an alias if the
alias is new. -/
theorem Twins.part_alike (h : p.Twins s₀ c₀ s c s' c') (hfree : p.OrderFree s₀)
    (hpart : p.partType? root steps = some (context, e)) (hnew : ∀ a, root = .body a → s₀.declared? a = none)
    (ht : p.Denotes s c root steps context e t) (hu : p.Denotes s' c' root steps context e u) :
    c.origin t = c'.origin u := by
  -- a name that leads back to the alias would have its type in one of the stores only
  have hcycle {d : DeclarationId} (htarget : p.target? context e = some d) (hroot : root ≠ .body d)
      (hleads : ∀ d, p.target? context e = some d → ∃ a, root = .body a ∧ p.Leads d a) : False := by
    obtain ⟨a, rfl, hback⟩ := hleads d htarget
    have hne : a ≠ d := fun heq => hroot (by rw [heq])
    have hsome := hfree.aliases a d hne (.step ⟨steps, context, e, hpart, htarget⟩ (.refl d)) hback
    rw [hnew a rfl] at hsome
    cases hsome
  cases ht with
  | declared htarget hroot hd =>
    cases hu with
    | declared htarget' _ hd' =>
      rw [htarget] at htarget'
      cases htarget'
      exact h.declared_alike hfree hd hd'
    | own hleads _ _ => exact (hcycle htarget hroot hleads).elim
  | own hleads _ horigin =>
    cases hu with
    | declared htarget hroot _ => exact (hcycle htarget hroot hleads).elim
    | own _ _ horigin' => exact horigin.trans horigin'.symm

theorem Twins.parts_alike (h : p.Twins s₀ c₀ s c s' c') (hfree : p.OrderFree s₀)
    (hpart : p.partType? root steps = some (context, e)) (hnew : ∀ a, root = .body a → s₀.declared? a = none)
    (hts : p.PartsDenote s c root steps context e.parts types)
    (hus : p.PartsDenote s' c' root steps context e.parts types') : types.map c.origin = types'.map c'.origin := by
  refine map_eq_of_getElem? (hts.length.trans hus.length.symm) fun i t u hi hi' => ?_
  have hlt : i < e.parts.length := by
    rw [← hts.length]
    exact (List.getElem?_eq_some_iff.1 hi).1
  have hi₀ := List.getElem?_eq_getElem hlt
  exact h.part_alike hfree (partType?_cons hpart hi₀) hnew (hts.each i _ _ hi₀ hi) (hus.each i _ _ hi₀ hi')

end

/-! ## Nodes -/

theorem map_fillHoles {f g : TypeId → Origin} {ts us : List TypeId} (h : ts.map f = us.map g)
    (spans : List (Span TypeExpr)) :
    (fillHoles spans ts).map (Span.map f) = (fillHoles spans us).map (Span.map g) := by
  induction spans generalizing ts us with
  | nil => rfl
  | cons span rest ih =>
    cases span with
    | chunk text => exact congrArg (Span.chunk text :: ·) (ih h)
    | hole e =>
      cases ts with
      | nil =>
        cases us with
        | nil => rfl
        | cons u us => cases h
      | cons t ts =>
        cases us with
        | nil => cases h
        | cons u us =>
          obtain ⟨hhead, htail⟩ := List.cons.inj h
          rw [fillHoles, fillHoles, List.map_cons, List.map_cons, ih htail, Span.map, Span.map, hhead]

section
variable {f g : TypeId → Origin} {n : Nat} {context : Context} {types types' : List TypeId}

/-- The node for an expression is made of types that correspond. -/
theorem nodeOf_alike (hnodes : NodesAlike s s' f g n) (hts : Store.Below n types)
    (hus : Store.Below s'.types.size types') (h : types.map f = types'.map g) (e : TypeExpr) :
    (p.nodeOf s context types e).Alike f g (p.nodeOf s' context types' e) := by
  have hleaf {node : TypeNode} (hchildren : node.shape.children = []) : node.Alike f g node :=
    .refl fun t ht => by rw [hchildren] at ht; cases ht
  cases e with
  | keyword name =>
    refine hleaf ?_
    rcases keywordShape_cases name with hshape | hshape | hshape | hshape <;> exact congrArg Shape.children hshape
  | literal text => exact hleaf rfl
  | verbatim text reason => exact hleaf rfl
  | object members text => exact hleaf rfl
  | template spans text =>
    rw [nodeOf, nodeOf]
    split
    · exact hleaf rfl
    · exact ⟨.template (map_fillHoles h spans), rfl, rfl⟩
  | array element text =>
    refine ⟨.array ?_, rfl, rfl⟩
    rw [← List.head?_map, ← List.head?_map, h]
  | tuple elements text variadic =>
    cases variadic with
    | true => exact hleaf rfl
    | false => exact ⟨.tuple h, rfl, rfl⟩
  | union members text =>
    exact ⟨.union (Store.opened_alike hnodes (fun _ _ => TypeNode.Alike.anonymousUnion) hts hus h), rfl, rfl⟩
  | intersection members text => exact ⟨.intersection h, rfl, rfl⟩
  | reference name arguments text =>
    rw [nodeOf, nodeOf]
    split
    · exact hleaf rfl
    · exact ⟨.instantiation h, rfl, rfl⟩

end

section
variable {root : Root} {steps choice : List Nat} {types types' : List TypeId}

/-- The node of an intersection after choices is made of types that correspond. -/
theorem crosses_alike (h : p.Charted s c) (h' : p.Charted s' c')
    (hnodes : NodesAlike s s' c.origin c'.origin t.index) (ht : t.index < s.types.size) (hu : u.index < s'.types.size)
    (hts : Store.Below t.index types) (hus : Store.Below u.index types') (heq : types.map c.origin = types'.map c'.origin)
    (hcross : Crosses s c root steps choice types t) (hcross' : Crosses s' c' root steps choice types' u) :
    (s.node t).Alike c.origin c'.origin (s'.node u) := by
  have hn := Nat.le_of_lt ht
  have hus' : Store.Below s'.types.size types' := fun v hv => Nat.lt_trans (hus v hv) hu
  have hleft := hts.chosen h.descends hn choice
  have hleft' := hus'.chosen h'.descends (Nat.le_refl _) choice
  have hchosen := Store.chosen_alike hnodes h.descends h'.descends hn hts hus' heq choice
  have hjoined := Store.joined_alike hnodes hleft hleft' hchosen
  have hany := Store.anyUnion_alike hnodes (hleft.joined h.descends hn) (hleft'.joined h'.descends (Nat.le_refl _)) hjoined
  simp only [Crosses] at hcross hcross'
  -- both runs distribute or neither does, since they chose alike
  cases hunion : s.anyUnion (s.joined (s.chosen types choice)) with
  | true =>
    rw [hunion, if_pos rfl] at hcross
    rw [← hany, hunion, if_pos rfl] at hcross'
    obtain ⟨variants, hnode, hlength, heach⟩ := hcross
    obtain ⟨variants', hnode', hlength', heach'⟩ := hcross'
    have hcount : variants.length = variants'.length := by
      have hchoices := congrArg List.length
        (congrArg choices (Store.options_alike hnodes h.descends h'.descends hn hleft hleft' hchosen))
      simp only [choices_map, List.length_map] at hchoices
      rw [hlength, hlength', hchoices]
    have hvariants : variants.map c.origin = variants'.map c'.origin :=
      map_eq_of_getElem? hcount fun i v v' hi hi' => (heach i v hi).2.trans (heach' i v' hi').2.symm
    have hbelow : Store.Below t.index variants := by
      intro v hv
      obtain ⟨i, hi⟩ := List.getElem?_of_mem hv
      exact (heach i v hi).1
    have hbelow' : Store.Below s'.types.size variants' := by
      intro v hv
      obtain ⟨i, hi⟩ := List.getElem?_of_mem hv
      exact Nat.lt_trans (heach' i v hi).1 hu
    rw [hnode, hnode']
    exact ⟨.union hvariants, Store.texts_alike hnodes _ hbelow hbelow' hvariants, rfl⟩
  | false =>
    rw [hunion, if_neg Bool.false_ne_true] at hcross
    rw [← hany, hunion, if_neg Bool.false_ne_true] at hcross'
    rw [hcross, hcross']
    exact ⟨.intersection hjoined, Store.texts_alike hnodes _ (hleft.joined h.descends hn)
      (hleft'.joined h'.descends (Nat.le_refl _)) hjoined, rfl⟩

end

/-- The nodes of a declaration are alike. -/
theorem declarationNode_alike (h : p.DeclarationNode s c d t) (h' : p.DeclarationNode s' c' d u) :
    (s.node t).Alike c.origin c'.origin (s'.node u) := by
  obtain ⟨declaration, hd, hnode⟩ := h
  obtain ⟨declaration', hd', hnode'⟩ := h'
  rw [hd] at hd'
  cases hd'
  cases hkind : declaration.body with
  | interface parameters bases members =>
    rw [hkind] at hnode hnode'
    rw [hnode, hnode']
    exact ⟨.object, rfl, rfl⟩
  | typeAlias parameters e => rw [hkind] at hnode; exact hnode.elim
  | enumeration members =>
    rw [hkind] at hnode hnode'
    obtain ⟨values, hnode, hlength, heach⟩ := hnode
    obtain ⟨values', hnode', hlength', heach'⟩ := hnode'
    have hvalues : values.map c.origin = values'.map c'.origin :=
      map_eq_of_getElem? (hlength.trans hlength'.symm) fun i v v' hi hi' => (heach i v hi).2.trans (heach' i v' hi').2.symm
    rw [hnode, hnode']
    exact ⟨.union hvalues, rfl, rfl⟩

/-- The nodes of a member of an enumeration are alike. -/
theorem valueNode_alike {i : Nat} (h : p.ValueNode s d i t) (h' : p.ValueNode s' d i u) :
    (s.node t).Alike c.origin c'.origin (s'.node u) := by
  obtain ⟨declaration, members, m, hd, hbody, hm, hnode⟩ := h
  obtain ⟨declaration', members', m', hd', hbody', hm', hnode'⟩ := h'
  rw [hd] at hd'
  cases hd'
  rw [hbody] at hbody'
  cases hbody'
  rw [hm] at hm'
  cases hm'
  rw [hnode, hnode']
  exact ⟨.other, rfl, rfl⟩

/-- The nodes of a part are alike, inside the definition of an alias if the alias
is new. -/
theorem Twins.partNode_alike (h : p.Twins s₀ c₀ s c s' c') (hfree : p.OrderFree s₀)
    (hnodes : NodesAlike s s' c.origin c'.origin t.index) (ht : t.index < s.types.size) (hu : u.index < s'.types.size)
    {root : Root} {steps choice : List Nat} (hnew : ∀ a, root = .body a → s₀.declared? a = none)
    (hpart : p.PartNode s c root steps choice t) (hpart' : p.PartNode s' c' root steps choice u) :
    (s.node t).Alike c.origin c'.origin (s'.node u) := by
  obtain ⟨context, e, types, htype, hparts, hbelow, hkind⟩ := hpart.cases
  obtain ⟨context', e', types', htype', hparts', hbelow', hkind'⟩ := hpart'.cases
  rw [htype] at htype'
  cases htype'
  have heq := h.parts_alike hfree htype hnew hparts hparts'
  rcases hkind with ⟨es, text, rfl, hcrosses⟩ | ⟨hmeet, hnode⟩
  · rcases hkind' with ⟨_, _, _, hcrosses'⟩ | ⟨hmeet', _⟩
    · exact crosses_alike h.first.toCharted h.second.toCharted hnodes ht hu hbelow hbelow' heq hcrosses hcrosses'
    · cases hmeet'
  · rcases hkind' with ⟨_, _, rfl, _⟩ | ⟨_, hnode'⟩
    · cases hmeet
    · rw [hnode, hnode']
      exact nodeOf_alike hnodes hbelow (fun v hv => Nat.lt_trans (hbelow' v hv) hu) heq e

/-- Types that were made for the same have nodes that are alike. -/
theorem Twins.nodesAlike (h : p.Twins s₀ c₀ s c s' c') (hfree : p.OrderFree s₀) (n : Nat) (hn : n ≤ s.types.size) :
    NodesAlike s s' c.origin c'.origin n := by
  induction n with
  | zero => exact fun t u ht => absurd ht (Nat.not_lt_zero _)
  | succ n ih =>
    intro t u hlt hu heq
    have ht : t.index < s.types.size := Nat.lt_of_lt_of_le hlt hn
    by_cases hold : t.index < s₀.types.size
    · rw [← h.eq_of_old hold hu heq]
      exact h.node_old hold
    by_cases hold' : u.index < s₀.types.size
    · rw [← h.symm.eq_of_old hold' ht heq.symm]
      exact (h.symm.node_old hold').symm
    -- both are new, and so are their declarations
    have hbelow : NodesAlike s s' c.origin c'.origin t.index :=
      fun v w hv => ih (Nat.le_of_succ_le hn) v w (Nat.lt_of_lt_of_le hv (Nat.le_of_lt_succ hlt))
    have hnode := h.first.nodes t ht
    have hnode' := h.second.nodes u hu
    rw [NodeOk] at hnode hnode'
    rw [← show c.types t.index = c'.types u.index from heq] at hnode'
    cases horigin : c.types t.index with
    | declaration d =>
      rw [horigin] at hnode hnode'
      exact declarationNode_alike hnode hnode'
    | value d i =>
      rw [horigin] at hnode hnode'
      exact valueNode_alike hnode hnode'
    | part root steps choice =>
      rw [horigin] at hnode hnode'
      refine h.partNode_alike hfree hbelow ht hu (fun a ha => ?_) hnode hnode'
      refine h.since.fresh t a (Nat.le_of_not_lt hold) ht ?_
      rw [horigin, ha]
      rfl

/-- The types have nodes that are alike if they were made for the same. -/
theorem Twins.node_alike (h : p.Twins s₀ c₀ s c s' c') (hfree : p.OrderFree s₀) (ht : t.index < s.types.size)
    (hu : u.index < s'.types.size) (heq : c.origin t = c'.origin u) : (s.node t).Alike c.origin c'.origin (s'.node u) :=
  h.nodesAlike hfree _ (Nat.le_refl _) t u ht hu heq

end Project

end WireSchema

/-!
## Properties of two stores that come from one

Types that were made for the same have properties that were made for the same
members, in the same order, once they are listed; and the types of these
properties were made for the same, once they are found.
-/

namespace WireSchema

namespace Project

variable {p : Project} {s₀ s s' : Store} {c₀ c c' : Chart} {t u : TypeId} {q q' : PropertyId} {d : DeclarationId}

/-! ### One property -/

/-- Properties that were made for the same member have all in common but what is
known of their types. -/
theorem Charted.property_alike (h : p.Charted s c) (h' : p.Charted s' c') (hq : q.index < s.properties.size)
    (hq' : q'.index < s'.properties.size) (heq : c.member q = c'.member q') :
    ∃ (m : Property TypeExpr) (r r' : Resolution), s.property? q = some { m with type := r } ∧
      s'.property? q' = some { m with type := r' } := by
  obtain ⟨context, m, r, hmember, hrecord, _⟩ := h.properties q hq
  obtain ⟨context', m', r', hmember', hrecord', _⟩ := h'.properties q' hq'
  rw [← show c.properties q.index = c'.properties q'.index from heq, hmember] at hmember'
  cases hmember'
  exact ⟨m, r, r', hrecord, hrecord'⟩

theorem Charted.name_alike (h : p.Charted s c) (h' : p.Charted s' c') (hq : q.index < s.properties.size)
    (hq' : q'.index < s'.properties.size) (heq : c.member q = c'.member q') : s.propertyName q = s'.propertyName q' := by
  obtain ⟨m, r, r', hr, hr'⟩ := h.property_alike h' hq hq' heq
  rw [Store.propertyName, Store.propertyName, hr, hr']
  rfl

/-- The types of properties that were made for the same member correspond. -/
theorem Twins.type_alike (h : p.Twins s₀ c₀ s c s' c') (hfree : p.OrderFree s₀) {r r' : Property Resolution}
    (hr : s.property? q = some r) (hdone : r.type = .done t) (hr' : s'.property? q' = some r')
    (hdone' : r'.type = .done u) (heq : c.member q = c'.member q') : c.origin t = c'.origin u := by
  obtain ⟨context, m, hmember, hdenotes⟩ := h.first.type_denotes hr hdone
  obtain ⟨context', m', hmember', hdenotes'⟩ := h.second.type_denotes hr' hdone'
  rw [← show c.properties q.index = c'.properties q'.index from heq] at hmember' hdenotes'
  rw [hmember] at hmember'
  cases hmember'
  exact h.part_alike hfree (partType?_member hmember) (fun a ha => by cases ha) hdenotes hdenotes'

/-! ### Lists of properties -/

/-- Which properties have new names depends on their names alone. -/
theorem withNewNames_alike {R : PropertyId → PropertyId → Prop} {ids ids' : List PropertyId} (h : List.Forall₂ R ids ids')
    (hnames : ∀ q q', R q q' → s.propertyName q = s'.propertyName q') (names : List Text) :
    List.Forall₂ R (withNewNames s names ids) (withNewNames s' names ids') := by
  induction h generalizing names with
  | nil => exact .nil
  | @cons q q' ids ids' hhead _ ih =>
    rw [withNewNames, withNewNames, hnames q q' hhead]
    split
    · exact ih names
    · exact .cons hhead (ih _)

/-- Members of the same owner, in order. -/
theorem placed_alike {o : Origin} {own own' : List PropertyId} (hlength : own.length = own'.length)
    (hown : ∀ (k : Nat) (q : PropertyId), own[k]? = some q → c.properties q.index = (o, k))
    (hown' : ∀ (k : Nat) (q : PropertyId), own'[k]? = some q → c'.properties q.index = (o, k)) :
    own.map c.member = own'.map c'.member :=
  map_eq_of_getElem? hlength fun i q q' hi hi' => (hown i q hi).trans (hown' i q' hi').symm

theorem Placed.places {o : Origin} {n : Nat} {ids : List PropertyId} (h : Placed o 0 n ids s c) (k : Nat)
    (q : PropertyId) (hk : ids[k]? = some q) : c.properties q.index = (o, k) := by
  rw [(h.2 k q hk).2, Nat.zero_add]

/-- Lists of properties correspond if those of each type do. -/
theorem listings_alike {types types' : List TypeId} {lists lists' : List (List PropertyId)}
    (htypes : types.map c.origin = types'.map c'.origin) (hlists : Listings s types lists)
    (hlists' : Listings s' types' lists')
    (hstep : ∀ t ∈ types, ∀ u ∈ types', c.origin t = c'.origin u → ∀ ids ids', (s.cell t).properties = .listed ids →
      (s'.cell u).properties = .listed ids' → ids.map c.member = ids'.map c'.member) :
    lists.flatten.map c.member = lists'.flatten.map c'.member := by
  have hcount : types.length = types'.length := by
    have hlength := congrArg List.length htypes
    rwa [List.length_map, List.length_map] at hlength
  rw [List.map_flatten, List.map_flatten]
  congr 1
  refine map_eq_of_getElem? (by rw [hlists.length, hlists'.length, hcount]) fun i ids ids' hi hi' => ?_
  have ht : i < types.length := by
    rw [← hlists.length]
    exact (List.getElem?_eq_some_iff.1 hi).1
  have hu : i < types'.length := hcount ▸ ht
  refine hstep types[i] (List.getElem_mem ht) types'[i] (List.getElem_mem hu) ?_ _ _
    (hlists.each i _ _ (List.getElem?_eq_getElem ht) hi) (hlists'.each i _ _ (List.getElem?_eq_getElem hu) hi')
  have hmapped := List.getElem_of_eq htypes (by rwa [List.length_map])
  rwa [List.getElem_map, List.getElem_map] at hmapped

theorem Twins.sources_alike (h : p.Twins s₀ c₀ s c s' c') (hfree : p.OrderFree s₀) (ht : t.index < s.types.size)
    (hu : u.index < s'.types.size) (heq : c.origin t = c'.origin u) :
    (s.sources t).map c.origin = (s'.sources u).map c'.origin := by
  have hmembers := (h.node_alike hfree ht hu heq).intersectionMembers
  rw [Store.sources, Store.sources]
  cases hn : Shape.intersectionMembers? (s.node t) with
  | none =>
    cases hm : Shape.intersectionMembers? (s'.node u) with
    | none => exact congrArg (fun a => [a]) heq
    | some ms => rw [hn, hm] at hmembers; cases hmembers
  | some ns =>
    cases hm : Shape.intersectionMembers? (s'.node u) with
    | none => rw [hn, hm] at hmembers; cases hmembers
    | some ms =>
      rw [hn, hm] at hmembers
      exact Option.some.inj hmembers

/-- What an interface has from a base corresponds if what it is found in does. -/
theorem Twins.base_alike (h : p.Twins s₀ c₀ s c s' c') (hfree : p.OrderFree s₀) {base : Base}
    {ids ids' : List PropertyId} (hbase : p.BaseListed s d base ids) (hbase' : p.BaseListed s' d base ids')
    (hstep : ∀ target t u, p.lookup? d.unit base.name = some target → s.declared? target = some t →
      s'.declared? target = some u → ∀ v ∈ s.sources t, ∀ w ∈ s'.sources u, c.origin v = c'.origin w →
      ∀ ids ids', (s.cell v).properties = .listed ids → (s'.cell w).properties = .listed ids' →
        ids.map c.member = ids'.map c'.member) : ids.map c.member = ids'.map c'.member := by
  unfold BaseListed at hbase hbase'
  cases hlookup : p.lookup? d.unit base.name with
  | none =>
    rw [hlookup] at hbase hbase'
    rw [show ids = [] from hbase, show ids' = [] from hbase']
    rfl
  | some target =>
    rw [hlookup] at hbase hbase'
    obtain ⟨t, lists, ht, hlists, rfl⟩ := hbase
    obtain ⟨u, lists', hu, hlists', rfl⟩ := hbase'
    have hsources := h.sources_alike hfree (h.first.entries.lt ht) (h.second.entries.lt hu) (h.declared_alike hfree ht hu)
    exact listings_alike hsources hlists hlists' (hstep target t u hlookup ht hu)

/-- Of declarations only interfaces have members. -/
theorem isInterface_of_membersOf? {found : Context × List (Property TypeExpr)}
    (h : p.membersOf? (.declaration d) = some found) : p.IsInterface d := by
  rw [membersOf?] at h
  cases hbody : p.body? d with
  | none => rw [hbody] at h; cases h
  | some body =>
    rw [hbody] at h
    cases body with
    | typeAlias => cases h
    | enumeration => cases h
    | interface parameters bases members => exact ⟨parameters, bases, members, hbody⟩

/-- The properties of an interface correspond if what it has from each base does. -/
theorem Twins.interface_alike (h : p.Twins s₀ c₀ s c s' c') {parameters : List Text} {bases : List Base}
    {members : List (Property TypeExpr)} (hbody : p.body? d = some (.interface parameters bases members))
    {ids ids' : List PropertyId} (hlisted : p.InterfaceListed s c d ids) (hlisted' : p.InterfaceListed s' c' d ids')
    (hbases : ∀ base ∈ bases, ∀ l l', p.BaseListed s d base l → p.BaseListed s' d base l' →
      l.map c.member = l'.map c'.member) : ids.map c.member = ids'.map c'.member := by
  obtain ⟨own, found, hown, hlength, heach, heq⟩ := hlisted _ _ _ hbody
  obtain ⟨own', found', hown', hlength', heach', heq'⟩ := hlisted' _ _ _ hbody
  have hmine := placed_alike (hown.1.trans hown'.1.symm) hown.places hown'.places
  have hfound : found.flatten.map c.member = found'.flatten.map c'.member := by
    rw [List.map_flatten, List.map_flatten]
    congr 1
    refine map_eq_of_getElem? (hlength.trans hlength'.symm) fun i l l' hi hi' => ?_
    have hi₀ : i < bases.length := by
      rw [← hlength]
      exact (List.getElem?_eq_some_iff.1 hi).1
    have hbase := List.getElem?_eq_getElem hi₀
    exact hbases _ (List.getElem_mem hi₀) _ _ (heach i _ _ hbase hi) (heach' i _ _ hbase hi')
  have hnames : own.map s.propertyName = own'.map s'.propertyName :=
    map_eq_of_map_eq hmine fun q hq q' hq' heq =>
      h.first.name_alike h.second.toCharted (hown.mem_lt hq) (hown'.mem_lt hq') heq
  have hnew := withNewNames_alike (forall₂_of_map_eq hfound fun q hq q' hq' heq =>
    show c.member q = c'.member q' ∧ s.propertyName q = s'.propertyName q' from
      ⟨heq, h.first.name_alike h.second.toCharted (mem_of_bases hlength heach h.first.toCharted hq)
        (mem_of_bases hlength' heach' h.second.toCharted hq') heq⟩)
    (fun q q' hsame => hsame.2) (own'.map s'.propertyName)
  rw [heq, heq', List.map_append, List.map_append, hmine, hnames]
  congr 1
  exact map_eq_of_forall₂ hnew fun q q' hsame => hsame.1

/-- By induction on the interfaces that may still come: those that came before
inherit from the type. -/
theorem Twins.listed_alike (h : p.Twins s₀ c₀ s c s' c') (hfree : p.OrderFree s₀) (idle : List DeclarationId)
    {t u : TypeId} (ht : t.index < s.types.size) (hu : u.index < s'.types.size) (heq : c.origin t = c'.origin u)
    {ids ids' : List PropertyId} (hlisted : (s.cell t).properties = .listed ids)
    (hlisted' : (s'.cell u).properties = .listed ids')
    (hbehind : ∀ b d, p.IsInterface b → b ∉ idle → c.origin t = .declaration d → Relation.TransGen p.Inherits b d) :
    ids.map c.member = ids'.map c'.member := by
  have horigin : c.types t.index = c'.types u.index := heq
  by_cases hinterface : ∃ d, c.types t.index = .declaration d ∧ p.IsInterface d
  · obtain ⟨d, hd, parameters, bases, members, hbody⟩ := hinterface
    -- the interface is not its own base, so the search has not entered it
    have hidle : d ∈ idle := by
      by_cases hidle : d ∈ idle
      · exact hidle
      · exact absurd (hbehind d d ⟨_, _, _, hbody⟩ hidle hd) (hfree.interfaces d)
    refine h.interface_alike hbody (h.first.inherited t d _ ht hd hlisted)
      (h.second.inherited u d _ hu (horigin.symm.trans hd) hlisted') fun base hmem l l' hl hl' => ?_
    refine h.base_alike hfree hl hl' fun target t₁ u₁ hlookup ht₁ hu₁ v hv w hw hvw l l' hl hl' => ?_
    refine h.listed_alike hfree (idle.erase d) (h.first.source_lt (h.first.entries.lt ht₁) hv)
      (h.second.source_lt (h.second.entries.lt hu₁) hw) hvw hl hl' fun b d' hb hout hd' => ?_
    have hinherits : p.Inherits d d' :=
      ⟨_, _, _, _, target, hbody, hmem, hlookup, h.first.gives_of_source ht₁ hv hd'⟩
    by_cases hbd : b = d
    · rw [hbd]
      exact .single hinherits
    · exact (hbehind b d hb (fun hmem => hout ((List.mem_erase_of_ne hbd).2 hmem)) hd).tail hinherits
  · -- any other type has only its own members
    have hlists := h.first.listings t ht
    have hlists' := h.second.listings u hu
    rw [ListingOk, hlisted] at hlists
    rw [ListingOk, hlisted', ← horigin] at hlists'
    obtain ⟨_, hlists⟩ := hlists
    obtain ⟨_, hlists'⟩ := hlists'
    cases hmembers : p.membersOf? (c.types t.index) with
    | none =>
      rw [hmembers] at hlists hlists'
      rw [show ids = [] from hlists, show ids' = [] from hlists']
      rfl
    | some found =>
      rw [hmembers] at hlists hlists'
      obtain ⟨own, others, rfl, hlength, hown, hothers⟩ := hlists
      obtain ⟨own', others', rfl, hlength', hown', hothers'⟩ := hlists'
      cases hd : c.types t.index with
      | declaration d =>
        rw [hd] at hmembers
        exact absurd ⟨d, hd, isInterface_of_membersOf? hmembers⟩ hinterface
      | value d i => rw [hd] at hmembers; cases hmembers
      | part root steps choice =>
        rw [hd] at hothers hothers'
        rw [show others = [] from hothers, show others' = [] from hothers', List.append_nil, List.append_nil]
        exact placed_alike (hlength.trans hlength'.symm) hown hown'
termination_by idle.length
decreasing_by
  have := List.length_erase_of_mem hidle
  have := List.length_pos_of_mem hidle
  omega

end Project

end WireSchema
