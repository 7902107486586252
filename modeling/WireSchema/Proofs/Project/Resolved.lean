import WireSchema.Proofs.Project.Adds
/-!
# What resolving makes

Resolving a part of a type makes a node for it and for its parts, unless it
names a declaration, and the types of the declarations that are named in it.
An alias that is met again inside its own definition is not closed; what was
entered since then leads back to it.
-/

namespace WireSchema.Project

open Resolving

variable {p : Project}

/-! ## Types of declarations -/

section
variable {s : Store} {c : Chart}

theorem Entries.lt {entries : List (DeclarationId × TypeId)} (h : p.Entries s c entries) {d : DeclarationId}
    {id : TypeId} (hd : entries.lookup d = some id) : id.index < s.types.size := by
  induction entries with
  | nil => cases hd
  | cons entry earlier ih =>
    obtain ⟨d', id'⟩ := entry
    obtain ⟨hentry, hearlier⟩ := h
    rw [List.lookup_cons] at hd
    split at hd
    · cases hd
      exact hentry.1
    · exact ih hearlier hd

/-- What was known earlier is known with one more declaration. -/
theorem lookup_cons_of_lookup {d : DeclarationId} {id : TypeId} {earlier : List (DeclarationId × TypeId)}
    (hnone : earlier.lookup d = none) {a : DeclarationId} {t : TypeId} (ha : earlier.lookup a = some t) :
    ((d, id) :: earlier).lookup a = some t := by
  rw [List.lookup_cons]
  split
  next heq =>
    rw [eq_of_beq heq, hnone] at ha
    cases ha
  · exact ha

/-- The declaration was looked up when those before it were known. -/
theorem Entries.entry {entries : List (DeclarationId × TypeId)} (h : p.Entries s c entries) {d : DeclarationId}
    {id : TypeId} (hd : entries.lookup d = some id) :
    ∃ earlier, p.Entry s c earlier d id ∧ p.Entries s c earlier ∧
      ∀ a t, earlier.lookup a = some t → entries.lookup a = some t := by
  induction entries with
  | nil => cases hd
  | cons entry earlier ih =>
    obtain ⟨d', id'⟩ := entry
    obtain ⟨hentry, hearlier⟩ := h
    rw [List.lookup_cons] at hd
    split at hd
    next heq =>
      cases hd
      exact ⟨earlier, eq_of_beq heq ▸ hentry, hearlier, fun _ _ => lookup_cons_of_lookup hentry.2.1⟩
    · obtain ⟨before, hbefore, hentries, hlookup⟩ := ih hearlier hd
      exact ⟨before, hbefore, hentries, fun a t ha => lookup_cons_of_lookup hentry.2.1 (hlookup a t ha)⟩

/-- The members of the type of a declaration are the declaration's. -/
theorem Entries.has {entries : List (DeclarationId × TypeId)} (h : p.Entries s c entries) {d : DeclarationId}
    {id : TypeId} (hd : entries.lookup d = some id) {context : Context} {m : Property TypeExpr}
    (hm : p.OriginHas (c.types id.index) context m) : p.DeclaresMember d context m := by
  induction entries generalizing d with
  | nil => cases hd
  | cons entry earlier ih =>
    obtain ⟨d', id'⟩ := entry
    obtain ⟨⟨_, _, hentry⟩, hearlier⟩ := h
    rw [List.lookup_cons] at hd
    split at hd
    next heq =>
      cases hd
      obtain rfl : d = d' := eq_of_beq heq
      cases hbody : p.body? d with
      | none => rw [hbody] at hentry; exact hentry.elim
      | some body =>
        rw [hbody] at hentry
        cases body with
        | typeAlias parameters e =>
          rcases hentry with ⟨other, htarget, _, hother⟩ | ⟨_, horigin⟩
          · exact .aliased hbody (.named htarget (ih hearlier hother))
          · rw [horigin] at hm
            obtain ⟨context', e', hpart, hm⟩ := hm
            rw [partType?_nil, rootType?, hbody] at hpart
            cases hpart
            exact .aliased hbody hm
        | interface parameters bases members => rw [show c.types id.index = _ from hentry] at hm; exact hm
        | enumeration members => rw [show c.types id.index = _ from hentry] at hm; exact hm
    · exact ih hearlier hd

/-- A declaration's own node, or that of the definition of an alias. -/
def IsWhole (o : Origin) : Prop := ∃ d, o = .declaration d ∨ o = .part (.body d) [] []

theorem Entries.isWhole {entries : List (DeclarationId × TypeId)} (h : p.Entries s c entries)
    {d : DeclarationId} {id : TypeId} (hd : entries.lookup d = some id) : IsWhole (c.types id.index) := by
  induction entries generalizing d with
  | nil => cases hd
  | cons entry earlier ih =>
    obtain ⟨d', id'⟩ := entry
    obtain ⟨⟨_, _, hentry⟩, hearlier⟩ := h
    rw [List.lookup_cons] at hd
    split at hd
    · cases hd
      cases hbody : p.body? d' with
      | none => rw [hbody] at hentry; exact hentry.elim
      | some body =>
        rw [hbody] at hentry
        cases body with
        | typeAlias parameters e =>
          rcases hentry with ⟨other, _, _, hother⟩ | ⟨_, horigin⟩
          · exact ih hearlier hother
          · exact ⟨d', .inr horigin⟩
        | interface parameters bases members => exact ⟨d', .inl hentry⟩
        | enumeration members => exact ⟨d', .inl hentry⟩
    · exact ih hearlier hd

section
variable {root : Root} {steps : List Nat} {context : Context} {e : TypeExpr} {t : TypeId}

theorem Denotes.lt (h : p.Charted s c) (ht : p.Denotes s c root steps context e t) :
    t.index < s.types.size := by
  cases ht with
  | declared _ _ hd => exact h.entries.lt hd
  | own _ hlt _ => exact hlt

theorem Denotes.has (h : p.Charted s c) (hpart : p.partType? root steps = some (context, e))
    (ht : p.Denotes s c root steps context e t) {context' : Context} {m : Property TypeExpr}
    (hm : p.OriginHas (c.types t.index) context' m) : p.HasMember context e context' m := by
  cases ht with
  | declared htarget _ hd => exact .named htarget (h.entries.has hd hm)
  | own _ _ horigin =>
    rw [horigin] at hm
    obtain ⟨context'', e', hpart', hm⟩ := hm
    rw [hpart] at hpart'
    cases hpart'
    exact hm

end

end

/-! ## One part -/

/-- The cell for an expression that is no intersection. -/
def cellOf (p : Project) (s : Store) (context : Context) (types : List TypeId) (e : TypeExpr) : TypeCell where
  node := p.nodeOf s context types e
  properties :=
    match e with
    | .object members _ => .ofMembers context members
    | _ => .listed []

/-- The expression is an intersection. -/
def isMeet : TypeExpr → Bool
  | .intersection _ _ => true
  | _ => false

theorem keywordShape_cases (name : Text) :
    keywordShape name = .string ∨ keywordShape name = .number ∨ keywordShape name = .boolean ∨
      keywordShape name = .other := by
  unfold keywordShape
  split
  · exact .inl rfl
  split
  · exact .inr (.inl rfl)
  split
  · exact .inr (.inr (.inl rfl))
  · exact .inr (.inr (.inr rfl))

theorem members_nodeOf (s : Store) (context : Context) (types : List TypeId) {e : TypeExpr} (h : isMeet e = false) :
    (p.nodeOf s context types e).members = [] ∨
      ∃ es text, e = .union es text ∧
        (p.nodeOf s context types e).members = s.opened Shape.anonymousUnion? types := by
  cases e with
  | keyword name =>
    left
    rw [nodeOf]
    rcases keywordShape_cases name with h | h | h | h <;> rw [h] <;> rfl
  | intersection => cases h
  | union es text => exact .inr ⟨es, text, rfl, rfl⟩
  | template spans text =>
    left
    rw [nodeOf]
    split <;> rfl
  | tuple es text variadic => cases variadic <;> exact .inl rfl
  | reference name arguments text =>
    left
    rw [nodeOf]
    split <;> rfl
  | _ => exact .inl rfl

theorem intersectionMembers?_nodeOf {s : Store} {context : Context} {types : List TypeId} {e : TypeExpr}
    (h : isMeet e = false) : Shape.intersectionMembers? (p.nodeOf s context types e) = none := by
  cases e with
  | keyword name =>
    rw [nodeOf]
    rcases keywordShape_cases name with h | h | h | h <;> rw [h] <;> rfl
  | intersection => cases h
  | template spans text => rw [nodeOf]; split <;> rfl
  | tuple es text variadic => cases variadic <;> rfl
  | reference name arguments text => rw [nodeOf]; split <;> rfl
  | _ => rfl

section
variable {s : Store} {c : Chart} {root : Root} {steps : List Nat} {context : Context} {e : TypeExpr}
  {types : List TypeId}

/-- The node of an intersection is made by choices, and any other is that of its
expression. -/
theorem PartNode.cases {choice : List Nat} {id : TypeId} (h : p.PartNode s c root steps choice id) :
    ∃ context e types, p.partType? root steps = some (context, e) ∧
      p.PartsDenote s c root steps context e.parts types ∧ (∀ t ∈ types, t.index < id.index) ∧
      ((∃ es text, e = .intersection es text ∧ Crosses s c root steps choice types id) ∨
        (isMeet e = false ∧ s.node id = p.nodeOf s context types e)) := by
  obtain ⟨context, e, types, hpart, hparts, hbelow, hnode⟩ := h
  refine ⟨context, e, types, hpart, hparts, hbelow, ?_⟩
  cases e with
  | intersection es text => exact .inl ⟨es, text, rfl, hnode⟩
  | _ => exact .inr ⟨rfl, hnode.2⟩

theorem membersOf?_part (hpart : p.partType? root steps = some (context, e)) (choice : List Nat) :
    p.membersOf? (.part root steps choice) =
      match e with
      | .object members _ => some (context, members)
      | _ => none := by
  obtain ⟨whole, hroot, hat⟩ := partType?_eq_some.1 hpart
  rw [membersOf?, hroot]
  simp only [hat]
  cases e <;> rfl

theorem PartsDenote.below (h : p.Charted s c) {es : List TypeExpr} (hparts : p.PartsDenote s c root steps context es types) :
    Store.Below s.types.size types := by
  intro t ht
  obtain ⟨i, part, hpart, hi⟩ := exists_getElem?_of_mem hparts.length ht
  exact (hparts.each i part t hpart hi).lt h

/-- What a part has that is among the parts of the type. -/
theorem PartsDenote.has (h : p.Charted s c) (hpart : p.partType? root steps = some (context, e))
    (hparts : p.PartsDenote s c root steps context e.parts types) {t : TypeId} (ht : t ∈ types)
    {context' : Context} {m : Property TypeExpr} (hm : p.OriginHas (c.types t.index) context' m) :
    ∃ part ∈ e.parts, p.HasMember context part context' m := by
  obtain ⟨i, part, hpart', hi⟩ := exists_getElem?_of_mem hparts.length ht
  exact ⟨part, List.mem_of_getElem? hpart', (hparts.each i part t hpart' hi).has h (partType?_cons hpart hpart') hm⟩

theorem fits_cellOf (h : p.Charted s c) (hmeet : isMeet e = false)
    (hpart : p.partType? root steps = some (context, e))
    (hparts : p.PartsDenote s c root steps context e.parts types) :
    p.Fits s c (p.cellOf s context types e) (.part root steps []) := by
  have hbelow := hparts.below h
  have hext := extends_added s c (p.cellOf s context types e) (.part root steps [])
  have hsame : ∀ t ∈ types, (s.added (p.cellOf s context types e)).node t = s.node t :=
    fun t ht => Store.node_added (hbelow t ht)
  refine ⟨?node, fun t ht => ?below, fun ts hts => ?joined, fun t ht context' m hm => ?has, ?listing, fun ids hlisted => ?unlisted⟩
  case node =>
    rw [NodeOk, Chart.put_self]
    refine ⟨context, e, types, hpart, hparts.mono hext, hbelow, ?_⟩
    have hnode : (p.cellOf s context types e).node = p.nodeOf (s.added (p.cellOf s context types e)) context types e :=
      (nodeOf_congr hsame e).symm
    rw [Store.node_added_self, hnode]
    cases e with
    | intersection => cases hmeet
    | _ => exact ⟨rfl, rfl⟩
  case below =>
    change t ∈ (p.nodeOf s context types e).members at ht
    rcases members_nodeOf (p := p) s context types hmeet with hnil | ⟨es, text, rfl, hmembers⟩
    · rw [hnil] at ht
      cases ht
    · rw [hmembers] at ht
      exact hbelow.opened h.descends (fun _ _ => Shape.anonymousUnion?_eq) (Nat.le_refl _) t ht
  case joined =>
    rw [show Shape.intersectionMembers? (p.cellOf s context types e).node = none from
      intersectionMembers?_nodeOf hmeet] at hts
    cases hts
  case has =>
    change t ∈ (p.nodeOf s context types e).members at ht
    rcases members_nodeOf (p := p) s context types hmeet with hnil | ⟨es, text, rfl, hmembers⟩
    · rw [hnil] at ht
      cases ht
    · rw [hmembers] at ht
      -- a member of the union is a part or a member of one
      have hfound : ∃ u ∈ types, p.OriginHas (c.types u.index) context' m := by
        rcases Store.mem_opened (fun _ _ => Shape.anonymousUnion?_eq) ht with ⟨ht, _⟩ | ⟨u, hu, ht, _⟩
        · exact ⟨t, ht, hm⟩
        · exact ⟨u, hu, h.has u (hbelow u hu) t ht context' m hm⟩
      obtain ⟨u, hu, hm⟩ := hfound
      obtain ⟨part, hmem, hm⟩ := hparts.has h hpart hu hm
      exact ⟨context, _, hpart, .union hmem hm⟩
  case listing =>
    rw [ListingOk, Store.cell_added_self, Chart.put_self]
    cases e with
    | object members text =>
      exact ⟨membersOf?_part hpart [], fun d heq => nomatch heq⟩
    | _ =>
      refine ⟨List.forall_mem_nil _, ?_⟩
      rw [membersOf?_part hpart []]
  case unlisted =>
    rw [membersOf?_part hpart []]
    cases e with
    | object members text => cases hlisted
    | _ => rfl

end

/-! ## Parts one after the other -/

/-- The root may be resolved: an alias that may not be entered leads to the alias
whose definition the root is, which has no type yet. -/
structure Ready (p : Project) (closed : List DeclarationId) (s : Store) (root : Root) : Prop where
  nodup : closed.Nodup
  held : ∀ d, p.IsAlias d → d ∉ closed → ∃ a, root = .body a ∧ p.Leads d a
  own : ∀ a, root = .body a → p.IsAlias a ∧ a ∉ closed ∧ s.declared? a = none

section
variable {closed : List DeclarationId} {mine : Origin → Prop} {s s' : Store} {c c' : Chart} {root : Root}
  {steps : List Nat} {context : Context} {e : TypeExpr}

theorem Ready.after (h : p.Ready closed s root) (hadds : p.Adds closed mine s s' c c') : p.Ready closed s' root := by
  refine ⟨h.nodup, h.held, fun a ha => ?_⟩
  obtain ⟨halias, hclosed, hnone⟩ := h.own a ha
  exact ⟨halias, hclosed, hadds.declared?_eq_none halias hclosed hnone⟩

/-- The node of a part belongs to no declaration that has a type. -/
theorem Ready.not_declared (h : p.Ready closed s root) {o : Origin} (ho : o.Under root steps) {d : DeclarationId}
    (hd : o.Of d) : s.declared? d = none :=
  (h.own d (ho.of_root hd)).2.2

theorem under_self (root : Root) (steps choice : List Nat) : (Origin.part root steps choice).Under root steps :=
  ⟨[], choice, rfl⟩

/-- The node for an expression, when its parts have types. -/
theorem adds_cellOf {types : List TypeId} (hready : p.Ready closed s root)
    (hpart : p.partType? root steps = some (context, e)) (hmeet : isMeet e = false)
    (hadds : p.Adds closed (Origin.UnderFrom root steps 0) s s' c c')
    (hparts : p.PartsDenote s' c' root steps context e.parts types)
    (htarget : ∀ d, p.target? context e = some d → ∃ a, root = .body a ∧ p.Leads d a) :
    ∃ c'', p.Adds closed (Origin.Under root steps) s (s'.added (p.cellOf s' context types e)) c c'' ∧
      p.Denotes (s'.added (p.cellOf s' context types e)) c'' root steps context e ⟨s'.types.size⟩ := by
  have hone := Adds.one closed hadds.charted (fits_cellOf hadds.charted hmeet hpart hparts)
  have hafter := (hready.after hadds).after hone
  refine ⟨_, (hadds.trans hone (fun o ho heq => ho.ne [] heq) ?_).mono ?_, ?_⟩
  · rintro o d (ho | rfl) hd
    · exact hafter.not_declared ho.under hd
    · exact hafter.not_declared (under_self root steps []) hd
  · rintro o (ho | rfl)
    · exact ho.under
    · exact under_self root steps []
  · exact .own htarget (by simp) (Chart.put_self _ _ _)

/-- Wherever the type stands as this part, resolving it makes nodes of it and
gives a type that it denotes. -/
def Resolves (p : Project) (closed : List DeclarationId) (root : Root) (steps : List Nat) (context : Context)
    (e : TypeExpr) : Prop :=
  ∀ s c, p.Charted s c → p.Ready closed s root → p.partType? root steps = some (context, e) →
    ∃ c', p.Adds closed (Origin.Under root steps) s (p.resolve closed context e s).2 c c' ∧
      p.Denotes (p.resolve closed context e s).2 c' root steps context e (p.resolve closed context e s).1

theorem resolveAll_ok {es : List TypeExpr} (h : ∀ e ∈ es, ∀ steps, p.Resolves closed root steps context e)
    (hcharted : p.Charted s c) (hready : p.Ready closed s root) {k : Nat}
    (hparts : ∀ i e, es[i]? = some e → p.partType? root ((k + i) :: steps) = some (context, e)) :
    ∃ c', p.Adds closed (Origin.UnderFrom root steps k) s (p.resolveAll closed context es s).2 c c' ∧
      (p.resolveAll closed context es s).1.length = es.length ∧
      ∀ (i : Nat) (e : TypeExpr) (t : TypeId), es[i]? = some e →
        (p.resolveAll closed context es s).1[i]? = some t →
        p.Denotes (p.resolveAll closed context es s).2 c' root ((k + i) :: steps) context e t := by
  -- by induction on the expressions; the step to each is counted from `k` on
  induction es generalizing s c k with
  | nil =>
    rw [resolveAll]
    exact ⟨c, .refl hcharted, rfl, fun i e t he => by cases he⟩
  | cons e rest ih =>
    obtain ⟨c₁, hfirst, hdenotes⟩ := h e List.mem_cons_self (k :: steps) s c hcharted hready (hparts 0 e rfl)
    have hafter := hready.after hfirst
    have hrest : ∀ i d, rest[i]? = some d → p.partType? root ((k + 1 + i) :: steps) = some (context, d) := by
      intro i d hi
      have := hparts (i + 1) d hi
      rwa [show k + (i + 1) = k + 1 + i by omega] at this
    obtain ⟨c₂, hothers, hlength, heach⟩ :=
      ih (fun d hd => h d (List.mem_cons_of_mem _ hd)) hfirst.charted hafter hrest
    rw [resolveAll, bind_apply, bind_apply, pure_apply]
    refine ⟨c₂, (hfirst.trans hothers ?_ ?_).mono ?_, by rw [List.length_cons, hlength, List.length_cons], ?_⟩
    · rintro o ho ⟨i, hi, ho'⟩
      have := ho.step_inj ho'
      omega
    · rintro o d (ho | ho) hd
      · exact (hafter.after hothers).not_declared ho hd
      · exact (hafter.after hothers).not_declared ho.under hd
    · rintro o (ho | ⟨i, hi, ho⟩)
      · exact ⟨k, Nat.le_refl k, ho⟩
      · exact ⟨i, Nat.le_of_succ_le hi, ho⟩
    · intro i d t hd ht
      cases i with
      | zero =>
        cases hd
        cases ht
        exact hdenotes.mono hothers.toExtends
      | succ i =>
        have := heach i d t hd ht
        rwa [show k + (i + 1) = k + 1 + i by omega]

theorem resolveSpans_eq (spans : List (Span TypeExpr)) (s : Store) :
    p.resolveSpans closed context spans s =
      (fillHoles spans (p.resolveAll closed context (TypeExpr.holes spans) s).1,
        (p.resolveAll closed context (TypeExpr.holes spans) s).2) := by
  induction spans generalizing s with
  | nil =>
    rw [resolveSpans, TypeExpr.holes, resolveAll]
    rfl
  | cons span rest ih =>
    cases span with
    | chunk t =>
      rw [resolveSpans, bind_apply, ih, pure_apply]
      rfl
    | hole e =>
      rw [resolveSpans, bind_apply, bind_apply, ih, TypeExpr.holes, resolveAll, bind_apply, bind_apply]
      rfl

end

end WireSchema.Project

/-!
## The types a node refers to

A node is made after all types that it refers to.
-/

namespace WireSchema

/-- The types in the holes of a template. -/
def spanTypes : List (Span TypeId) → List TypeId
  | [] => []
  | .chunk _ :: rest => spanTypes rest
  | .hole t :: rest => t :: spanTypes rest

/-- The types that a node of the kind refers to. -/
def Shape.children : Shape → List TypeId
  | template spans => spanTypes spans
  | array element => element.toList
  | tuple elements => elements
  | instantiation arguments => arguments
  | union members => members
  | intersection members => members
  | _ => []

namespace Project

variable {p : Project} {s s' : Store} {c c' : Chart}

theorem mem_spanTypes {spans : List (Span TypeId)} {t : TypeId} (h : .hole t ∈ spans) : t ∈ spanTypes spans := by
  induction spans with
  | nil => cases h
  | cons span rest ih =>
    rcases List.mem_cons.1 h with rfl | hrest
    · exact List.mem_cons_self
    · cases span with
      | chunk _ => exact ih hrest
      | hole _ => exact List.mem_cons_of_mem _ (ih hrest)

theorem mem_of_mem_spanTypes {spans : List (Span TypeExpr)} {types : List TypeId} {t : TypeId}
    (h : t ∈ spanTypes (fillHoles spans types)) : t ∈ types := by
  induction spans generalizing types with
  | nil => cases h
  | cons span rest ih =>
    cases span with
    | chunk _ => exact ih h
    | hole e =>
      cases types with
      | nil => cases h
      | cons u types =>
        rcases List.mem_cons.1 h with rfl | h
        · exact List.mem_cons_self
        · exact List.mem_cons_of_mem _ (ih h)

/-- The node of a part refers to the types of its parts, or to those that a union
has for them. -/
theorem mem_of_mem_children {context : Context} {types : List TypeId} {e : TypeExpr} {t : TypeId}
    (hmeet : isMeet e = false) (h : t ∈ (p.nodeOf s context types e).shape.children) :
    t ∈ types ∨ t ∈ (p.nodeOf s context types e).members := by
  cases e with
  | keyword name =>
    rw [nodeOf] at h
    rcases keywordShape_cases name with hshape | hshape | hshape | hshape <;> rw [hshape] at h <;> cases h
  | template spans text =>
    rw [nodeOf] at h
    split at h
    · cases h
    · exact .inl (mem_of_mem_spanTypes h)
  | array element text =>
    rw [nodeOf] at h
    exact .inl (List.mem_of_mem_head? (Option.mem_toList.1 h))
  | tuple elements text variadic =>
    cases variadic with
    | true => cases h
    | false => exact .inl h
  | union members text => exact .inr h
  | intersection members text => cases hmeet
  | reference name arguments text =>
    rw [nodeOf] at h
    split at h
    · cases h
    · exact .inl h
  | _ => cases h

theorem members_eq_children {n : TypeNode} (h : n.members ≠ []) : n.shape.children = n.members := by
  obtain ⟨shape, text, symbol⟩ := n
  cases shape with
  | union members => rfl
  | intersection members => rfl
  | _ => exact absurd rfl h

/-- The types that a node refers to come before it. -/
theorem Charted.child_lt (h : p.Charted s c) {id t : TypeId} (hid : id.index < s.types.size)
    (ht : t ∈ (s.node id).shape.children) : t.index < id.index := by
  by_cases hmembers : (s.node id).members = []
  · have hnode := h.nodes id hid
    rw [NodeOk] at hnode
    split at hnode
    next d _ =>
      obtain ⟨declaration, _, hnode⟩ := hnode
      split at hnode
      · rw [hnode] at ht
        cases ht
      · obtain ⟨values, hvalues, _⟩ := hnode
        rw [hvalues] at ht hmembers
        rw [show values = [] from hmembers] at ht
        cases ht
      · exact hnode.elim
    next d i _ =>
      obtain ⟨_, _, _, _, _, _, hnode⟩ := hnode
      rw [hnode] at ht
      cases ht
    next root steps choice _ =>
      obtain ⟨context, e, types, _, _, hbelow, ⟨es, text, _, hcrosses⟩ | ⟨hmeet, hnode⟩⟩ := PartNode.cases hnode
      · have hsame : (s.node id).shape.children = (s.node id).members := by
          simp only [Crosses] at hcrosses
          split at hcrosses
          · obtain ⟨variants, hvariants, _⟩ := hcrosses
            rw [hvariants]
            rfl
          · rw [hcrosses]
            rfl
        rw [hsame, hmembers] at ht
        cases ht
      · rw [hnode] at ht hmembers
        rcases mem_of_mem_children hmeet ht with ht | ht
        · exact hbelow t ht
        · rw [hmembers] at ht
          cases ht
  · rw [members_eq_children hmembers] at ht
    exact h.below id hid t ht

end Project

end WireSchema
