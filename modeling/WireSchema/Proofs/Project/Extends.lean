import WireSchema.Proofs.Project.Chart
/-!
# Stores that grow

Nodes are made and never changed, and a declaration keeps the type it has got.
So what a node denotes in a store it denotes in every later one.
-/

namespace WireSchema

/-! ## Members of unions and intersections -/

theorem Shape.anonymousUnion?_eq {n : TypeNode} {ts : List TypeId} (h : Shape.anonymousUnion? n = some ts) :
    n.members = ts := by
  obtain ⟨shape, text, symbol⟩ := n
  unfold Shape.anonymousUnion? at h
  split at h
  next hshape _ =>
    cases h
    simp only at hshape
    rw [hshape]
    rfl
  · cases h

theorem Shape.intersectionMembers?_eq {n : TypeNode} {ts : List TypeId}
    (h : Shape.intersectionMembers? n = some ts) : n.members = ts := by
  obtain ⟨shape, text, symbol⟩ := n
  cases shape <;> cases h
  rfl

theorem Shape.unionMembers?_eq {n : TypeNode} {ts : List TypeId} (h : Shape.unionMembers? n = some ts) :
    n.members = ts := by
  obtain ⟨shape, text, symbol⟩ := n
  cases shape <;> cases h
  rfl

theorem Shape.unionMembers?_of_not_isUnion {n : TypeNode} (h : n.isUnion = false) :
    Shape.unionMembers? n = none := by
  obtain ⟨shape, text, symbol⟩ := n
  cases shape <;> first | rfl | cases h

/-- Lists of one length have their elements at the same places. -/
theorem exists_getElem?_of_mem {α β : Type} {as : List α} {bs : List β} (hlength : bs.length = as.length) {b : β}
    (hb : b ∈ bs) : ∃ (i : Nat) (a : α), as[i]? = some a ∧ bs[i]? = some b := by
  obtain ⟨i, hi⟩ := List.getElem?_of_mem hb
  have hlt : i < as.length := by
    rw [← hlength]
    exact (List.getElem?_eq_some_iff.1 hi).1
  exact ⟨i, as[i], List.getElem?_eq_getElem hlt, hi⟩

theorem mem_choices {α : Type} {L : List (List α)} {xs : List α} (h : xs ∈ choices L) :
    ∀ x ∈ xs, ∃ l ∈ L, x ∈ l := by
  induction L generalizing xs with
  | nil =>
    rw [choices, List.mem_singleton] at h
    rw [h]
    simp
  | cons l L ih =>
    rw [choices, List.mem_flatMap] at h
    obtain ⟨a, ha, h⟩ := h
    obtain ⟨ys, hys, rfl⟩ := List.mem_map.1 h
    intro x hx
    rcases List.mem_cons.1 hx with rfl | hx
    · exact ⟨l, List.mem_cons_self, ha⟩
    · obtain ⟨l', hl', hx⟩ := ih hys x hx
      exact ⟨l', List.mem_cons_of_mem _ hl', hx⟩

namespace Store

variable {s s' : Store} {n : Nat} {f : TypeNode → Option (List TypeId)} {types : List TypeId} {t : TypeId}

/-- All types are among the first `n`. -/
def Below (n : Nat) (types : List TypeId) : Prop := ∀ t ∈ types, t.index < n

/-- A type that is there after opening was there or is a member of one that was. -/
theorem mem_opened (hf : ∀ node ts, f node = some ts → node.members = ts) (h : t ∈ s.opened f types) :
    (t ∈ types ∧ f (s.node t) = none) ∨ ∃ u ∈ types, t ∈ (s.node u).members ∧ ∃ ts, f (s.node u) = some ts := by
  obtain ⟨u, hu, h⟩ := List.mem_flatMap.1 h
  cases hfu : f (s.node u) with
  | none =>
    rw [hfu, Option.getD_none, List.mem_singleton] at h
    rw [h]
    exact .inl ⟨hu, hfu⟩
  | some ts =>
    rw [hfu, Option.getD_some] at h
    exact .inr ⟨u, hu, by rw [hf _ _ hfu]; exact h, ts, hfu⟩

theorem opened_congr (h : ∀ t ∈ types, s'.node t = s.node t) : s'.opened f types = s.opened f types := by
  unfold opened
  rw [List.flatMap_def, List.flatMap_def]
  congr 1
  exact List.map_congr_left fun t ht => by rw [h t ht]

theorem anyUnion_congr (h : ∀ t ∈ types, s'.node t = s.node t) : s'.anyUnion types = s.anyUnion types := by
  unfold anyUnion
  induction types with
  | nil => rfl
  | cons t rest ih =>
    rw [List.any_cons, List.any_cons, h t List.mem_cons_self, ih fun u hu => h u (List.mem_cons_of_mem _ hu)]

theorem texts_congr (h : ∀ t ∈ types, s'.node t = s.node t) (separator : Text) :
    s'.texts separator types = s.texts separator types := by
  unfold texts
  congr 1
  exact List.map_congr_left fun t ht => by rw [h t ht]

/-- Members come before what they are members of. -/
def Descends (s : Store) : Prop :=
  ∀ id : TypeId, id.index < s.types.size → ∀ t ∈ (s.node id).members, t.index < id.index

theorem Below.opened (hs : s.Descends) (hf : ∀ node ts, f node = some ts → node.members = ts)
    (hn : n ≤ s.types.size) (h : Below n types) : Below n (s.opened f types) := by
  intro t ht
  rcases mem_opened hf ht with ⟨ht, _⟩ | ⟨u, hu, ht, _⟩
  · exact h t ht
  · exact Nat.lt_trans (hs u (Nat.lt_of_lt_of_le (h u hu) hn) t ht) (h u hu)

theorem Below.joined (hs : s.Descends) (hn : n ≤ s.types.size) (h : Below n types) : Below n (s.joined types) :=
  h.opened hs (fun _ _ => Shape.intersectionMembers?_eq) hn

/-- What may be chosen for the types is one of them or a member of one. -/
theorem mem_options {xs : List TypeId} (hxs : xs ∈ choices (s.options types)) (ht : t ∈ xs) :
    (t ∈ s.joined types ∧ (s.node t).isUnion = false) ∨
      ∃ u ∈ s.joined types, (s.node u).isUnion = true ∧ t ∈ (s.node u).members := by
  obtain ⟨l, hl, ht⟩ := mem_choices hxs t ht
  obtain ⟨u, hu, rfl⟩ := List.mem_map.1 hl
  cases hunion : (s.node u).isUnion with
  | false =>
    rw [Shape.unionMembers?_of_not_isUnion hunion, Option.getD_none, List.mem_singleton] at ht
    rw [ht]
    exact .inl ⟨hu, hunion⟩
  | true =>
    refine .inr ⟨u, hu, hunion, ?_⟩
    cases hmembers : Shape.unionMembers? (s.node u) with
    | none =>
      revert hunion hmembers
      obtain ⟨shape, text, symbol⟩ := s.node u
      cases shape <;> simp [TypeNode.isUnion, Shape.unionMembers?]
    | some ts =>
      rw [hmembers, Option.getD_some] at ht
      rw [Shape.unionMembers?_eq hmembers]
      exact ht

theorem mem_getD_choices {i : Nat} (ht : t ∈ (choices (s.options types))[i]?.getD []) :
    (t ∈ s.joined types ∧ (s.node t).isUnion = false) ∨
      ∃ u ∈ s.joined types, (s.node u).isUnion = true ∧ t ∈ (s.node u).members := by
  cases hxs : (choices (s.options types))[i]? with
  | none => rw [hxs] at ht; cases ht
  | some xs =>
    rw [hxs, Option.getD_some] at ht
    exact mem_options (List.mem_of_getElem? hxs) ht

theorem Below.chosen (hs : s.Descends) (hn : n ≤ s.types.size) (h : Below n types) (choice : List Nat) :
    Below n (s.chosen types choice) := by
  induction choice generalizing types with
  | nil => exact h
  | cons i rest ih =>
    refine ih fun t ht => ?_
    have hjoined := h.joined hs hn
    rcases mem_getD_choices ht with ⟨ht, _⟩ | ⟨u, hu, _, ht⟩
    · exact hjoined t ht
    · exact Nat.lt_trans (hs u (Nat.lt_of_lt_of_le (hjoined u hu) hn) t ht) (hjoined u hu)

theorem chosen_append (types : List TypeId) (choice more : List Nat) :
    s.chosen types (choice ++ more) = s.chosen (s.chosen types choice) more := by
  induction choice generalizing types with
  | nil => rfl
  | cons i rest ih => rw [List.cons_append, chosen, chosen, ih]

section
variable (hs : s.Descends) (hnode : ∀ id : TypeId, id.index < s.types.size → s'.node id = s.node id)

include hnode in
theorem joined_congr (h : Below s.types.size types) : s'.joined types = s.joined types :=
  opened_congr fun t ht => hnode t (h t ht)

include hs hnode

theorem options_congr (h : Below s.types.size types) : s'.options types = s.options types := by
  rw [options, options, joined_congr hnode h]
  exact List.map_congr_left fun t ht => by rw [hnode t (h.joined hs (Nat.le_refl _) t ht)]

theorem chosen_congr (h : Below s.types.size types) (choice : List Nat) :
    s'.chosen types choice = s.chosen types choice := by
  induction choice generalizing types with
  | nil => rfl
  | cons i rest ih =>
    rw [chosen, chosen, options_congr hs hnode h, ih]
    exact h.chosen hs (Nat.le_refl _) [i]

end

end Store

namespace Project

variable {p : Project} {s s' s'' : Store} {c c' c'' : Chart}

/-- The later store has all that was there, with the same origins. -/
structure Extends (s s' : Store) (c c' : Chart) : Prop where
  size : s.types.size ≤ s'.types.size
  node : ∀ id : TypeId, id.index < s.types.size → s'.node id = s.node id
  origin : ∀ i < s.types.size, c'.types i = c.types i
  declared : ∀ d id, s.declared? d = some id → s'.declared? d = some id
  count : s.properties.size ≤ s'.properties.size
  place : ∀ i < s.properties.size, c'.properties i = c.properties i

namespace Extends

theorem refl (s : Store) (c : Chart) : Extends s s c c :=
  ⟨Nat.le_refl _, fun _ _ => rfl, fun _ _ => rfl, fun _ _ h => h, Nat.le_refl _, fun _ _ => rfl⟩

theorem trans (h : Extends s s' c c') (h' : Extends s' s'' c' c'') : Extends s s'' c c'' where
  size := Nat.le_trans h.size h'.size
  node id hid := by rw [h'.node id (Nat.lt_of_lt_of_le hid h.size), h.node id hid]
  origin i hi := by rw [h'.origin i (Nat.lt_of_lt_of_le hi h.size), h.origin i hi]
  declared d id hd := h'.declared d id (h.declared d id hd)
  count := Nat.le_trans h.count h'.count
  place i hi := by rw [h'.place i (Nat.lt_of_lt_of_le hi h.count), h.place i hi]

end Extends

theorem Denotes.mono (h : Extends s s' c c') {root : Root} {steps : List Nat} {context : Context} {e : TypeExpr}
    {id : TypeId} (hid : p.Denotes s c root steps context e id) : p.Denotes s' c' root steps context e id := by
  cases hid with
  | declared htarget hroot hd => exact .declared htarget hroot (h.declared _ _ hd)
  | own htarget hlt horigin =>
    exact .own htarget (Nat.lt_of_lt_of_le hlt h.size) (by rw [h.origin _ hlt, horigin])

theorem PartsDenote.mono (h : Extends s s' c c') {root : Root} {steps : List Nat} {context : Context}
    {es : List TypeExpr} {types : List TypeId} (hparts : p.PartsDenote s c root steps context es types) :
    p.PartsDenote s' c' root steps context es types :=
  ⟨hparts.length, fun i e t he ht => (hparts.each i e t he ht).mono h⟩

theorem nodeOf_congr {context : Context} {types : List TypeId} (h : ∀ t ∈ types, s'.node t = s.node t)
    (e : TypeExpr) : p.nodeOf s' context types e = p.nodeOf s context types e := by
  cases e <;> simp only [nodeOf]
  rw [Store.opened_congr h]

theorem Charted.descends (h : p.Charted s c) : s.Descends := h.below

theorem Crosses.mono (hs : s.Descends) (h : Extends s s' c c') {root : Root} {steps choice : List Nat}
    {types : List TypeId} {id : TypeId} (hid : id.index < s.types.size) (hbelow : Store.Below id.index types)
    (hcrosses : Crosses s c root steps choice types id) : Crosses s' c' root steps choice types id := by
  have htypes : Store.Below s.types.size types := fun t ht => Nat.lt_trans (hbelow t ht) hid
  have hleft := htypes.chosen hs (Nat.le_refl _) choice
  have hjoined := hleft.joined hs (Nat.le_refl _)
  unfold Crosses at hcrosses ⊢
  simp only [Store.chosen_congr hs h.node htypes choice, Store.joined_congr h.node hleft,
    Store.options_congr hs h.node hleft, h.node id hid] at hcrosses ⊢
  rw [Store.anyUnion_congr fun t ht => h.node t (hjoined t ht)]
  split at hcrosses
  next hunion =>
    rw [if_pos hunion]
    obtain ⟨variants, hnode, hlength, heach⟩ := hcrosses
    refine ⟨variants, ?_, hlength, fun i t ht => ?_⟩
    · rw [hnode, Store.texts_congr fun t ht => ?_]
      obtain ⟨i, hi⟩ := List.getElem?_of_mem ht
      exact (h.node t (Nat.lt_trans (heach i t hi).1 hid)).symm
    · obtain ⟨hlt, horigin⟩ := heach i t ht
      exact ⟨hlt, by rw [h.origin _ (Nat.lt_trans hlt hid), horigin]⟩
  next hunion => rw [if_neg hunion, hcrosses, Store.texts_congr fun t ht => h.node t (hjoined t ht)]

theorem NodeOk.mono (hs : s.Descends) (h : Extends s s' c c') {id : TypeId} (hid : id.index < s.types.size)
    (hnode : p.NodeOk s c id) : p.NodeOk s' c' id := by
  unfold NodeOk at hnode ⊢
  rw [h.origin _ hid]
  cases horigin : c.types id.index with
  | declaration d =>
    rw [horigin] at hnode
    obtain ⟨declaration, hd, hnode⟩ := hnode
    refine ⟨declaration, hd, ?_⟩
    cases hbody : declaration.body with
    | interface parameters bases members =>
      rw [hbody] at hnode
      simpa only [h.node id hid] using hnode
    | typeAlias parameters e => rw [hbody] at hnode; exact hnode
    | enumeration members =>
      rw [hbody] at hnode
      obtain ⟨values, hvalues, hlength, heach⟩ := hnode
      refine ⟨values, by rw [h.node id hid, hvalues], hlength, fun i t ht => ?_⟩
      obtain ⟨hlt, hvalue⟩ := heach i t ht
      exact ⟨hlt, by rw [h.origin _ (Nat.lt_trans hlt hid), hvalue]⟩
  | value d i =>
    rw [horigin] at hnode
    obtain ⟨declaration, members, m, hd, hbody, hm, hnode⟩ := hnode
    exact ⟨declaration, members, m, hd, hbody, hm, by rw [h.node id hid, hnode]⟩
  | part root steps choice =>
    rw [horigin] at hnode
    obtain ⟨context, e, types, hpart, hdenote, hbelow, hnode⟩ := hnode
    refine ⟨context, e, types, hpart, hdenote.mono h, hbelow, ?_⟩
    have hsame : ∀ t ∈ types, s'.node t = s.node t := fun t ht => h.node t (Nat.lt_trans (hbelow t ht) hid)
    cases e with
    | intersection members text => exact hnode.mono hs h hid hbelow
    | _ => exact ⟨hnode.1, by rw [nodeOf_congr hsame, h.node id hid, hnode.2]⟩

theorem Entries.mono (h : Extends s s' c c') {entries : List (DeclarationId × TypeId)}
    (hentries : p.Entries s c entries) : p.Entries s' c' entries := by
  induction entries with
  | nil => trivial
  | cons entry earlier ih =>
    obtain ⟨d, id⟩ := entry
    obtain ⟨⟨hlt, hnone, hentry⟩, hearlier⟩ := hentries
    refine ⟨⟨Nat.lt_of_lt_of_le hlt h.size, hnone, ?_⟩, ih hearlier⟩
    rw [h.origin _ hlt]
    exact hentry

theorem PropertyOk.mono (h : Extends s s' c c') {q : PropertyId} (hq : q.index < s.properties.size)
    (hsame : s'.property? q = s.property? q) (hproperty : p.PropertyOk s c q) : p.PropertyOk s' c' q := by
  obtain ⟨context, m, resolution, hmember, hrecord, hresolution⟩ := hproperty
  refine ⟨context, m, resolution, by rw [h.place _ hq, hmember], by rw [hsame, hrecord], ?_⟩
  rcases hresolution with hpending | ⟨t, hdone, hdenotes⟩
  · exact .inl hpending
  · rw [h.place _ hq]
    exact .inr ⟨t, hdone, hdenotes.mono h⟩

theorem Lists.mono (h : Extends s s' c c') {o : Origin} {ids : List PropertyId} (hlists : p.Lists s c o ids) :
    p.Lists s' c' o ids := by
  obtain ⟨hlt, hlists⟩ := hlists
  refine ⟨fun q hq => Nat.lt_of_lt_of_le (hlt q hq) h.count, ?_⟩
  cases hmembers : p.membersOf? o with
  | none => rw [hmembers] at hlists; exact hlists
  | some found =>
    rw [hmembers] at hlists
    obtain ⟨own, others, rfl, hlength, hown, hothers⟩ := hlists
    refine ⟨own, others, rfl, hlength, fun k q hk => ?_, ?_⟩
    · rw [h.place _ (hlt q (List.mem_append_left _ (List.mem_of_getElem? hk))), hown k q hk]
    · cases o with
      | declaration d =>
        intro q hq
        rw [h.place _ (hlt q (List.mem_append_right _ hq))]
        exact hothers q hq
      | _ => exact hothers

theorem ListingOk.mono (h : Extends s s' c c') {id : TypeId} (hid : id.index < s.types.size)
    (hsame : s'.cell id = s.cell id) (hlisting : p.ListingOk s c id) : p.ListingOk s' c' id := by
  unfold ListingOk at hlisting ⊢
  rw [hsame, h.origin _ hid]
  cases hproperties : (s.cell id).properties with
  | listed ids => rw [hproperties] at hlisting; exact hlisting.mono h
  | ofMembers context members => rw [hproperties] at hlisting; exact hlisting
  | ofInterface d => rw [hproperties] at hlisting; exact hlisting

end Project

end WireSchema
