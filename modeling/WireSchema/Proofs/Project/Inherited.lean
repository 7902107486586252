import WireSchema.Proofs.Project.Listed
/-!
# Inheritance

An interface inherits from the interfaces that its bases stand for: by their own
name, through aliases, or as members of an intersection. Once they are listed,
its properties are its own members and then those of its bases.
-/

namespace WireSchema

/-- The types whose properties count as those of the type when it is a base: the
members of an intersection, or else the type itself. -/
def Store.sources (s : Store) (t : TypeId) : List TypeId := (Shape.intersectionMembers? (s.node t)).getD [t]

namespace Project

section
variable (p : Project)

/-- The declaration is an interface. -/
def IsInterface (d : DeclarationId) : Prop := ∃ parameters bases members, p.body? d = some (.interface parameters bases members)

mutual

/-- The declaration stands for the interface, or for an intersection with the
interface among its members. -/
inductive Gives : DeclarationId → DeclarationId → Prop where
  | itself (d : DeclarationId) : Gives d d
  | aliased {a d : DeclarationId} {parameters : List Text} {e : TypeExpr} :
    p.body? a = some (.typeAlias parameters e) → Offers { unit := a.unit, parameters } e d → Gives a d

/-- The type stands for the interface, or for an intersection with the interface
among its members. -/
inductive Offers : Context → TypeExpr → DeclarationId → Prop where
  | named {context : Context} {e : TypeExpr} {a d : DeclarationId} :
    p.target? context e = some a → Gives a d → Offers context e d
  | member {context : Context} {es : List TypeExpr} {text : Text} {e : TypeExpr} {d : DeclarationId} :
    e ∈ es → Offers context e d → Offers context (.intersection es text) d

end

/-- A base of the interface stands for the other, which may come first in an
intersection or behind. -/
def Inherits (d d' : DeclarationId) : Prop :=
  ∃ parameters bases members base target, p.body? d = some (.interface parameters bases members) ∧ base ∈ bases ∧
    p.lookup? d.unit base.name = some target ∧ p.Gives target d'

end

variable {p : Project} {s s' : Store} {c c' : Chart} {d : DeclarationId} {id t u : TypeId}

/-! ## Where properties come from -/

theorem mem_sources (h : t ∈ s.sources id) : t = id ∨ t ∈ (s.node id).members := by
  rw [Store.sources] at h
  cases hparts : Shape.intersectionMembers? (s.node id) with
  | none =>
    rw [hparts] at h
    exact .inl (List.mem_singleton.1 h)
  | some ts =>
    rw [hparts] at h
    rw [Shape.intersectionMembers?_eq hparts]
    exact .inr h

theorem Charted.source_lt (h : p.Charted s c) (hid : id.index < s.types.size) (ht : t ∈ s.sources id) :
    t.index < s.types.size := by
  rcases mem_sources ht with rfl | ht
  · exact hid
  · exact Nat.lt_trans (h.below id hid t ht) hid

theorem sources_congr (h : s'.node id = s.node id) : s'.sources id = s.sources id := by
  rw [Store.sources, Store.sources, h]

/-- Declarations have no intersections of their own. -/
theorem Charted.sources_declaration (h : p.Charted s c) (hid : id.index < s.types.size)
    (hd : c.types id.index = .declaration d) : s.sources id = [id] := by
  have hnode := h.nodes id hid
  rw [NodeOk, hd] at hnode
  obtain ⟨declaration, _, hnode⟩ := hnode
  rw [Store.sources]
  split at hnode
  · rw [hnode]
    rfl
  · obtain ⟨values, hnode, _⟩ := hnode
    rw [hnode]
    rfl
  · exact hnode.elim

/-- The sources of earlier nodes that are interfaces are offered by what the nodes
were made for. -/
def OffersBelow (p : Project) (s : Store) (c : Chart) (n : Nat) : Prop :=
  ∀ id : TypeId, id.index < n → id.index < s.types.size → ∀ root steps context e,
    c.types id.index = .part root steps [] → p.partType? root steps = some (context, e) →
    ∀ u ∈ s.sources id, ∀ d, c.types u.index = .declaration d → p.Offers context e d

theorem Entries.gives (h : p.Charted s c) {entries : List (DeclarationId × TypeId)} (hentries : p.Entries s c entries)
    {n : Nat} (hbelow : p.OffersBelow s c n) {a : DeclarationId} (ha : entries.lookup a = some t) (ht : t.index < n)
    (hu : u ∈ s.sources t) (hd : c.types u.index = .declaration d) : p.Gives a d := by
  induction entries generalizing a with
  | nil => cases ha
  | cons entry earlier ih =>
    obtain ⟨a', t'⟩ := entry
    obtain ⟨⟨hlt, _, hentry⟩, hearlier⟩ := hentries
    rw [List.lookup_cons] at ha
    split at ha
    next heq =>
      cases ha
      obtain rfl : a = a' := eq_of_beq heq
      -- interfaces and enumerations have a node of their own
      have hitself (horigin : c.types t.index = .declaration a) : p.Gives a d := by
        rw [h.sources_declaration hlt horigin, List.mem_singleton] at hu
        rw [hu, horigin] at hd
        cases hd
        exact .itself _
      cases hbody : p.body? a with
      | none => rw [hbody] at hentry; exact hentry.elim
      | some body =>
        rw [hbody] at hentry
        cases body with
        | interface parameters bases members => exact hitself hentry
        | enumeration members => exact hitself hentry
        | typeAlias parameters e =>
          rcases hentry with ⟨other, htarget, _, hother⟩ | ⟨_, horigin⟩
          · exact .aliased hbody (.named htarget (ih hearlier hother))
          · refine .aliased hbody (hbelow t ht hlt (.body a) [] _ e horigin ?_ u hu d hd)
            rw [partType?_nil, rootType?, hbody]
    · exact ih hearlier ha

theorem Denotes.offers (h : p.Charted s c) {n : Nat} (hbelow : p.OffersBelow s c n) {root : Root} {steps : List Nat}
    {context : Context} {e : TypeExpr} (hpart : p.partType? root steps = some (context, e))
    (hdenotes : p.Denotes s c root steps context e t) (ht : t.index < n) (hu : u ∈ s.sources t)
    (hd : c.types u.index = .declaration d) : p.Offers context e d := by
  cases hdenotes with
  | declared htarget _ ha => exact .named htarget (h.entries.gives h hbelow ha ht hu hd)
  | own _ hlt horigin => exact hbelow t ht hlt root steps context e horigin hpart u hu d hd

theorem Charted.offersBelow (h : p.Charted s c) (n : Nat) : p.OffersBelow s c n := by
  induction n with
  | zero => exact fun id hid => absurd hid (Nat.not_lt_zero _)
  | succ n ih =>
    intro id hid hlt root steps context e horigin hpart u hu d hd
    have hnode := h.nodes id hlt
    rw [NodeOk, horigin] at hnode
    obtain ⟨context', e', types, hpart', hparts, hbelow, hkind⟩ := PartNode.cases hnode
    rw [hpart] at hpart'
    cases hpart'
    cases hmembers : Shape.intersectionMembers? (s.node id) with
    | none =>
      rw [Store.sources, hmembers, Option.getD_none, List.mem_singleton] at hu
      rw [hu, horigin] at hd
      cases hd
    | some ts =>
      rcases hkind with ⟨es, text, rfl, hcrosses⟩ | ⟨hmeet, hnode⟩
      · -- nothing was chosen, so the members are the types of the parts, intersections among them opened
        have hjoined : u ∈ s.joined types := by
          rw [Store.sources] at hu
          simp only [Crosses] at hcrosses
          cases hunion : s.anyUnion (s.joined (s.chosen types [])) with
          | true =>
            rw [hunion, if_pos rfl] at hcrosses
            obtain ⟨variants, hvariants, _⟩ := hcrosses
            rw [hvariants] at hmembers
            cases hmembers
          | false =>
            rw [hunion, if_neg Bool.false_ne_true] at hcrosses
            rw [hcrosses] at hu
            exact hu
        obtain ⟨w, hw, hjoined⟩ := List.mem_flatMap.1 hjoined
        obtain ⟨i, part, hpart', hi⟩ := exists_getElem?_of_mem hparts.length hw
        refine .member (List.mem_of_getElem? hpart') ?_
        exact (hparts.each i part w hpart' hi).offers h ih (partType?_cons hpart hpart')
          (Nat.lt_of_lt_of_le (hbelow w hw) (Nat.le_of_lt_succ hid)) hjoined hd
      · rw [hnode, intersectionMembers?_nodeOf hmeet] at hmembers
        cases hmembers

/-- A source of the type of a declaration is an interface that the declaration gives. -/
theorem Charted.gives_of_source (h : p.Charted s c) {a : DeclarationId} (ha : s.declared? a = some t)
    (hu : u ∈ s.sources t) (hd : c.types u.index = .declaration d) : p.Gives a d :=
  h.entries.gives h (h.offersBelow _) ha (Nat.lt_succ_self _) hu hd

/-! ## The properties of an interface -/

/-- The properties of the types are found. -/
structure Listings (s : Store) (types : List TypeId) (lists : List (List PropertyId)) : Prop where
  length : lists.length = types.length
  each : ∀ (i : Nat) (t : TypeId) (ids : List PropertyId), types[i]? = some t → lists[i]? = some ids →
    (s.cell t).properties = .listed ids

/-- What an interface has from one of its bases. -/
def BaseListed (p : Project) (s : Store) (d : DeclarationId) (base : Base) (ids : List PropertyId) : Prop :=
  match p.lookup? d.unit base.name with
  | none => ids = []
  | some target => ∃ t lists, s.declared? target = some t ∧ Listings s (s.sources t) lists ∧ ids = lists.flatten

/-- The properties of an interface are its own, then those of its bases that have
new names. -/
def InterfaceListed (p : Project) (s : Store) (c : Chart) (d : DeclarationId) (ids : List PropertyId) : Prop :=
  ∀ parameters bases members, p.body? d = some (.interface parameters bases members) →
    ∃ (own : List PropertyId) (found : List (List PropertyId)), Placed (.declaration d) 0 members.length own s c ∧
    found.length = bases.length ∧
      (∀ (i : Nat) (base : Base) (ids : List PropertyId), bases[i]? = some base → found[i]? = some ids →
        p.BaseListed s d base ids) ∧
      ids = own ++ withNewNames s (own.map s.propertyName) found.flatten

theorem Listings.mem_lt (h : p.Charted s c) {types : List TypeId} {lists : List (List PropertyId)}
    (hlists : Listings s types lists) (htypes : ∀ t ∈ types, t.index < s.types.size) {q : PropertyId}
    (hq : q ∈ lists.flatten) : q.index < s.properties.size := by
  obtain ⟨ids, hids, hq⟩ := List.mem_flatten.1 hq
  obtain ⟨i, t, ht, hi⟩ := exists_getElem?_of_mem hlists.length hids
  exact listed_lt h (htypes t (List.mem_of_getElem? ht)) (hlists.each i t ids ht hi) q hq

theorem Listings.mono (hlater : Later s s' c c') {types : List TypeId} {lists : List (List PropertyId)}
    (hlists : Listings s types lists) (htypes : ∀ t ∈ types, t.index < s.types.size) : Listings s' types lists :=
  ⟨hlists.length, fun i t ids ht hids =>
    hlater.listed t ids (htypes t (List.mem_of_getElem? ht)) (hlists.each i t ids ht hids)⟩

theorem BaseListed.mem_lt (h : p.Charted s c) {base : Base} {ids : List PropertyId} (hbase : p.BaseListed s d base ids)
    {q : PropertyId} (hq : q ∈ ids) : q.index < s.properties.size := by
  unfold BaseListed at hbase
  split at hbase
  · rw [hbase] at hq
    cases hq
  · obtain ⟨t, lists, ht, hlists, rfl⟩ := hbase
    exact hlists.mem_lt h (fun u hu => h.source_lt (h.entries.lt ht) hu) hq

theorem BaseListed.mono (h : p.Charted s c) (hlater : Later s s' c c') {base : Base} {ids : List PropertyId}
    (hbase : p.BaseListed s d base ids) : p.BaseListed s' d base ids := by
  unfold BaseListed at hbase ⊢
  split at hbase
  · exact hbase
  · obtain ⟨t, lists, ht, hlists, rfl⟩ := hbase
    have hlt := h.entries.lt ht
    refine ⟨t, lists, hlater.declared _ _ ht, ?_, rfl⟩
    rw [sources_congr (hlater.node t hlt)]
    exact hlists.mono hlater fun u hu => h.source_lt hlt hu

/-- What an interface has from a base are members that it has. -/
theorem BaseListed.declared (h : p.Charted s c) {parameters : List Text} {bases : List Base}
    {members : List (Property TypeExpr)} (hbody : p.body? d = some (.interface parameters bases members)) {base : Base}
    (hmem : base ∈ bases) {ids : List PropertyId} (hbase : p.BaseListed s d base ids) : p.Declared d ids s c := by
  unfold BaseListed at hbase
  split at hbase
  · rw [hbase]
    intro q hq
    cases hq
  next target hlookup =>
    obtain ⟨t, lists, ht, hlists, rfl⟩ := hbase
    intro q hq
    obtain ⟨ids, hids, hq⟩ := List.mem_flatten.1 hq
    obtain ⟨i, u, hu, hi⟩ := exists_getElem?_of_mem hlists.length hids
    exact declared_of_listed h (fun _ _ => .inherited hbody hmem hlookup) ht (mem_sources (List.mem_of_getElem? hu))
      (hlists.each i u ids hu hi) q hq

theorem mem_of_bases {bases : List Base} {found : List (List PropertyId)} (hlength : found.length = bases.length)
    (heach : ∀ (i : Nat) (base : Base) (ids : List PropertyId), bases[i]? = some base → found[i]? = some ids →
      p.BaseListed s d base ids) (h : p.Charted s c) {q : PropertyId} (hq : q ∈ found.flatten) :
    q.index < s.properties.size := by
  obtain ⟨ids, hids, hq⟩ := List.mem_flatten.1 hq
  obtain ⟨i, base, hbase, hi⟩ := exists_getElem?_of_mem hlength hids
  exact (heach i base ids hbase hi).mem_lt h hq

theorem Placed.mem_lt {o : Origin} {k n : Nat} {ids : List PropertyId} (h : Placed o k n ids s c) {q : PropertyId}
    (hq : q ∈ ids) : q.index < s.properties.size := by
  obtain ⟨i, hi⟩ := List.getElem?_of_mem hq
  exact (h.2 i q hi).1

/-- What is listed of an interface stays listed. -/
theorem InterfaceListed.mono (h : p.Charted s c) (hlater : Later s s' c c') {ids : List PropertyId}
    (hlisted : p.InterfaceListed s c d ids) : p.InterfaceListed s' c' d ids := by
  intro parameters bases members hbody
  obtain ⟨own, found, hown, hlength, heach, rfl⟩ := hlisted parameters bases members hbody
  refine ⟨own, found, hown.mono hlater.toExtends, hlength, fun i base ids hbase hids =>
    (heach i base ids hbase hids).mono h hlater, ?_⟩
  have hnames : own.map s'.propertyName = own.map s.propertyName :=
    List.map_congr_left fun q hq => hlater.propertyName (hown.mem_lt hq)
  rw [hnames, withNewNames_congr fun q hq => hlater.propertyName (mem_of_bases hlength heach h hq)]

end Project

end WireSchema
