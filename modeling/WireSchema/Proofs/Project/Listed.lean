import WireSchema.Proofs.Project.Later
/-!
# The properties of a type

The properties of a type are its own members, those of an interface followed by
inherited ones. They are made when they are first asked for.
-/

namespace WireSchema

namespace Store

/-- The store with one more property. -/
def withProperty (s : Store) (r : Property Resolution) : Store := { s with properties := s.properties.push r }

/-- The store with the properties of a type found. -/
def listing (s : Store) (id : TypeId) (ids : List PropertyId) : Store :=
  { s with types := s.types.modify id.index fun cell => { cell with properties := .listed ids } }

theorem property?_withProperty (s : Store) (r : Property Resolution) {q : PropertyId}
    (hq : q.index < s.properties.size) : (s.withProperty r).property? q = s.property? q := by
  rw [property?, property?, withProperty, Array.getElem?_push_lt hq, Array.getElem?_eq_getElem hq]

theorem cell_listing (s : Store) {id : TypeId} (hid : id.index < s.types.size) (ids : List PropertyId) (id' : TypeId) :
    (s.listing id ids).cell id' = if id' = id then { s.cell id with properties := .listed ids } else s.cell id' := by
  rw [cell, listing, Array.getD_eq_getD_getElem?, Array.getElem?_modify]
  by_cases h : id' = id
  · rw [h, if_pos rfl, if_pos rfl, cell, Array.getD_eq_getD_getElem?, Array.getElem?_eq_getElem hid]
    rfl
  · rw [if_neg h, if_neg fun heq => h (by cases id; cases id'; simp only at heq; rw [heq]), cell,
      Array.getD_eq_getD_getElem?]

theorem node_listing (s : Store) {id : TypeId} (hid : id.index < s.types.size) (ids : List PropertyId) (id' : TypeId) :
    (s.listing id ids).node id' = s.node id' := by
  rw [node, node, cell_listing s hid]
  split
  next h => rw [h]
  · rfl

end Store

/-- The chart with the place of one more property. -/
def Chart.place (c : Chart) (i : Nat) (place : Origin × Nat) : Chart :=
  { c with properties := fun j => if j = i then place else c.properties j }

namespace Project

open Resolving

variable {p : Project} {s s' : Store} {c c' : Chart}

/-! ## How properties are found -/

/-- What a base of an interface comes to, where `search` finds the properties of a type. -/
def searchBase (p : Project) (d : DeclarationId) (search : TypeId → Resolving (List PropertyId)) (base : Base) :
    Resolving (List PropertyId) := do
  match p.lookup? d.unit base.name with
  | none =>
    report (.unresolvedBase base.name (p.unitName d.unit))
    return []
  | some target =>
    let baseType ← p.declarationType target
    match Shape.intersectionMembers? (← node baseType) with
    | some parts => return (← parts.mapM search).flatten
    | none => search baseType

/-- The own properties of an interface, then those that are found below its bases. -/
def searched (p : Project) (idle : List DeclarationId) (d : DeclarationId) (bases : List Base)
    (own : List PropertyId × Store) : List PropertyId × Store :=
  let found := bases.mapM (p.searchBase d (p.propertiesIn (idle.erase d))) own.2
  (own.1 ++ withNewNames found.2 (own.1.map found.2.propertyName) found.1.flatten, found.2)

/-- One case for each way to find the properties of a type. Below the bases of an
interface that is idle there is one idle interface less. -/
theorem propertiesIn_induction {motive : List DeclarationId → TypeId → Store → Prop}
    (listed : ∀ idle t s ids, (s.cell t).properties = .listed ids → p.propertiesIn idle t s = (ids, s) → motive idle t s)
    (members : ∀ idle t s context members, (s.cell t).properties = .ofMembers context members →
      (let made := pendingProperties context members s
      p.propertiesIn idle t s = (made.1, made.2.listing t made.1)) → motive idle t s)
    (missing : ∀ idle t s d, (s.cell t).properties = .ofInterface d →
      (∀ parameters bases members, p.body? d ≠ some (.interface parameters bases members)) →
      p.propertiesIn idle t s = ([], s) → motive idle t s)
    (busy : ∀ idle t s d parameters bases members, (s.cell t).properties = .ofInterface d →
      p.body? d = some (.interface parameters bases members) → d ∉ idle →
      (let own := pendingProperties { unit := d.unit, parameters } members s
      p.propertiesIn idle t s = (own.1, own.2.listing t own.1)) → motive idle t s)
    (entered : ∀ idle t s d parameters bases members, (s.cell t).properties = .ofInterface d →
      p.body? d = some (.interface parameters bases members) → d ∈ idle →
      (let all := p.searched idle d bases (pendingProperties { unit := d.unit, parameters } members s)
      p.propertiesIn idle t s = (all.1, all.2.listing t all.1)) →
      (∀ t s, motive (idle.erase d) t s) → motive idle t s)
    (idle : List DeclarationId) (t : TypeId) (s : Store) : motive idle t s := by
  cases hproperties : (s.cell t).properties with
  | listed ids =>
    refine listed idle t s ids hproperties ?_
    rw [propertiesIn, bind_apply]
    simp only [get_apply, hproperties]
    rfl
  | ofMembers context own =>
    refine members idle t s context own hproperties ?_
    rw [propertiesIn, bind_apply]
    simp only [get_apply, hproperties]
    rfl
  | ofInterface d =>
    by_cases hinterface : ∃ parameters bases own, p.body? d = some (.interface parameters bases own)
    · obtain ⟨parameters, bases, own, hbody⟩ := hinterface
      by_cases hidle : d ∈ idle
      · refine entered idle t s d parameters bases own hproperties hbody hidle ?_ fun t s =>
          propertiesIn_induction listed members missing busy entered (idle.erase d) t s
        rw [propertiesIn, bind_apply]
        simp only [get_apply, hproperties, hbody]
        rw [bind_apply, dif_pos hidle]
        rfl
      · refine busy idle t s d parameters bases own hproperties hbody hidle ?_
        rw [propertiesIn, bind_apply]
        simp only [get_apply, hproperties, hbody]
        rw [bind_apply, dif_neg hidle]
        rfl
    · have hnone (parameters : List Text) (bases : List Base) (own : List (Property TypeExpr)) :
          p.body? d ≠ some (.interface parameters bases own) := fun hbody => hinterface ⟨parameters, bases, own, hbody⟩
      refine missing idle t s d hproperties hnone ?_
      rw [propertiesIn, bind_apply]
      simp only [get_apply, hproperties]
      cases hbody : p.body? d with
      | none => rfl
      | some body =>
        cases body with
        | interface parameters bases own => exact absurd hbody (hnone parameters bases own)
        | _ => rfl
termination_by idle.length
decreasing_by
  have := List.length_erase_of_mem hidle
  have := List.length_pos_of_mem hidle
  omega

/-! ## Properties that are still to be resolved -/

theorem extends_withProperty (s : Store) (c : Chart) (r : Property Resolution) (place : Origin × Nat) :
    Extends s (s.withProperty r) c (c.place s.properties.size place) where
  size := Nat.le_refl _
  node _ _ := rfl
  origin _ _ := rfl
  declared _ _ h := h
  count := by simp [Store.withProperty]
  place i hi := by simp [Chart.place, Nat.ne_of_lt hi]

theorem later_withProperty (s : Store) (c : Chart) (r : Property Resolution) (place : Origin × Nat) :
    Later s (s.withProperty r) c (c.place s.properties.size place) where
  toExtends := extends_withProperty s c r place
  listed _ _ _ h := h
  record q r' hr := by
    have hlt : q.index < s.properties.size := (Array.getElem?_eq_some_iff.1 hr).1
    exact ⟨r'.type, by rw [Store.property?_withProperty s r hlt, hr], fun _ ht => ht⟩

theorem Charted.withProperty (h : p.Charted s c) {place : Origin × Nat} {context : Context} {m : Property TypeExpr}
    (hm : p.memberAt? place = some (context, m)) :
    p.Charted (s.withProperty { m with type := .pending context m.type }) (c.place s.properties.size place) := by
  have hext := extends_withProperty s c { m with type := .pending context m.type } place
  refine h.same hext rfl (h.entries.mono hext) (fun id hid => (h.listings id hid).mono hext hid rfl) fun q hq => ?_
  have hq' : q.index < s.properties.size ∨ q.index = s.properties.size := by
    simp [Store.withProperty] at hq
    omega
  rcases hq' with hlt | heq
  · exact (h.properties q hlt).mono hext hlt (Store.property?_withProperty s _ hlt)
  · refine ⟨context, m, .pending context m.type, ?_, ?_, .inl rfl⟩
    · rw [heq, Chart.place]
      simp only [if_true]
      exact hm
    · rw [Store.property?, heq, Store.withProperty, Array.getElem?_push_size]

/-- The properties are the members of the origin from the `k`-th on. -/
def Placed (o : Origin) (k count : Nat) (ids : List PropertyId) (s : Store) (c : Chart) : Prop :=
  ids.length = count ∧ ∀ (i : Nat) (q : PropertyId), ids[i]? = some q →
    q.index < s.properties.size ∧ c.properties q.index = (o, k + i)

theorem Placed.mono {o : Origin} {k count : Nat} {ids : List PropertyId} (h : Placed o k count ids s c)
    (hext : Extends s s' c c') : Placed o k count ids s' c' :=
  ⟨h.1, fun i q hi => ⟨Nat.lt_of_lt_of_le (h.2 i q hi).1 hext.count, by
    rw [hext.place _ (h.2 i q hi).1, (h.2 i q hi).2]⟩⟩

theorem pendingProperties_ok (h : p.Charted s c) {o : Origin} {context : Context} {members rest : List (Property TypeExpr)}
    (hmembers : p.membersOf? o = some (context, members)) {k : Nat}
    (hrest : ∀ (i : Nat) (m : Property TypeExpr), rest[i]? = some m → members[k + i]? = some m) :
    p.Runs s c (pendingProperties context rest s) fun ids s' c' =>
      s'.types = s.types ∧ c'.types = c.types ∧ s'.declared = s.declared ∧ Placed o k rest.length ids s' c' ∧
        ∀ q : PropertyId, q.index < s'.properties.size → q.index < s.properties.size ∨ q ∈ ids := by
  induction rest generalizing s c k with
  | nil => exact ⟨c, h, .refl s c, rfl, rfl, rfl, ⟨rfl, fun i q hi => by cases hi⟩, fun q hq => .inl hq⟩
  | cons m rest ih =>
    have hm : p.memberAt? (o, k) = some (context, m) := memberAt?_eq_some.2 ⟨members, hmembers, hrest 0 m rfl⟩
    obtain ⟨c₂, hcharted, hlater, htypes, hchart, hdeclared, ⟨hlength, heach⟩, hnew⟩ := ih (h.withProperty hm) (k := k + 1)
      fun i m' hi => by
        rw [show k + 1 + i = k + (i + 1) by omega]
        exact hrest (i + 1) m' hi
    rw [pendingProperties, mapM_cons]
    refine ⟨c₂, hcharted, (later_withProperty s c _ _).trans hlater, htypes, hchart, hdeclared,
      ⟨by rw [List.length_cons, List.length_cons]; exact congrArg _ hlength, fun i q hi => ?_⟩, fun q hq => ?_⟩
    · cases i with
      | zero =>
        cases hi
        have hlt : s.properties.size < (s.withProperty { m with type := .pending context m.type }).properties.size := by
          simp [Store.withProperty]
        refine ⟨Nat.lt_of_lt_of_le hlt hlater.count, (hlater.place _ hlt).trans ?_⟩
        simp [Chart.place]
      | succ i =>
        have := heach i q hi
        rwa [show k + 1 + i = k + (i + 1) by omega] at this
    · rcases hnew q hq with hlt | hmem
      · simp only [Store.withProperty, Array.size_push] at hlt
        rcases Nat.lt_succ_iff_lt_or_eq.1 hlt with hlt | heq
        · exact .inl hlt
        · exact .inr (List.mem_cons.2 (.inl (by cases q; cases heq; rfl)))
      · exact .inr (List.mem_cons_of_mem _ hmem)

/-! ## Properties that are found -/

theorem extends_listing (s : Store) (c : Chart) {id : TypeId} (hid : id.index < s.types.size) (ids : List PropertyId) :
    Extends s (s.listing id ids) c c :=
  ⟨by simp [Store.listing], fun id' _ => Store.node_listing s hid ids id', fun _ _ => rfl, fun _ _ h => h,
    Nat.le_refl _, fun _ _ => rfl⟩

theorem Charted.listing (h : p.Charted s c) {id : TypeId} (hid : id.index < s.types.size) {ids : List PropertyId}
    (hlists : p.Lists s c (c.types id.index) ids) : p.Charted (s.listing id ids) c := by
  have hext := extends_listing s c hid ids
  refine h.same hext (by simp [Store.listing]) (h.entries.mono hext) (fun id' hid' => ?_)
    fun q hq => (h.properties q hq).mono hext hq rfl
  by_cases heq : id' = id
  · rw [ListingOk, Store.cell_listing s hid, if_pos heq, heq]
    exact hlists.mono hext
  · exact (h.listings id' hid').mono hext hid' (by rw [Store.cell_listing s hid, if_neg heq])

/-- Nothing that was known is lost where the properties were still to be found. -/
theorem Later.listing (h : Later s s' c c') {id : TypeId} (hid : id.index < s.types.size)
    (hpending : ∀ ids, (s.cell id).properties ≠ .listed ids) (ids : List PropertyId) :
    Later s (s'.listing id ids) c c' where
  toExtends := h.toExtends.trans (extends_listing s' c' (Nat.lt_of_lt_of_le hid h.size) ids)
  listed id' ids' hid' hlisted := by
    rw [Store.cell_listing s' (Nat.lt_of_lt_of_le hid h.size)]
    by_cases heq : id' = id
    · rw [heq] at hlisted
      exact absurd hlisted (hpending ids')
    · rw [if_neg heq, h.listed id' ids' hid' hlisted]
  record := h.record

theorem listing_self (s : Store) {id : TypeId} (hid : id.index < s.types.size) (ids : List PropertyId) :
    ((s.listing id ids).cell id).properties = .listed ids := by
  rw [Store.cell_listing s hid, if_pos rfl]

theorem withNewNames_congr {ids : List PropertyId} (h : ∀ q ∈ ids, s'.propertyName q = s.propertyName q)
    (names : List Text) : withNewNames s' names ids = withNewNames s names ids := by
  induction ids generalizing names with
  | nil => rfl
  | cons q ids ih =>
    have hrest := fun names => ih (fun q' hq' => h q' (List.mem_cons_of_mem q hq')) names
    rw [withNewNames, withNewNames, h q List.mem_cons_self, hrest, hrest]

theorem mem_withNewNames {names : List Text} {ids : List PropertyId} {q : PropertyId}
    (h : q ∈ withNewNames s names ids) : q ∈ ids := by
  induction ids generalizing names with
  | nil => exact h
  | cons q' ids ih =>
    rw [withNewNames] at h
    split at h
    · exact List.mem_cons_of_mem _ (ih h)
    · rcases List.mem_cons.1 h with rfl | h
      · exact List.mem_cons_self
      · exact List.mem_cons_of_mem _ (ih h)

/-- The properties of a type that are found. -/
theorem listed_lt (h : p.Charted s c) {id : TypeId} (hid : id.index < s.types.size) {ids : List PropertyId}
    (hlisted : (s.cell id).properties = .listed ids) : ∀ q ∈ ids, q.index < s.properties.size := by
  have hlisting := h.listings id hid
  rw [ListingOk, hlisted] at hlisting
  exact hlisting.1

theorem originHas_own {o : Origin} {context : Context} {members : List (Property TypeExpr)} {m : Property TypeExpr}
    (hmembers : p.membersOf? o = some (context, members)) (hm : m ∈ members) : p.OriginHas o context m := by
  cases o with
  | declaration d =>
    rw [membersOf?] at hmembers
    split at hmembers
    next parameters bases members' hbody =>
      cases hmembers
      exact .own hbody hm
    · cases hmembers
  | value d i => cases hmembers
  | part root steps choice =>
    rw [membersOf?] at hmembers
    split at hmembers
    next context' e hroot =>
      split at hmembers
      next members' text hat =>
        cases hmembers
        exact ⟨context, _, partType?_eq_some.2 ⟨e, hroot, hat⟩, .object hm⟩
      · cases hmembers
    · cases hmembers

/-- A listed property is a member that its origin has. -/
theorem Lists.member {o : Origin} {ids : List PropertyId} (h : p.Lists s c o ids) {q : PropertyId} (hq : q ∈ ids) :
    ∃ context m, p.memberAt? (c.properties q.index) = some (context, m) ∧ p.OriginHas o context m := by
  obtain ⟨_, hlists⟩ := h
  cases hmembers : p.membersOf? o with
  | none =>
    rw [hmembers] at hlists
    rw [show ids = [] from hlists] at hq
    cases hq
  | some found =>
    obtain ⟨context, members⟩ := found
    rw [hmembers] at hlists
    obtain ⟨own, others, rfl, hlength, hown, hothers⟩ := hlists
    rcases List.mem_append.1 hq with hq | hq
    · obtain ⟨k, m, hm, hk⟩ := exists_getElem?_of_mem hlength hq
      refine ⟨context, m, ?_, originHas_own hmembers (List.mem_of_getElem? hm)⟩
      rw [hown k q hk]
      exact memberAt?_eq_some.2 ⟨members, hmembers, hm⟩
    · cases o with
      | declaration d => exact hothers q hq
      | _ =>
        rw [show others = [] from hothers] at hq
        cases hq

/-- The properties are members that the declaration has. -/
def Declared (p : Project) (d : DeclarationId) (ids : List PropertyId) (s : Store) (c : Chart) : Prop :=
  ∀ q ∈ ids, q.index < s.properties.size ∧ ∃ context m,
    p.memberAt? (c.properties q.index) = some (context, m) ∧ p.DeclaresMember d context m

theorem Declared.mono {d : DeclarationId} {ids : List PropertyId} (h : p.Declared d ids s c) (hext : Extends s s' c c') :
    p.Declared d ids s' c' := by
  intro q hq
  obtain ⟨hlt, context, m, hm, hdeclares⟩ := h q hq
  exact ⟨Nat.lt_of_lt_of_le hlt hext.count, context, m, by rw [hext.place _ hlt, hm], hdeclares⟩

/-- The properties of a type that a base stands for are members of the interface. -/
theorem declared_of_listed (h : p.Charted s c) {d target : DeclarationId} {id t : TypeId} {ids : List PropertyId}
    (hbase : ∀ context m, p.DeclaresMember target context m → p.DeclaresMember d context m)
    (hd : s.declared? target = some id) (ht : t = id ∨ t ∈ (s.node id).members)
    (hlisted : (s.cell t).properties = .listed ids) : p.Declared d ids s c := by
  have hid := h.entries.lt hd
  have hlt : t.index < s.types.size := by
    rcases ht with rfl | ht
    · exact hid
    · exact Nat.lt_trans (h.below id hid t ht) hid
  have hlists := h.listings t hlt
  rw [ListingOk, hlisted] at hlists
  intro q hq
  obtain ⟨context, m, hm, hhas⟩ := hlists.member hq
  refine ⟨hlists.1 q hq, context, m, hm, hbase context m (h.entries.has hd ?_)⟩
  rcases ht with rfl | ht
  · exact hhas
  · exact h.has id hid t ht context m hhas

/-- Properties are kept that have been found since the type was asked for. -/
theorem runs_setProperties (hlater : Later s s' c c') (h : p.Charted s' c') {type : TypeId} (htype : type.index < s.types.size)
    (hpending : ∀ ids, (s.cell type).properties ≠ .listed ids) {ids : List PropertyId}
    (hlists : p.Lists s' c' (c'.types type.index) ids) :
    p.Runs s c ((do setProperties type ids; return ids : Resolving (List PropertyId)) s')
      fun ids s'' _ => (s''.cell type).properties = .listed ids :=
  have htype' := Nat.lt_of_lt_of_le htype hlater.size
  ⟨c', h.listing htype' hlists, hlater.listing htype hpending ids, listing_self s' htype' ids⟩

/-- What the bases of an interface are searched for. -/
theorem base_ok {d : DeclarationId} {parameters : List Text} {bases : List Base} {members : List (Property TypeExpr)}
    (hbody : p.body? d = some (.interface parameters bases members)) {base : Base} (hmem : base ∈ bases)
    (h : p.Charted s c) {search : TypeId → Resolving (List PropertyId)}
    (hsearch : ∀ t s' c', p.Charted s' c' → t.index < s'.types.size →
      p.Runs s' c' (search t s') fun ids s'' _ => (s''.cell t).properties = .listed ids) :
    p.Runs s c (p.searchBase d search base s) (p.Declared d) := by
  unfold searchBase
  cases hlookup : p.lookup? d.unit base.name with
  | none => exact (runs_report h _).bind fun _ s' c' h' _ _ => .pure h' fun q hq => by cases hq
  | some target =>
    have hbase : ∀ context m, p.DeclaresMember target context m → p.DeclaresMember d context m :=
      fun _ _ => .inherited hbody hmem hlookup
    obtain ⟨c₁, hadds, hdeclared⟩ := declarationType_ok h (lookup?_valid hlookup)
    have hfound : p.Runs s c (p.declarationType target s) fun t s' _ => s'.declared? target = some t :=
      ⟨c₁, hadds.charted, hadds.later, hdeclared⟩
    refine hfound.bind ?_
    intro id s₁ c₁ h₁ _ hd
    have hid := h₁.entries.lt hd
    have hnode : p.Runs s₁ c₁ (node id s₁) fun n s' _ => n = s'.node id ∧ s'.declared? target = some id :=
      ⟨c₁, h₁, .refl s₁ c₁, rfl, hd⟩
    refine hnode.bind ?_
    rintro _ s₂ c₂ h₂ _ ⟨rfl, hd⟩
    -- an alias of an intersection is searched member by member
    cases hparts : Shape.intersectionMembers? (s₂.node id) with
    | none =>
      refine (hsearch id s₂ c₂ h₂ (h₂.entries.lt hd)).mono fun ids s' c' h' hlater hlisted => ?_
      exact declared_of_listed h' hbase (hlater.declared _ _ hd) (.inl rfl) hlisted
    | some parts =>
      have hmembers (t : TypeId) (ht : t ∈ parts) : t ∈ (s₂.node id).members := by
        rwa [Shape.intersectionMembers?_eq hparts]
      have hstep (t : TypeId) (ht : t ∈ parts) (s' : Store) (c' : Chart) (h' : p.Charted s' c') (hlater : Later s₂ s' c₂ c') :
          p.Runs s' c' (search t s') (p.Declared d) := by
        have hlt := Nat.lt_trans (h₂.below id (h₂.entries.lt hd) t (hmembers t ht)) (h₂.entries.lt hd)
        refine (hsearch t s' c' h' (Nat.lt_of_lt_of_le hlt hlater.size)).mono fun ids s'' c'' h'' hlater' hlisted => ?_
        have hall := hlater.trans hlater'
        refine declared_of_listed h'' hbase (hall.declared _ _ hd) (.inr ?_) hlisted
        rw [hall.node id (h₂.entries.lt hd)]
        exact hmembers t ht
      refine Runs.bind (x := parts.mapM search)
        (Runs.mapM _ (fun _ _ _ _ _ _ hlater hdeclared => hdeclared.mono hlater.toExtends) h₂ hstep) ?_
      rintro found s₃ c₃ h₃ _ ⟨hlength, heach⟩
      refine .pure h₃ fun q hq => ?_
      obtain ⟨ids, hids, hq⟩ := List.mem_flatten.1 hq
      obtain ⟨i, t, ht, hi⟩ := exists_getElem?_of_mem hlength hids
      exact heach i t ids ht hi q hq

/-- The properties that come behind the own members: those of an interface are
members that it has, other types have none. -/
def Further (p : Project) (o : Origin) (others : List PropertyId) (s : Store) (c : Chart) : Prop :=
  match o with
  | .declaration d => p.Declared d others s c
  | _ => others = []

/-- The own members first, then the further properties. -/
theorem lists_own {o : Origin} {context : Context} {members : List (Property TypeExpr)}
    (hmembers : p.membersOf? o = some (context, members)) {own others : List PropertyId}
    (hown : Placed o 0 members.length own s c)
    (hothers : p.Further o others s c) : p.Lists s c o (own ++ others) := by
  have hlt (q : PropertyId) (hq : q ∈ own) : q.index < s.properties.size := by
    obtain ⟨i, hi⟩ := List.getElem?_of_mem hq
    exact (hown.2 i q hi).1
  have hplaces (k : Nat) (q : PropertyId) (hk : own[k]? = some q) : c.properties q.index = (o, k) := by
    rw [(hown.2 k q hk).2, Nat.zero_add]
  rw [Lists, hmembers]
  cases o with
  | declaration d =>
    refine ⟨fun q hq => ?_, own, others, rfl, hown.1, hplaces, fun q hq => (hothers q hq).2⟩
    rcases List.mem_append.1 hq with hq | hq
    · exact hlt q hq
    · exact (hothers q hq).1
  | _ =>
    rw [show others = [] from hothers, List.append_nil]
    exact ⟨hlt, own, [], by rw [List.append_nil], hown.1, hplaces, rfl⟩

theorem propertiesIn_listed (idle : List DeclarationId) {id : TypeId} {ids : List PropertyId}
    (hlisted : (s.cell id).properties = .listed ids) : p.propertiesIn idle id s = (ids, s) := by
  rw [propertiesIn, bind_apply]
  simp only [get_apply, hlisted]
  rfl

/-- The properties of a type are found and kept. -/
theorem propertiesIn_ok (idle : List DeclarationId) {s : Store} {c : Chart} (h : p.Charted s c) {type : TypeId}
    (htype : type.index < s.types.size) :
    p.Runs s c (p.propertiesIn idle type s) fun ids s' _ => (s'.cell type).properties = .listed ids := by
  induction idle, type, s using propertiesIn_induction generalizing c with
  | listed idle type s ids hproperties hrun =>
    rw [hrun]
    exact .pure h hproperties
  | members idle type s context members hproperties hrun =>
    rw [hrun]
    have hlisting := h.listings type htype
    rw [ListingOk, hproperties] at hlisting
    obtain ⟨hmembers, hnot⟩ := hlisting
    obtain ⟨c₁, h₁, hlater, _, hchart, _, hown, _⟩ :=
      pendingProperties_ok h hmembers (k := 0) fun i m hi => by rwa [Nat.zero_add]
    refine runs_setProperties hlater h₁ htype (fun ids heq => by rw [hproperties] at heq; cases heq) ?_
    have hnone : p.Further (c.types type.index) [] (pendingProperties context members s).2 c₁ := by
      cases horigin : c.types type.index with
      | declaration d => exact absurd horigin (hnot d)
      | _ => rfl
    have hlists := lists_own hmembers hown hnone
    rw [List.append_nil] at hlists
    rwa [hchart]
  | missing idle type s d hproperties hnone _ =>
    have hlisting := h.listings type htype
    rw [ListingOk, hproperties] at hlisting
    obtain ⟨_, parameters, bases, members, hbody⟩ := hlisting
    exact absurd hbody (hnone parameters bases members)
  | busy idle type s d parameters bases members hproperties hbody _ hrun =>
    rw [hrun]
    have hlisting := h.listings type htype
    rw [ListingOk, hproperties] at hlisting
    have hmembers : p.membersOf? (.declaration d) = some ({ unit := d.unit, parameters }, members) := by
      rw [membersOf?, hbody]
    obtain ⟨c₁, h₁, hlater, _, hchart, _, hown, _⟩ :=
      pendingProperties_ok h hmembers (k := 0) fun i m hi => by rwa [Nat.zero_add]
    refine runs_setProperties hlater h₁ htype (fun ids heq => by rw [hproperties] at heq; cases heq) ?_
    have hlists := lists_own hmembers hown fun q (hq : q ∈ []) => by cases hq
    rw [List.append_nil] at hlists
    rw [hchart, hlisting.1]
    exact hlists
  | entered idle type s d parameters bases members hproperties hbody _ hrun ih =>
    rw [hrun]
    have hlisting := h.listings type htype
    rw [ListingOk, hproperties] at hlisting
    have hmembers : p.membersOf? (.declaration d) = some ({ unit := d.unit, parameters }, members) := by
      rw [membersOf?, hbody]
    obtain ⟨c₁, h₁, hlater, _, hchart, _, hown, _⟩ :=
      pendingProperties_ok h hmembers (k := 0) fun i m hi => by rwa [Nat.zero_add]
    obtain ⟨c₂, h₂, hlater₂, hlength, heach⟩ := Runs.mapM
      (fun _ ids => p.Declared d ids) (fun _ _ _ _ _ _ hlater hdeclared => hdeclared.mono hlater.toExtends) h₁
      fun base hmem s' c' h' _ => base_ok hbody hmem h' fun t s'' c'' h'' ht => ih t s'' h'' ht
    refine runs_setProperties (hlater.trans hlater₂) h₂ htype (fun ids heq => by rw [hproperties] at heq; cases heq) ?_
    rw [hlater₂.origin _ (Nat.lt_of_lt_of_le htype hlater.size), hchart, hlisting.1]
    refine lists_own hmembers (hown.mono hlater₂.toExtends) fun q hq => ?_
    obtain ⟨ids, hids, hq⟩ := List.mem_flatten.1 (mem_withNewNames hq)
    obtain ⟨i, base, hbase, hi⟩ := exists_getElem?_of_mem hlength hids
    exact heach i base ids hbase hi q hq

end Project

end WireSchema
