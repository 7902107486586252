import WireSchema.Proofs.Project.Crossed
/-!
# Declarations and the types that name them

A declaration gets its type once. Inside the definition of an alias, a name that
leads back to the alias while its type is being made gets a node of its own.
-/

namespace WireSchema

/-- The store with the type of one more declaration. -/
def Store.declare (s : Store) (d : DeclarationId) (id : TypeId) : Store := { s with declared := (d, id) :: s.declared }

namespace Project

open Resolving

variable {p : Project} {closed : List DeclarationId} {s s' : Store} {c c' : Chart} {d : DeclarationId} {id : TypeId}

theorem declared?_declare_self (s : Store) (d : DeclarationId) (id : TypeId) :
    (s.declare d id).declared? d = some id := by
  rw [Store.declared?, Store.declare, List.lookup_cons, beq_self_eq_true]

theorem declared?_declare (hnone : s.declared? d = none) {d' : DeclarationId} {id' : TypeId}
    (h : s.declared? d' = some id') : (s.declare d id).declared? d' = some id' := by
  have hne : d' ≠ d := fun heq => by rw [heq, hnone] at h; cases h
  rw [Store.declared?, Store.declare, List.lookup_cons, beq_eq_false_iff_ne.2 hne]
  exact h

/-! ## Steps that make no node -/

/-- Nodes are the same in the later store, and the rest of it fits the chart. -/
theorem Charted.same (h : p.Charted s c) (hext : Extends s s' c c') (hsize : s'.types.size = s.types.size)
    (hentries : p.Entries s' c' s'.declared)
    (hlistings : ∀ id : TypeId, id.index < s.types.size → p.ListingOk s' c' id)
    (hproperties : ∀ q : PropertyId, q.index < s'.properties.size → p.PropertyOk s' c' q) : p.Charted s' c' := by
  have hnode (id : TypeId) : s'.node id = s.node id := by
    by_cases hid : id.index < s.types.size
    · exact hext.node id hid
    · rw [Store.node_of_size_le (Nat.le_of_not_lt hid), Store.node_of_size_le (by omega)]
  refine ⟨fun id hid => ?nodes, fun id hid t ht => ?below, fun id ts hts t ht => ?joined, fun id hid t ht context m hm => ?has,
    hentries, fun id hid => ?listings, hproperties⟩
  case nodes =>
    rw [hsize] at hid
    exact (h.nodes id hid).mono h.descends hext hid
  case below =>
    rw [hsize] at hid
    rw [hnode] at ht
    exact h.below id hid t ht
  case joined =>
    rw [hnode] at hts ⊢
    exact h.joined id ts hts t ht
  case has =>
    rw [hsize] at hid
    rw [hnode] at ht
    rw [hext.origin _ (Nat.lt_trans (h.below id hid t ht) hid)] at hm
    rw [hext.origin _ hid]
    exact h.has id hid t ht context m hm
  case listings =>
    rw [hsize] at hid
    exact hlistings id hid

theorem extends_events (s : Store) (c : Chart) (events : List Event) : Extends s { s with events } c c :=
  ⟨Nat.le_refl _, fun _ _ => rfl, fun _ _ => rfl, fun _ _ h => h, Nat.le_refl _, fun _ _ => rfl⟩

theorem adds_events (closed : List DeclarationId) (mine : Origin → Prop) (h : p.Charted s c) (events : List Event) :
    p.Adds closed mine s { s with events } c c where
  toExtends := extends_events s c events
  charted :=
    have hext := extends_events s c events
    h.same hext rfl (h.entries.mono hext) (fun id hid => (h.listings id hid).mono hext hid rfl)
      fun q hq => (h.properties q hq).mono hext hq rfl
  cells _ _ := rfl
  properties := rfl
  places := rfl
  closes d _ hnone hsome := by
    rw [show ({ s with events } : Store).declared? d = s.declared? d from rfl, hnone] at hsome
    cases hsome
  fresh i hi hlt := absurd hlt (Nat.not_lt.2 hi)
  distinct i j hi hlt := absurd hlt (Nat.not_lt.2 hi)
  unlisted id hi hlt := absurd hlt (Nat.not_lt.2 hi)

/-- Reports change nothing else. -/
theorem Adds.withEvents {mine : Origin → Prop} (h : p.Adds closed mine s s' c c') (events : List Event) :
    p.Adds closed mine s { s' with events } c c' :=
  { h with
    toExtends := h.toExtends.trans (extends_events s' c' events)
    charted := (adds_events closed mine h.charted events).charted }

/-! ## The type of a declaration -/

theorem extends_declare (hnone : s.declared? d = none) : Extends s (s.declare d id) c c :=
  ⟨Nat.le_refl _, fun _ _ => rfl, fun _ _ => rfl, fun _ _ h => declared?_declare hnone h, Nat.le_refl _,
    fun _ _ => rfl⟩

/-- The declaration gets its type when its nodes are made. -/
theorem Adds.declare {inner : List DeclarationId} {mine : Origin → Prop} (h : p.Adds inner mine s s' c c')
    (hinner : ∀ d', d' ∈ inner → d' ∈ closed) (hd : p.IsAlias d → d ∈ closed) (hmine : ∀ o, mine o → o.Of d)
    (hnone : s.declared? d = none) (hlater : s'.declared? d = none) (hentry : p.Entry s' c' s'.declared d id) :
    p.Adds closed (fun _ => False) s (s'.declare d id) c c' where
  toExtends := h.toExtends.trans (extends_declare hlater)
  charted :=
    have hext := extends_declare hlater
    h.charted.same hext rfl ⟨hentry, h.charted.entries.mono hext⟩
      (fun id hid => (h.charted.listings id hid).mono hext hid rfl)
      fun q hq => (h.charted.properties q hq).mono hext hq rfl
  cells := h.cells
  properties := h.properties
  places := h.places
  closes d' hd' hnone' hsome := by
    by_cases heq : d' = d
    · rw [heq]
      exact hd (heq ▸ hd')
    · rw [Store.declared?, Store.declare, List.lookup_cons, beq_eq_false_iff_ne.2 heq] at hsome
      exact hinner d' (h.closes d' hd' hnone' hsome)
  fresh i hi hlt := by
    right
    rcases h.fresh i hi hlt with hown | ⟨d', hd', hnone', hsome⟩
    · exact ⟨d, hmine _ hown, hnone, by rw [declared?_declare_self]; rfl⟩
    · exact ⟨d', hd', hnone', Adds.isSome_of_isSome (extends_declare (c := c') hlater) hsome⟩
  distinct := h.distinct
  unlisted := h.unlisted

/-! ### Interfaces and enumerations -/

section
variable {declaration : Declaration}

theorem body?_eq (h : p.declaration? d = some declaration) : p.body? d = some declaration.body := by
  rw [body?, h]
  rfl

/-- The cell of an interface. -/
def interfaceCell (d : DeclarationId) (declaration : Declaration) (parameters : List Text) : TypeCell where
  node := { shape := .object, text := interfaceText declaration.name parameters, symbol := some declaration.name }
  properties := .ofInterface d

/-- The cell of a member of an enumeration. -/
def valueCell (declaration : Declaration) (m : EnumMember) : TypeCell where
  node := { shape := .other, text := m.value.getD (declaration.name ++ "." ++ m.name) }

/-- The cell of an enumeration. -/
def enumerationCell (declaration : Declaration) (values : List TypeId) : TypeCell where
  node := { shape := .union values, text := declaration.name, symbol := some declaration.name }

theorem fits_interface (hd : p.declaration? d = some declaration) {parameters : List Text} {bases : List Base}
    {members : List (Property TypeExpr)} (hbody : declaration.body = .interface parameters bases members) :
    p.Fits s c (interfaceCell d declaration parameters) (.declaration d) := by
  refine ⟨?_, (fun t ht => by cases ht), (fun ts hts => by cases hts), (fun t ht => by cases ht), ?_,
    fun ids hlisted => by cases hlisted⟩
  · rw [NodeOk, Chart.put_self]
    refine ⟨declaration, hd, ?_⟩
    rw [hbody]
    exact Store.node_added_self
  · rw [ListingOk, Store.cell_added_self, Chart.put_self]
    exact ⟨rfl, parameters, bases, members, by rw [body?_eq hd, hbody]⟩

theorem fits_value (hd : p.declaration? d = some declaration) {members : List EnumMember}
    (hbody : declaration.body = .enumeration members) {i : Nat} {m : EnumMember} (hm : members[i]? = some m) :
    p.Fits s c (valueCell declaration m) (.value d i) := by
  refine ⟨?_, (fun t ht => by cases ht), (fun ts hts => by cases hts), (fun t ht => by cases ht), ?_,
    fun _ _ => rfl⟩
  · rw [NodeOk, Chart.put_self]
    exact ⟨declaration, members, m, hd, hbody, hm, Store.node_added_self⟩
  · rw [ListingOk, Store.cell_added_self, Chart.put_self]
    exact ⟨List.forall_mem_nil _, rfl⟩

theorem fits_enumeration (hd : p.declaration? d = some declaration) {members : List EnumMember}
    (hbody : declaration.body = .enumeration members) {values : List TypeId} (hlength : values.length = members.length)
    (heach : ∀ (i : Nat) (t : TypeId), values[i]? = some t → t.index < s.types.size ∧ c.types t.index = .value d i) :
    p.Fits s c (enumerationCell declaration values) (.declaration d) := by
  have hmembers : p.membersOf? (.declaration d) = none := by rw [membersOf?, body?_eq hd, hbody]
  refine ⟨?_, fun t ht => ?_, (fun ts hts => by cases hts), fun t ht context m hm => ?_, ?_, fun _ _ => hmembers⟩
  · rw [NodeOk, Chart.put_self]
    refine ⟨declaration, hd, ?_⟩
    rw [hbody]
    refine ⟨values, Store.node_added_self, hlength, fun i t ht => ⟨(heach i t ht).1, ?_⟩⟩
    rw [Chart.put_of_lt _ (heach i t ht).1, (heach i t ht).2]
  · obtain ⟨i, hi⟩ := List.getElem?_of_mem ht
    exact (heach i t hi).1
  · obtain ⟨i, hi⟩ := List.getElem?_of_mem ht
    rw [(heach i t hi).2] at hm
    exact hm.elim
  · rw [ListingOk, Store.cell_added_self, Chart.put_self]
    refine ⟨List.forall_mem_nil _, ?_⟩
    rw [hmembers]

/-- The node is the one of a member of the enumeration, the `k`-th or one behind. -/
def ValueFrom (d : DeclarationId) (k : Nat) (o : Origin) : Prop := ∃ i, k ≤ i ∧ o = .value d i

theorem adds_values (closed : List DeclarationId) (hd : p.declaration? d = some declaration) {members : List EnumMember}
    (hbody : declaration.body = .enumeration members) (hnone : s.declared? d = none) (h : p.Charted s c) {k : Nat}
    {rest : List EnumMember} (hrest : ∀ (i : Nat) (m : EnumMember), rest[i]? = some m → members[k + i]? = some m) :
    let made := rest.mapM (fun m => addNode .other (m.value.getD (declaration.name ++ "." ++ m.name))) s
    ∃ c', p.Adds closed (ValueFrom d k) s made.2 c c' ∧ made.1.length = rest.length ∧ made.2.declared? d = none ∧
      ∀ (i : Nat) (t : TypeId), made.1[i]? = some t →
        t.index < made.2.types.size ∧ c'.types t.index = .value d (k + i) := by
  induction rest generalizing s c k with
  | nil => exact ⟨c, .refl h, rfl, hnone, fun i t hi => by cases hi⟩
  | cons m rest ih =>
    -- the first value is added, the others by the induction hypothesis behind it
    have hone := Adds.one closed h (fits_value (s := s) (c := c) hd hbody (hrest 0 m rfl))
    obtain ⟨c₂, hothers, hlength, hlater, heach⟩ :=
      ih (s := s.added (valueCell declaration m)) hnone hone.charted (k := k + 1) (fun i m' hi => by
        rw [show k + 1 + i = k + (i + 1) by omega]
        exact hrest (i + 1) m' hi)
    simp only [mapM_cons]
    refine ⟨c₂, (hone.trans hothers ?_ ?_).mono ?_, by rw [List.length_cons, List.length_cons]; exact congrArg _ hlength,
      hlater, ?_⟩
    · rintro o rfl ⟨i, hi, heq⟩
      simp only [Origin.value.injEq, true_and] at heq
      omega
    · rintro o d' (rfl | ⟨i, _, rfl⟩) hof
      · rw [← show d = d' from hof]
        exact hlater
      · rw [← show d = d' from hof]
        exact hlater
    · rintro o (rfl | ⟨i, hi, rfl⟩)
      · exact ⟨k, Nat.le_refl k, rfl⟩
      · exact ⟨i, Nat.le_of_succ_le hi, rfl⟩
    · intro i t ht
      cases i with
      | zero =>
        cases ht
        have hlt : s.types.size < (s.added (valueCell declaration m)).types.size := by simp
        exact ⟨Nat.lt_of_lt_of_le hlt hothers.size, (hothers.origin _ hlt).trans (Chart.put_self _ _ _)⟩
      | succ i =>
        have := heach i t ht
        rwa [show k + 1 + i = k + (i + 1) by omega] at this

end

/-! ### Any declaration -/

/-- The declaration has the type in the later store. Or else it is an alias that
may not be entered, and the type is a new node for its name. -/
def Declares (p : Project) (closed : List DeclarationId) (d : DeclarationId) (s : Store) (c : Chart)
    (made : TypeId × Store) : Prop :=
  (∃ c', p.Adds closed (fun _ => False) s made.2 c c' ∧ made.2.declared? d = some made.1) ∨
    (p.IsAlias d ∧ d ∉ closed ∧ ∃ declaration events, p.declaration? d = some declaration ∧
      made = addNode .other declaration.name none { s with events })

section
variable {declaration : Declaration}

theorem declares_interface (h : p.Charted s c) (hd : p.declaration? d = some declaration) {parameters : List Text}
    {bases : List Base} {members : List (Property TypeExpr)}
    (hkind : declaration.body = .interface parameters bases members) (hsome : s.declared? d = none) :
    p.Declares closed d s c (p.resolveDeclaration closed d s) := by
  have hbody := (body?_eq hd).trans (congrArg some hkind)
  rw [resolveDeclaration, bind_apply]
  simp only [get_apply, hsome, hd, hkind]
  have hone := Adds.one closed h (fits_interface (s := s) (c := c) hd hkind)
  refine .inl ⟨_, hone.declare (fun _ => id) (fun halias => ?_) (fun o ho => ?_) hsome hsome ?_,
    declared?_declare_self _ _ _⟩
  · obtain ⟨_, _, halias⟩ := halias
    rw [hbody] at halias
    cases halias
  · rw [ho]
    rfl
  · refine ⟨by simp, hsome, ?_⟩
    rw [hbody]
    exact Chart.put_self _ _ _

theorem declares_enumeration (h : p.Charted s c) (hd : p.declaration? d = some declaration) {members : List EnumMember}
    (hkind : declaration.body = .enumeration members) (hsome : s.declared? d = none) :
    p.Declares closed d s c (p.resolveDeclaration closed d s) := by
  have hbody := (body?_eq hd).trans (congrArg some hkind)
  rw [resolveDeclaration, bind_apply]
  simp only [get_apply, hsome, hd, hkind]
  obtain ⟨c₁, hvalues, hlength, hlater, heach⟩ := adds_values closed (k := 0) hd hkind hsome h
    (fun i m hm => by rwa [Nat.zero_add])
  have hone := Adds.one closed hvalues.charted (fits_enumeration hd hkind hlength fun i t ht => by
    have := heach i t ht
    rwa [Nat.zero_add] at this)
  have hboth := hvalues.trans hone ?_ ?_
  · refine .inl ⟨_, hboth.declare (fun _ => id) (fun halias => ?_) (fun o ho => ?_) hsome hlater ?_,
      declared?_declare_self _ _ _⟩
    · obtain ⟨_, _, halias⟩ := halias
      rw [hbody] at halias
      cases halias
    · rcases ho with ⟨i, _, rfl⟩ | rfl
      · rfl
      · rfl
    · refine ⟨Nat.lt_of_lt_of_eq (Nat.lt_succ_self _) (Store.size_added _ _).symm, hlater, ?_⟩
      rw [hbody]
      exact Chart.put_self _ _ _
  · rintro o ⟨i, _, rfl⟩ heq
    cases heq
  · rintro o d' (⟨i, _, rfl⟩ | rfl) hof
    · rw [← show d = d' from hof]
      exact hlater
    · rw [← show d = d' from hof]
      exact hlater

theorem declares_alias (h : p.Charted s c) (hnodup : closed.Nodup)
    (hheld : ∀ d', p.IsAlias d' → d' ∉ closed → p.Leads d' d) (hd : p.declaration? d = some declaration)
    {parameters : List Text} {e : TypeExpr} (hkind : declaration.body = .typeAlias parameters e)
    (hinner : d ∈ closed → ∀ root steps context e, p.Resolves (closed.erase d) root steps context e)
    (hsome : s.declared? d = none) : p.Declares closed d s c (p.resolveDeclaration closed d s) := by
  have hbody := (body?_eq hd).trans (congrArg some hkind)
  rw [resolveDeclaration, bind_apply]
  simp only [get_apply, hsome, hd, hkind]
  -- an alias that is open already becomes a node under its name
  by_cases hclosed : d ∈ closed
  · have hready : p.Ready (closed.erase d) s (.body d) := by
      refine ⟨hnodup.erase d, fun d' hd' hout => ⟨d, rfl, ?_⟩, fun a ha => ?_⟩
      · by_cases heq : d' = d
        · rw [heq]
          exact .refl d
        · exact hheld d' hd' fun hmem => hout ((List.mem_erase_of_ne heq).2 hmem)
      · cases ha
        exact ⟨⟨parameters, e, hbody⟩, hnodup.not_mem_erase, hsome⟩
    -- the body is resolved as a type, and the declaration is bound to what it denotes
    have hpart : p.partType? (.body d) [] = some ({ unit := d.unit, parameters }, e) := by
      rw [partType?_nil, rootType?, hbody]
    obtain ⟨c₁, hadds, hdenotes⟩ := hinner hclosed (.body d) [] _ e s c h hready hpart
    have hlater := ((hready.after hadds).own d rfl).2.2
    simp only [dif_pos hclosed]
    refine .inl ⟨c₁, hadds.declare (fun _ => List.mem_of_mem_erase) (fun _ => hclosed) (fun o ho => ?_) hsome hlater
      ⟨hdenotes.lt hadds.charted, hlater, ?_⟩, declared?_declare_self _ _ _⟩
    · obtain ⟨more, choice, rfl⟩ := ho
      rfl
    · rw [hbody]
      cases hdenotes with
      | @declared other htarget hroot hother =>
        exact .inl ⟨other, htarget, fun heq => hroot (by rw [heq]), hother⟩
      | own htarget _ horigin =>
        refine .inr ⟨fun other hother => ?_, horigin⟩
        obtain ⟨a, ha, hleads⟩ := htarget other hother
        cases ha
        exact hleads
  · simp only [dif_neg hclosed]
    exact .inr ⟨⟨parameters, e, hbody⟩, hclosed, declaration, _, hd, rfl⟩

end

/-- The type of a declaration is kept, or made as the declaration says. -/
theorem resolveDeclaration_ok (h : p.Charted s c) (hnodup : closed.Nodup)
    (hheld : ∀ d', p.IsAlias d' → d' ∉ closed → p.Leads d' d) (hvalid : ∃ declaration, p.declaration? d = some declaration)
    (hinner : d ∈ closed → ∀ root steps context e, p.Resolves (closed.erase d) root steps context e) :
    p.Declares closed d s c (p.resolveDeclaration closed d s) := by
  obtain ⟨declaration, hd⟩ := hvalid
  cases hsome : s.declared? d with
  | some id =>
    rw [resolveDeclaration, bind_apply]
    simp only [get_apply, hsome]
    exact .inl ⟨c, .refl h, hsome⟩
  | none =>
    cases hkind : declaration.body with
    | interface parameters bases members => exact declares_interface h hd hkind hsome
    | enumeration members => exact declares_enumeration h hd hkind hsome
    | typeAlias parameters e => exact declares_alias h hnodup hheld hd hkind hinner hsome

/-- How the type of a declaration comes about: it is known, or made now. -/
inductive Declaring (p : Project) (closed : List DeclarationId) (d : DeclarationId) (s : Store) : TypeId × Store → Prop where
  | known {id : TypeId} : s.declared? d = some id → Declaring p closed d s (id, s)
  | missing : s.declared? d = none → p.declaration? d = none → Declaring p closed d s (addNode .other [] none s)
  | interface {declaration : Declaration} {parameters : List Text} {bases : List Base} {members : List (Property TypeExpr)} :
    s.declared? d = none → p.declaration? d = some declaration → declaration.body = .interface parameters bases members →
    Declaring p closed d s
      (⟨s.types.size⟩, (s.added (interfaceCell d declaration parameters)).declare d ⟨s.types.size⟩)
  | enumeration {declaration : Declaration} {members : List EnumMember} {made : TypeId × Store} :
    s.declared? d = none → p.declaration? d = some declaration → declaration.body = .enumeration members →
    Resolving.enumeration declaration.name members s = made → Declaring p closed d s (made.1, made.2.declare d made.1)
  | definition {declaration : Declaration} {parameters : List Text} {e : TypeExpr} {made : TypeId × Store} :
    s.declared? d = none → p.declaration? d = some declaration → declaration.body = .typeAlias parameters e → d ∈ closed →
    p.resolve (closed.erase d) { unit := d.unit, parameters } e s = made →
    Declaring p closed d s (made.1, made.2.declare d made.1)
  | circular {declaration : Declaration} {parameters : List Text} {e : TypeExpr} :
    s.declared? d = none → p.declaration? d = some declaration → declaration.body = .typeAlias parameters e → d ∉ closed →
    Declaring p closed d s (addNode .other declaration.name none
      { s with events := .circularAlias declaration.name (p.unitName d.unit) :: s.events })

theorem declaring (p : Project) (closed : List DeclarationId) (d : DeclarationId) (s : Store) :
    p.Declaring closed d s (p.resolveDeclaration closed d s) := by
  rw [resolveDeclaration, bind_apply]
  cases hsome : s.declared? d with
  | some id =>
    simp only [get_apply, hsome]
    exact .known hsome
  | none =>
    simp only [get_apply, hsome]
    cases hd : p.declaration? d with
    | none => exact .missing hsome hd
    | some declaration =>
      simp only
      cases hkind : declaration.body with
      | interface parameters bases members => exact .interface hsome hd hkind
      | enumeration members => exact .enumeration hsome hd hkind rfl
      | typeAlias parameters e =>
        by_cases hclosed : d ∈ closed
        · simp only [dif_pos hclosed]
          exact .definition hsome hd hkind hclosed rfl
        · simp only [dif_neg hclosed]
          exact .circular hsome hd hkind hclosed

/-! ## Any type -/

theorem holes_of_plain {spans : List (Span TypeExpr)} {plain : Text} (h : plainTemplate? spans = some plain) :
    TypeExpr.holes spans = [] := by
  induction spans generalizing plain with
  | nil => rfl
  | cons span rest ih =>
    cases span with
    | chunk t =>
      rw [plainTemplate?, Option.map_eq_some_iff] at h
      obtain ⟨more, hmore, _⟩ := h
      exact ih hmore
    | hole e => cases h

/-- The type of a declaration is that of its name. For an intersection the types
of its members are intersected. Any other type gets a node, after its parts. -/
theorem resolve_cases (closed : List DeclarationId) (context : Context) (e : TypeExpr) (s : Store) :
    (∃ d, p.target? context e = some d ∧ p.resolve closed context e s = p.resolveDeclaration closed d s) ∨
      (∃ members text, e = .intersection members text ∧ p.resolve closed context e s =
        intersect (p.resolveAll closed context members s).1 (p.resolveAll closed context members s).2) ∨
      (p.target? context e = none ∧ isMeet e = false ∧ ∃ events,
        let made := p.resolveAll closed context e.parts s
        p.resolve closed context e s =
          (⟨made.2.types.size⟩, ({ made.2 with events } : Store).added (p.cellOf made.2 context made.1 e))) := by
  have hleaf (hparts : e.parts = []) (events : List Event)
      (hrun : p.resolve closed context e s =
        (⟨s.types.size⟩, ({ s with events } : Store).added (p.cellOf s context [] e))) :
      ∃ events, let made := p.resolveAll closed context e.parts s
        p.resolve closed context e s =
          (⟨made.2.types.size⟩, ({ made.2 with events } : Store).added (p.cellOf made.2 context made.1 e)) := by
    rw [hparts, resolveAll, pure_apply]
    exact ⟨events, hrun⟩
  -- all but declared names and intersections make their parts first and then one cell
  cases e with
  | keyword name => exact .inr (.inr ⟨rfl, rfl, hleaf rfl s.events (by rw [resolve]; rfl)⟩)
  | literal text => exact .inr (.inr ⟨rfl, rfl, hleaf rfl s.events (by rw [resolve]; rfl)⟩)
  | verbatim text reason => exact .inr (.inr ⟨rfl, rfl, hleaf rfl s.events (by rw [resolve]; rfl)⟩)
  | object members text => exact .inr (.inr ⟨rfl, rfl, hleaf rfl s.events (by rw [resolve]; rfl)⟩)
  | tuple elements text variadic =>
    cases variadic with
    | true => exact .inr (.inr ⟨rfl, rfl, hleaf rfl (.variadicTuple text :: s.events) (by rw [resolve]; rfl)⟩)
    | false =>
      refine .inr (.inr ⟨rfl, rfl, (p.resolveAll closed context elements s).2.events, ?_⟩)
      rw [resolve, if_neg Bool.false_ne_true, bind_apply]
      rfl
  | array element text =>
    refine .inr (.inr ⟨rfl, rfl, (p.resolve closed context element s).2.events, ?_⟩)
    rw [resolve, bind_apply, TypeExpr.parts, resolveAll, resolveAll]
    rfl
  | template spans text =>
    cases hplain : plainTemplate? spans with
    | some plain =>
      refine .inr (.inr ⟨rfl, rfl, hleaf (holes_of_plain hplain) s.events ?_⟩)
      rw [resolve, hplain]
      simp only [cellOf, nodeOf, hplain]
      rfl
    | none =>
      refine .inr (.inr ⟨rfl, rfl, (p.resolveAll closed context (TypeExpr.holes spans) s).2.events, ?_⟩)
      rw [resolve, hplain]
      simp only [cellOf, nodeOf, hplain, bind_apply, resolveSpans_eq]
      rfl
  | union members text =>
    refine .inr (.inr ⟨rfl, rfl, (p.resolveAll closed context members s).2.events, ?_⟩)
    rw [resolve, bind_apply]
    rfl
  | intersection members text => exact .inr (.inl ⟨members, text, rfl, by rw [resolve, bind_apply]⟩)
  | reference name arguments text =>
    cases arguments with
    | cons first rest =>
      refine .inr (.inr ⟨rfl, rfl, (p.resolveAll closed context (first :: rest) s).2.events, ?_⟩)
      have hsome : (context.parameters.contains name && (first :: rest).isEmpty) = false := by simp
      rw [resolve, if_neg (by rw [hsome]; exact Bool.false_ne_true), bind_apply, TypeExpr.parts, resolveAll, bind_apply,
        bind_apply, pure_apply]
      cases p.lookup? context.unit name <;> rfl
    | nil =>
      cases hparameter : context.parameters.contains name with
      | true =>
        refine .inr (.inr ⟨by rw [target?, if_pos hparameter], rfl, hleaf rfl s.events ?_⟩)
        rw [resolve, hparameter, List.isEmpty_nil, Bool.true_and, if_pos rfl]
        simp only [cellOf, nodeOf, List.isEmpty_nil, if_true, hparameter]
        rfl
      | false =>
        cases hlookup : p.lookup? context.unit name with
        | none =>
          refine .inr (.inr ⟨by rw [target?, hparameter, if_neg Bool.false_ne_true, hlookup], rfl,
            hleaf rfl (.unresolvedReference name (p.unitName context.unit) :: s.events) ?_⟩)
          rw [resolve, hparameter, Bool.false_and, if_neg Bool.false_ne_true, resolveAll, bind_apply, pure_apply, hlookup]
          simp only [cellOf, nodeOf, List.isEmpty_nil, if_true, hparameter, hlookup]
          rfl
        | some d =>
          refine .inl ⟨d, target?_eq_some.2 ⟨name, text, rfl, hparameter, hlookup⟩, ?_⟩
          rw [resolve, hparameter, Bool.false_and, if_neg Bool.false_ne_true, resolveAll, bind_apply, pure_apply, hlookup]

section
variable {root : Root} {steps : List Nat} {context : Context} {e : TypeExpr}

/-- The types of the parts are made, after which there are reports. -/
theorem parts_ok {es : List TypeExpr} (hinner : ∀ part ∈ es, ∀ steps, p.Resolves closed root steps context part)
    (h : p.Charted s c) (hready : p.Ready closed s root) (hpart : p.partType? root steps = some (context, e))
    (hparts : es = e.parts) (events : List Event) :
    let made := p.resolveAll closed context es s
    ∃ c', p.Adds closed (Origin.UnderFrom root steps 0) s { made.2 with events } c c' ∧
      p.PartsDenote { made.2 with events } c' root steps context es made.1 := by
  subst hparts
  obtain ⟨c₁, hadds, hlength, heach⟩ := resolveAll_ok hinner h hready (k := 0)
    (fun i part (hi : _ = some part) => by rw [Nat.zero_add]; exact partType?_cons hpart hi)
  refine ⟨c₁, hadds.withEvents events, hlength, fun i part t hi ht => ?_⟩
  have hdenotes := (heach i part t hi ht).mono (extends_events _ c₁ events)
  rwa [Nat.zero_add] at hdenotes

/-- A name without type arguments that stands for a declaration. -/
theorem named_ok (htarget : p.target? context e = some d) (h : p.Charted s c) (hready : p.Ready closed s root)
    (hpart : p.partType? root steps = some (context, e)) {made : TypeId × Store}
    (hdeclares : (∀ d', p.IsAlias d' → d' ∉ closed → p.Leads d' d) → p.Declares closed d s c made) :
    ∃ c', p.Adds closed (Origin.Under root steps) s made.2 c c' ∧ p.Denotes made.2 c' root steps context e made.1 := by
  have hheld : ∀ d', p.IsAlias d' → d' ∉ closed → p.Leads d' d := by
    intro d' hd' hout
    obtain ⟨a, rfl, hleads⟩ := hready.held d' hd' hout
    exact hleads.trans (.step ⟨steps, context, e, hpart, htarget⟩ (.refl d))
  rcases hdeclares hheld with ⟨c', hadds, hdeclared⟩ | ⟨halias, hout, declaration, events, hd, hmade⟩
  · refine ⟨c', hadds.mono (fun _ hfalse => hfalse.elim), .declared htarget (fun heq => ?_) hdeclared⟩
    -- The alias whose definition is being resolved has no type yet.
    obtain ⟨halias, hclosed, hnone⟩ := hready.own d heq
    rw [hadds.declared?_eq_none halias hclosed hnone] at hdeclared
    cases hdeclared
  · obtain ⟨name, text, rfl, hnot, hlookup⟩ := target?_eq_some.1 htarget
    have hcell : p.cellOf { s with events } context [] (.reference name [] text) =
        { node := { shape := .other, text := declaration.name } } := by
      simp only [cellOf, nodeOf, List.isEmpty_nil, if_true, hnot, hlookup, hd, Option.map_some, Option.getD_some]
      rfl
    have hheld' (d' : DeclarationId) (hd' : p.target? context (.reference name [] text) = some d') :
        ∃ a, root = .body a ∧ p.Leads d' a := by
      rw [htarget] at hd'
      cases hd'
      exact hready.held d halias hout
    have hparts : p.PartsDenote { s with events } c root steps context [] [] := ⟨rfl, fun i e t he ht => by cases ht⟩
    have hleaf := adds_cellOf hready hpart rfl ((Adds.refl h).withEvents events) hparts hheld'
    rw [hcell] at hleaf
    rw [hmade]
    exact hleaf

end

theorem size_le_sizeAll {e : TypeExpr} {es : List TypeExpr} (h : e ∈ es) : e.size ≤ TypeExpr.sizeAll es := by
  induction es with
  | nil => cases h
  | cons d rest ih =>
    rw [TypeExpr.sizeAll]
    rcases List.mem_cons.1 h with rfl | h
    · exact Nat.le_add_right _ _
    · exact Nat.le_trans (ih h) (Nat.le_add_left _ _)

theorem size_le_sizeSpans {e : TypeExpr} {spans : List (Span TypeExpr)} (h : e ∈ TypeExpr.holes spans) :
    e.size ≤ TypeExpr.sizeSpans spans := by
  induction spans with
  | nil => cases h
  | cons span rest ih =>
    cases span with
    | chunk t => exact ih h
    | hole d =>
      rw [TypeExpr.sizeSpans]
      rcases List.mem_cons.1 h with rfl | h
      · exact Nat.le_add_right _ _
      · exact Nat.le_trans (ih h) (Nat.le_add_left _ _)

/-- The parts of a type are smaller. -/
theorem size_lt_of_mem_parts {e part : TypeExpr} (h : part ∈ e.parts) : part.size < e.size := by
  cases e with
  | template spans text => exact Nat.lt_succ_of_le (size_le_sizeSpans h)
  | array element text =>
    rw [List.mem_singleton.1 h]
    exact Nat.lt_succ_self _
  | tuple elements text variadic =>
    cases variadic with
    | true => cases h
    | false => exact Nat.lt_succ_of_le (size_le_sizeAll h)
  | union members text => exact Nat.lt_succ_of_le (size_le_sizeAll h)
  | intersection members text => exact Nat.lt_succ_of_le (size_le_sizeAll h)
  | reference name arguments text => exact Nat.lt_succ_of_le (size_le_sizeAll h)
  | _ => cases h

/-- What holds of a type whenever it does of its parts, and of all types while one
alias less may be entered, holds of all types. -/
theorem resolving_induction {motive : List DeclarationId → TypeExpr → Prop}
    (step : ∀ closed e, (∀ part ∈ e.parts, motive closed part) → (∀ d ∈ closed, ∀ e, motive (closed.erase d) e) →
      motive closed e) (closed : List DeclarationId) (e : TypeExpr) : motive closed e := by
  have hparts : ∀ part ∈ e.parts, motive closed part := fun part hpart => resolving_induction step closed part
  have hbodies : ∀ d ∈ closed, ∀ e, motive (closed.erase d) e := fun d hd e => resolving_induction step (closed.erase d) e
  exact step closed e hparts hbodies
termination_by (closed.length, e.size)
decreasing_by
  · exact Prod.Lex.right _ (size_lt_of_mem_parts hpart)
  · have := List.length_erase_of_mem hd
    have := List.length_pos_of_mem hd
    exact Prod.Lex.left _ _ (by omega)

/-- What resolving each type does to the store, resolving one after the other does. -/
theorem resolveAll_steps {R : Store → Store → Prop} (hrefl : ∀ s, R s s) (htrans : ∀ {s s' s''}, R s s' → R s' s'' → R s s'')
    {closed : List DeclarationId} {context : Context} {es : List TypeExpr}
    (h : ∀ e ∈ es, ∀ s, R s (p.resolve closed context e s).2) (s : Store) :
    R s (p.resolveAll closed context es s).2 := by
  induction es generalizing s with
  | nil =>
    rw [resolveAll]
    exact hrefl s
  | cons e rest ih =>
    rw [resolveAll, bind_apply, bind_apply, pure_apply]
    exact htrans (h e List.mem_cons_self s) (ih (fun e' he' => h e' (List.mem_cons_of_mem _ he')) _)

theorem length_resolveAll (closed : List DeclarationId) (context : Context) (es : List TypeExpr) (s : Store) :
    (p.resolveAll closed context es s).1.length = es.length := by
  induction es generalizing s with
  | nil =>
    rw [resolveAll]
    rfl
  | cons e rest ih =>
    rw [resolveAll, bind_apply, bind_apply, pure_apply, List.length_cons, List.length_cons, ih]

/-- Resolving a type makes nodes for it and its parts. -/
theorem resolve_ok (closed : List DeclarationId) (e : TypeExpr) (hnodup : closed.Nodup) (root : Root)
    (steps : List Nat) (context : Context) : p.Resolves closed root steps context e := by
  induction closed, e using resolving_induction generalizing root steps context with
  | step closed e hinner hbodies =>
    intro s c h hready hpart
    have hinner : ∀ part ∈ e.parts, ∀ steps, p.Resolves closed root steps context part :=
      fun part hpart steps => hinner part hpart hnodup root steps context
    rcases p.resolve_cases closed context e s with ⟨d, htarget, hrun⟩ | ⟨members, text, rfl, hrun⟩ |
      ⟨htarget, hmeet, events, hrun⟩
    · rw [hrun]
      have hvalid : ∃ declaration, p.declaration? d = some declaration := by
        obtain ⟨_, _, _, _, hlookup⟩ := target?_eq_some.1 htarget
        exact lookup?_valid hlookup
      exact named_ok htarget h hready hpart fun hheld =>
        resolveDeclaration_ok h hnodup hheld hvalid fun hd root steps context e =>
          hbodies d hd e (hnodup.erase d) root steps context
    · rw [hrun]
      obtain ⟨c₁, hadds, hparts⟩ := parts_ok hinner h hready hpart rfl (p.resolveAll closed context members s).2.events
      exact adds_intersection hready hpart hadds hparts
    · rw [hrun]
      obtain ⟨c₁, hadds, hparts⟩ := parts_ok hinner h hready hpart rfl events
      have hcell := adds_cellOf hready hpart hmeet hadds hparts fun d hd => by rw [htarget] at hd; cases hd
      exact hcell

end Project

end WireSchema
