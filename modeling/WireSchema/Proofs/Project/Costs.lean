import WireSchema.Proofs.Project.Budget
import WireSchema.Proofs.Project.Inherited
/-!
# The costs of resolving

Resolving an expression costs no more than its price, and the type of a
declaration is paid for by the declaration.
-/

namespace WireSchema.Project

open Resolving

variable {p : Project} {closed idle : List DeclarationId} {context : Context} {e : TypeExpr} {s s' : Store} {n : Nat}

/-! ## The node of an expression -/

theorem length_spanTypes_le (spans : List (Span TypeExpr)) (types : List TypeId) :
    (spanTypes (fillHoles spans types)).length ≤ types.length := by
  induction spans generalizing types with
  | nil => exact Nat.zero_le _
  | cons span rest ih =>
    cases span with
    | chunk t => exact ih types
    | hole e =>
      cases types with
      | nil => exact Nat.zero_le _
      | cons t types => exact Nat.succ_le_succ (ih types)

/-- A node refers to no more types than its expression has parts. -/
theorem price_nodeOf_le (s : Store) (context : Context) (types : List TypeId) (e : TypeExpr) :
    (p.nodeOf s context types e).price ≤ types.length + 1 := by
  have hleaf {n : TypeNode} (h : n.shape.children = []) : n.price ≤ types.length + 1 := by
    rw [TypeNode.price, h]
    split <;> simp
  cases e with
  | keyword name =>
    refine hleaf ?_
    rw [nodeOf]
    rcases keywordShape_cases name with h | h | h | h <;> rw [h] <;> rfl
  | template spans text =>
    rw [nodeOf]
    split
    · exact hleaf rfl
    · exact Nat.succ_le_succ (length_spanTypes_le spans types)
  | array element text => cases types <;> simp [nodeOf, TypeNode.price, TypeNode.isMix, Shape.children]
  | tuple elements text variadic => cases variadic <;> simp [nodeOf, TypeNode.price, TypeNode.isMix, Shape.children]
  | reference name arguments text =>
    rw [nodeOf]
    split
    · exact hleaf rfl
    · exact Nat.le_refl _
  | union members text => exact Nat.zero_le _
  | intersection members text => exact Nat.zero_le _
  | _ => exact hleaf rfl

/-- The price of an expression covers its node, besides the types of its parts. -/
theorem cellPrice_cellOf_le (s : Store) {types : List TypeId} (hlength : types.length = e.parts.length) :
    (e.parts.map TypeExpr.price).sum + p.cellPrice idle (p.cellOf s context types e) ≤ e.price := by
  have hparts := e.prices_parts_lt
  have hnode := price_nodeOf_le (p := p) s context types e
  cases e with
  | object members text =>
    have hprice := (TypeExpr.object members text).price_succ
    have hsize : (TypeExpr.object members text).size = TypeExpr.sizeMembers members + 1 := by rw [TypeExpr.size]
    show 0 + (1 + 2 * TypeExpr.sizeMembers members) ≤ _
    omega
  | _ =>
    simp only [cellPrice, cellOf, listingPrice]
    omega

theorem costs_cellOf (s s' : Store) {types : List TypeId} (hlength : types.length = e.parts.length) :
    p.Costs closed (e.price - (e.parts.map TypeExpr.price).sum) s (s.added (p.cellOf s' context types e)) := by
  refine costs_added s (fun d h => ?_) fun idle => Nat.le_sub_of_add_le' (cellPrice_cellOf_le s' hlength)
  cases e <;> cases h

/-- The price of the type covers what resolving it costs. -/
def Affords (p : Project) (closed : List DeclarationId) (context : Context) (e : TypeExpr) : Prop :=
  ∀ s, p.Costs closed e.price s (p.resolve closed context e s).2

/-! ## Types of declarations -/

section
variable {d : DeclarationId} {declaration : Declaration}

theorem weightOf_eq (hd : p.declaration? d = some declaration) :
    p.weightOf d = TypeSpec.declarationWeight declaration := by
  rw [weightOf, hd]
  rfl

theorem not_isAlias (hd : p.declaration? d = some declaration)
    (hbody : ∀ parameters e, declaration.body ≠ .typeAlias parameters e) : ¬ p.IsAlias d := by
  rintro ⟨parameters, e, halias⟩
  rw [body?_eq hd] at halias
  exact hbody parameters e (Option.some.inj halias)

theorem costs_leaf (text : Text) (s : Store) : p.Costs closed 1 s (addNode .other text none s).2 := by
  refine costs_added s (fun d h => ?_) fun _ => Nat.le_refl 1
  cases h

/-- The node of an interface and its properties, made twice. -/
theorem costs_interface (hd : p.declaration? d = some declaration) {parameters : List Text} {bases : List Base}
    {members : List (Property TypeExpr)} (hkind : declaration.body = .interface parameters bases members)
    (hnone : s.declared? d = none) :
    p.Costs closed 0 s ((s.added (interfaceCell d declaration parameters)).declare d ⟨s.types.size⟩) where
  within idle :=
    { size := by simp [Store.declare]
      homes := fun hs t d' ht => by
        rcases s.cell_added_cases (interfaceCell d declaration parameters) t with heq | rfl
        · exact declared?_declare hnone (hs t d' (by rw [← heq]; exact ht))
        · have hself := Store.cell_added_self s (interfaceCell d declaration parameters)
          rw [show ((s.added _).declare d _).cell _ = (s.added _).cell _ from rfl, hself] at ht
          cases ht
          exact declared?_declare_self _ _ _
      declared := fun d' id' hd' => declared?_declare hnone hd'
      budget := fun _ => by
        have hdeclare := budget_declare idle (mem_declarationIds hd)
          (s := s.added (interfaceCell d declaration parameters)) hnone ⟨s.types.size⟩
        have hsize : p.membersSize d = TypeExpr.sizeMembers members := by rw [membersSize, body?_eq hd, hkind]
        have hcell : p.cellPrice idle (interfaceCell d declaration parameters) ≤
            1 + 4 * TypeExpr.sizeMembers members := by
          rw [← hsize]
          show 1 + (if d ∈ idle then 4 else 2) * p.membersSize d ≤ _
          split <;> omega
        rw [budget_added, weightOf_eq hd, TypeSpec.declarationWeight, hkind] at hdeclare
        simp only at hdeclare
        omega }
  properties := rfl
  closes d' hd' _ hnone' := by
    have hne : d' ≠ d := by
      rintro rfl
      exact not_isAlias hd (fun _ _ h => by rw [hkind] at h; cases h) hd'
    rw [declared?_declare_of_ne hne]
    exact hnone'

theorem costs_enumeration (hd : p.declaration? d = some declaration) {members : List EnumMember}
    (hkind : declaration.body = .enumeration members) (hnone : s.declared? d = none) :
    let made := enumeration declaration.name members s
    p.Costs closed 0 s (made.2.declare d made.1) := by
  have hvalues := mapM_steps (R := p.Costs closed) Costs.refl Costs.trans
    (fun m (_ : m ∈ members) => costs_leaf (m.value.getD (declaration.name ++ "." ++ m.name))) s
  have hmade : p.Costs closed (members.length * 1 + 0) s (enumeration declaration.name members s).2 :=
    hvalues.trans (costs_mix (by rfl) _)
  refine hmade.declare (fun _ h => h) (fun halias => absurd halias ?_) (mem_declarationIds hd) ?_ ?_ _
  · exact not_isAlias hd fun _ _ h => by rw [hkind] at h; cases h
  · have hsame := mapM_steps (R := fun _ s s' => s'.declared = s.declared) (n := 0) (fun _ => rfl)
      (fun h h' => h'.trans h)
      (fun (m : EnumMember) (_ : m ∈ members) s =>
        show (addNode .other (m.value.getD (declaration.name ++ "." ++ m.name)) none s).2.declared = s.declared from rfl) s
    exact (congrArg (List.lookup d) hsame).trans hnone
  · rw [weightOf_eq hd, TypeSpec.declarationWeight, hkind]
    simp only
    omega

/-- The type of a declaration costs nothing beyond what the declaration pays for,
but an alias that is met again takes a node for its name. -/
theorem Declaring.costs {made : TypeId × Store} (h : p.Declaring closed d s made)
    (hinner : d ∈ closed → ∀ context e, p.Affords (closed.erase d) context e)
    (hnodup : closed.Nodup) (hvalid : ∃ declaration, p.declaration? d = some declaration) :
    p.Costs closed 0 s made.2 ∨ (p.IsAlias d ∧ d ∉ closed ∧ p.Costs closed 1 s made.2) := by
  cases h with
  | known _ => exact .inl (.refl s)
  | missing _ hd =>
    obtain ⟨declaration, hsome⟩ := hvalid
    rw [hd] at hsome
    cases hsome
  | interface hnone hd hkind => exact .inl (costs_interface hd hkind hnone)
  | enumeration hnone hd hkind hmade =>
    subst hmade
    exact .inl (costs_enumeration hd hkind hnone)
  | @definition declaration parameters e made hnone hd hkind hclosed hmade =>
    have halias : p.IsAlias d := ⟨parameters, e, (body?_eq hd).trans (congrArg some hkind)⟩
    have hbody := hmade ▸ hinner hclosed { unit := d.unit, parameters } e s
    have hprice := e.price_succ
    refine .inl (hbody.declare (fun _ => List.mem_of_mem_erase) (fun _ => hclosed) (mem_declarationIds hd)
      (hbody.closes d halias hnodup.not_mem_erase hnone) ?_ _)
    rw [weightOf_eq hd, TypeSpec.declarationWeight, hkind]
    simp only
    omega
  | @circular declaration parameters e _ hd hkind hclosed =>
    have halias : p.IsAlias d := ⟨parameters, e, (body?_eq hd).trans (congrArg some hkind)⟩
    exact .inr ⟨halias, hclosed, (costs_events closed s _).trans (costs_leaf _ _)⟩

end

/-! ## Any type -/

theorem resolveAll_costs {es : List TypeExpr} (h : ∀ e ∈ es, p.Affords closed context e) (s : Store) :
    p.Costs closed (es.map TypeExpr.price).sum s (p.resolveAll closed context es s).2 := by
  induction es generalizing s with
  | nil =>
    rw [resolveAll]
    exact .refl s
  | cons e rest ih =>
    rw [resolveAll, bind_apply, bind_apply, pure_apply, List.map_cons, List.sum_cons]
    exact (h e List.mem_cons_self s).trans (ih (fun e he => h e (List.mem_cons_of_mem _ he)) _)

/-- Resolving a type costs no more than its price. -/
theorem resolve_costs (closed : List DeclarationId) (e : TypeExpr) (hnodup : closed.Nodup) (context : Context) :
    p.Affords closed context e := by
  induction closed, e using resolving_induction generalizing context with
  | step closed e hinner hbodies =>
    intro s
    have hparts := e.prices_parts_lt
    have hinner : ∀ part ∈ e.parts, p.Affords closed context part := fun part hpart => hinner part hpart hnodup context
    rcases p.resolve_cases closed context e s with ⟨d, htarget, hrun⟩ | ⟨members, text, rfl, hrun⟩ |
      ⟨_, _, events, hrun⟩
    · obtain ⟨_, _, _, _, hlookup⟩ := target?_eq_some.1 htarget
      have hbody (hd : d ∈ closed) (context : Context) (e : TypeExpr) : p.Affords (closed.erase d) context e :=
        hbodies d hd e (hnodup.erase d) context
      rw [hrun]
      rcases (p.declaring closed d s).costs hbody hnodup (lookup?_valid hlookup) with hcosts | ⟨_, _, hcosts⟩
      · exact hcosts.mono (Nat.zero_le _)
      · exact hcosts.mono (by omega)
    · rw [hrun]
      exact ((resolveAll_costs hinner s).trans (makeIntersection_costs _ _ _)).mono (by omega)
    · rw [hrun]
      have hcosts := (resolveAll_costs hinner s).trans (costs_events closed _ events)
      exact (hcosts.trans (costs_cellOf _ _ (length_resolveAll closed context e.parts s))).mono (by omega)

/-- The type of a declaration, all aliases being closed. -/
theorem declarationType_costs {d : DeclarationId} (hvalid : ∃ declaration, p.declaration? d = some declaration)
    (s : Store) : p.Costs p.aliases 0 s (p.declarationType d s).2 := by
  have hbody (_ : d ∈ p.aliases) (context : Context) (e : TypeExpr) : p.Affords (p.aliases.erase d) context e :=
    resolve_costs _ e ((nodup_aliases p).erase d) context
  rcases (p.declaring p.aliases d s).costs hbody (nodup_aliases p) hvalid with hcosts | ⟨halias, hout, _⟩
  · exact hcosts
  · exact absurd (mem_aliases halias) hout

/-! ## Properties -/

theorem pendingProperties_eq (context : Context) (m : Property TypeExpr) (rest : List (Property TypeExpr)) (s : Store) :
    (pendingProperties context (m :: rest) s).2 =
      (pendingProperties context rest (s.withProperty { m with type := .pending context m.type })).2 := by
  rw [pendingProperties, mapM_cons]
  rfl

theorem pendingProperties_types (context : Context) (members : List (Property TypeExpr)) (s : Store) :
    (pendingProperties context members s).2.types = s.types := by
  induction members generalizing s with
  | nil => rfl
  | cons m rest ih => rw [pendingProperties_eq, ih, Store.withProperty]

theorem pendingProperties_within (context : Context) (members : List (Property TypeExpr)) (s : Store) :
    p.Within idle (2 * TypeExpr.sizeMembers members) s (pendingProperties context members s).2 := by
  induction members generalizing s with
  | nil => exact .refl s
  | cons m rest ih =>
    have hone : p.Within idle (2 * m.type.size) s (s.withProperty { m with type := .pending context m.type }) :=
      ⟨Nat.le_refl _, id, fun _ _ h => h, fun _ => Nat.le_of_eq (budget_withProperty idle s context m)⟩
    rw [pendingProperties_eq]
    refine (hone.trans (ih _)).mono ?_
    rw [TypeExpr.sizeMembers]
    omega

theorem lt_of_not_listed {t : TypeId} (h : ∀ ids, (s.cell t).properties ≠ .listed ids) : t.index < s.types.size := by
  refine Nat.lt_of_not_le fun hle => h [] ?_
  rw [Store.cell_of_size_le hle]
  rfl

/-- What is found costs nothing more. -/
theorem listing_within {t : TypeId} (ht : t.index < s.types.size) (ids : List PropertyId) :
    p.Within idle 0 s (s.listing t ids) where
  size := by simp [Store.listing]
  homes hs u d hu := by
    rw [Store.cell_listing s ht] at hu
    split at hu
    · cases hu
    · exact hs u d hu
  declared _ _ h := h
  budget _ := by
    have := budget_listing (p := p) idle ht ids
    omega

/-- Properties that are all new are paid for by what was kept for them. -/
theorem Within.found {t : TypeId} (h : p.Within idle n s s') (ht : t.index < s'.types.size)
    (hpaid : n ≤ p.listingPrice idle (s'.cell t).properties) (ids : List PropertyId) :
    p.Within idle 0 s (s'.listing t ids) :=
  { h.trans (listing_within ht ids) with
    budget := fun hs => by
      have := h.budget hs
      have := budget_listing (p := p) idle ht ids
      omega }

/-! ## What resolving keeps -/

/-- The relation is kept by each change that resolving makes to a store. An interface that gets
its type gets a new one. -/
structure Lasting (p : Project) (R : Store → Store → Prop) : Prop where
  refl : ∀ s, R s s
  trans : ∀ {s s' s''}, R s s' → R s' s'' → R s s''
  events : ∀ s events, R s { s with events }
  added : ∀ s {cell : TypeCell}, (∀ ids, cell.properties = .listed ids → ids = []) → R s (s.added cell)
  declare : ∀ {s s' : Store} {d : DeclarationId} {t : TypeId}, R s s' →
    (p.IsInterface d → s.types.size ≤ t.index ∧ t.index < s'.types.size ∧ (s'.cell t).properties = .ofInterface d) →
    R s (s'.declare d t)
  settled : ∀ s q t, R s (settled s q t)

theorem not_isInterface {d : DeclarationId} {declaration : Declaration} (hd : p.declaration? d = some declaration)
    (hkind : ∀ parameters bases members, declaration.body ≠ .interface parameters bases members) : ¬ p.IsInterface d := by
  rintro ⟨parameters, bases, members, hbody⟩
  rw [body?_eq hd] at hbody
  exact hkind parameters bases members (Option.some.inj hbody)

namespace Lasting

variable {R : Store → Store → Prop} {d : DeclarationId}

theorem mapM (h : p.Lasting R) {α β : Type} {f : α → Resolving β} {as : List α} (hstep : ∀ a ∈ as, ∀ s, R s (f a s).2)
    (s : Store) : R s (as.mapM f s).2 :=
  mapM_steps (R := fun _ => R) (n := 0) h.refl h.trans hstep s

theorem node (h : p.Lasting R) (s : Store) (node : TypeNode) : R s (s.added { node }) :=
  h.added s fun ids hids => by cases hids; rfl

theorem declaring {made : TypeId × Store} (h : p.Lasting R) (hmade : p.Declaring closed d s made)
    (hbody : d ∈ closed → ∀ e context s, R s (p.resolve (closed.erase d) context e s).2) : R s made.2 := by
  cases hmade with
  | known _ => exact h.refl s
  | missing _ _ => exact h.node s _
  | @interface declaration parameters bases members _ hd hkind =>
    have hadded : R s (s.added (interfaceCell d declaration parameters)) := h.added s fun ids hids => by cases hids
    apply h.declare hadded
    intro _
    exact ⟨Nat.le_refl _, by simp, by rw [Store.cell_added_self]; rfl⟩
  | @enumeration declaration members made _ hd hkind hmade =>
    subst hmade
    have hvalues : R s (members.mapM (fun m => addNode .other (m.value.getD (declaration.name ++ "." ++ m.name))) s).2 :=
      h.mapM (fun _ _ s => h.node s _) s
    apply h.declare (h.trans hvalues (h.node _ _))
    intro hinterface
    exact absurd hinterface (not_isInterface hd fun _ _ _ heq => by rw [hkind] at heq; cases heq)
  | @definition declaration parameters e made _ hd hkind hclosed hmade =>
    subst hmade
    apply h.declare (hbody hclosed e { unit := d.unit, parameters } s)
    intro hinterface
    exact absurd hinterface (not_isInterface hd fun _ _ _ heq => by rw [hkind] at heq; cases heq)
  | circular _ _ _ _ => exact h.trans (h.events s _) (h.node _ _)

theorem resolve (h : p.Lasting R) (closed : List DeclarationId) (e : TypeExpr) (context : Context) (s : Store) :
    R s (p.resolve closed context e s).2 := by
  induction closed, e using resolving_induction generalizing context s with
  | step closed e hparts hbodies =>
    have hall := resolveAll_steps h.refl h.trans fun part hpart s => hparts part hpart context s
    rcases p.resolve_cases closed context e s with ⟨d, _, hrun⟩ | ⟨members, text, rfl, hrun⟩ | ⟨_, _, events, hrun⟩
    · rw [hrun]
      exact h.declaring (p.declaring closed d s) (hbodies d)
    · rw [hrun]
      exact h.trans (hall s) (makeIntersection_steps h.refl h.trans (fun s node _ => h.node s node) _ _ _)
    · rw [hrun]
      apply h.trans (h.trans (hall s) (h.events _ events))
      apply h.added
      intro ids hids
      cases e <;> cases hids <;> rfl

theorem declarationType (h : p.Lasting R) (d : DeclarationId) (s : Store) : R s (p.declarationType d s).2 :=
  h.declaring (p.declaring p.aliases d s) fun _ => h.resolve _

theorem propertyType (h : p.Lasting R) (q : PropertyId) (s : Store) : R s (p.propertyType q s).2 := by
  rw [Project.propertyType, bind_apply]
  cases hfound : s.resolution? q with
  | none =>
    simp only [get_apply, hfound]
    exact h.node s _
  | some r =>
    simp only [get_apply, hfound]
    cases r with
    | done t => exact h.refl s
    | pending context e => exact h.trans (h.resolve p.aliases e context s) (h.settled _ q _)

end Lasting

/-! ## Finding properties -/

/-- A base of an interface is looked up, and its type is searched. -/
theorem base_steps {R : Store → Store → Prop} (hrefl : ∀ s, R s s)
    (htrans : ∀ {s s' s''}, R s s' → R s' s'' → R s s'') (hevents : ∀ s events, R s { s with events })
    (htype : ∀ d s, (∃ declaration, p.declaration? d = some declaration) → R s (p.declarationType d s).2)
    (d : DeclarationId) (base : Base) {search : TypeId → Resolving (List PropertyId)}
    (hsearch : ∀ t s, R s (search t s).2) (s : Store) :
    R s (p.searchBase d search base s).2 := by
  unfold searchBase
  cases hlookup : p.lookup? d.unit base.name with
  | none => exact hevents s _
  | some target =>
    have htype := htype target s (lookup?_valid hlookup)
    have hnode : node (p.declarationType target s).1 (p.declarationType target s).2 =
      ((p.declarationType target s).2.node (p.declarationType target s).1, (p.declarationType target s).2) := rfl
    simp only [bind_apply, hnode]
    cases Shape.intersectionMembers? ((p.declarationType target s).2.node (p.declarationType target s).1) with
    | none => exact htrans htype (hsearch _ _)
    | some parts =>
      exact htrans htype
        (mapM_steps (R := fun _ => R) (n := 0) hrefl htrans (fun t (_ : t ∈ parts) => hsearch t) _)

/-- What resolving, making own properties and listing what is found do to the store,
finding properties does. -/
theorem propertiesIn_steps {R : Store → Store → Prop} (hrefl : ∀ s, R s s)
    (htrans : ∀ {s s' s''}, R s s' → R s' s'' → R s s'') (hevents : ∀ s events, R s { s with events })
    (htype : ∀ d s, R s (p.declarationType d s).2) (hlisting : ∀ t ids s, R s (s.listing t ids))
    (hmembers : ∀ t context members s, (s.cell t).properties = .ofMembers context members →
      R s (pendingProperties context members s).2)
    (hinterface : ∀ d parameters bases members s, p.body? d = some (.interface parameters bases members) →
      R s (pendingProperties { unit := d.unit, parameters } members s).2)
    (idle : List DeclarationId) (t : TypeId) (s : Store) : R s (p.propertiesIn idle t s).2 := by
  induction idle, t, s using propertiesIn_induction with
  | listed idle t s ids _ hrun =>
    rw [hrun]
    exact hrefl s
  | members idle t s context members hproperties hrun =>
    rw [hrun]
    exact htrans (hmembers t context members s hproperties) (hlisting t _ _)
  | missing idle t s d _ _ hrun =>
    rw [hrun]
    exact hrefl s
  | busy idle t s d parameters bases members _ hbody _ hrun =>
    rw [hrun]
    exact htrans (hinterface d parameters bases members s hbody) (hlisting t _ _)
  | entered idle t s d parameters bases members _ hbody _ hrun ih =>
    rw [hrun]
    have hbases := mapM_steps (R := fun _ => R) (n := 0) hrefl htrans
      (fun base (_ : base ∈ bases) => base_steps hrefl htrans hevents (fun d s _ => htype d s) d base ih)
      (pendingProperties { unit := d.unit, parameters } members s).2
    exact htrans (htrans (hinterface d parameters bases members s hbody) hbases) (hlisting t _ _)

/-- The properties of an interface are found while it is not idle. -/
theorem interface_within (hnodup : idle.Nodup) {d : DeclarationId} (hd : d ∈ idle) {t : TypeId}
    (hproperties : (s.cell t).properties = .ofInterface d) (hown : p.Within idle (2 * p.membersSize d) s s')
    (htypes : s'.types = s.types) {s'' : Store} (hbases : p.Within (idle.erase d) 0 s' s'')
    (ht : t.index < s''.types.size) (ids : List PropertyId) : p.Within idle 0 s (s''.listing t ids) := by
  have hlisting (idle : List DeclarationId) : p.Within idle 0 s'' (s''.listing t ids) := listing_within ht ids
  have hdeclared (d' : DeclarationId) (id : TypeId) (hd' : s.declared? d' = some id) : s''.declared? d' = some id :=
    hbases.declared d' id (hown.declared d' id hd')
  have hhomes (hs : s.Homes) : (s''.listing t ids).Homes := (hlisting idle).homes (hbases.homes (hown.homes hs))
  have hsize : s.types.size ≤ s''.types.size := Nat.le_trans hown.size hbases.size
  refine ⟨Nat.le_trans hsize (hlisting idle).size, hhomes, hdeclared, fun hs => ?_⟩
  -- the own node of the interface has its properties now, and no other has to find them
  have hnone (u : TypeId) : ((s''.listing t ids).cell u).properties ≠ .ofInterface d := by
    intro hu
    have hhome : s''.declared? d = some u := hhomes hs u d hu
    rw [hdeclared d t (hs t d hproperties)] at hhome
    cases hhome
    rw [listing_self s'' ht] at hu
    cases hu
  have hcell : (s'.cell t).properties = .ofInterface d := by
    rw [Store.cell, htypes]
    exact hproperties
  have hpaid := hown.budget hs
  have hmembers : p.budget (idle.erase d) s' + 2 * p.membersSize d = p.budget idle s' :=
    budget_erase hnodup hd (hown.homes hs) hcell
  have hfound := hbases.budget (hown.homes hs)
  have hlisted := (hlisting (idle.erase d)).budget (hbases.homes (hown.homes hs))
  have hafter : p.budget (idle.erase d) (s''.listing t ids) = p.budget idle (s''.listing t ids) :=
    budget_erase_of_not hnone
  omega

/-- What the own properties of an interface cost. -/
theorem ownProperties_within {d : DeclarationId} {parameters : List Text} {bases : List Base}
    {members : List (Property TypeExpr)} (hbody : p.body? d = some (.interface parameters bases members)) (s : Store) :
    p.Within idle (2 * p.membersSize d) s (pendingProperties { unit := d.unit, parameters } members s).2 := by
  have hsize : p.membersSize d = TypeExpr.sizeMembers members := by rw [membersSize, hbody]
  rw [hsize]
  exact pendingProperties_within _ members s

/-- Finding properties costs nothing: what they are made of is paid for by the
type that they belong to. -/
theorem propertiesIn_within (idle : List DeclarationId) (hnodup : idle.Nodup) (type : TypeId) (s : Store) :
    p.Within idle 0 s (p.propertiesIn idle type s).2 := by
  -- one case for each branch; the price of a listing is paid when it is found
  induction idle, type, s using propertiesIn_induction with
  | listed idle type s ids _ hrun =>
    rw [hrun]
    exact .refl s
  | members idle type s context members hproperties hrun =>
    rw [hrun]
    have hlt := lt_of_not_listed fun ids h => by rw [hproperties] at h; cases h
    have htypes := pendingProperties_types context members s
    refine (pendingProperties_within context members s).found (by rw [htypes]; exact hlt) ?_ _
    have hprice : p.listingPrice idle (s.cell type).properties = 2 * TypeExpr.sizeMembers members := by
      rw [hproperties, listingPrice]
    rw [Store.cell, htypes]
    exact Nat.le_of_eq hprice.symm
  | missing idle type s d _ _ hrun =>
    rw [hrun]
    exact .refl s
  | busy idle type s d parameters bases members hproperties hbody hidle hrun =>
    rw [hrun]
    have hlt := lt_of_not_listed fun ids h => by rw [hproperties] at h; cases h
    have htypes := pendingProperties_types { unit := d.unit, parameters } members s
    refine (ownProperties_within hbody s).found (by rw [htypes]; exact hlt) ?_ _
    rw [Store.cell, htypes]
    have hprice : p.listingPrice idle (s.cell type).properties = 2 * p.membersSize d := by
      rw [hproperties, listingPrice, if_neg hidle]
    exact Nat.le_of_eq hprice.symm
  | entered idle type s d parameters bases members hproperties hbody hidle hrun ih =>
    rw [hrun]
    have hlt := lt_of_not_listed fun ids h => by rw [hproperties] at h; cases h
    have hown : p.Within idle _ s _ := ownProperties_within hbody s
    have hbases := mapM_steps (R := p.Within (idle.erase d)) Within.refl Within.trans
      (fun base (_ : base ∈ bases) => base_steps Within.refl Within.trans
        (fun s events => (costs_events [] s events).within _)
        (fun _ s hvalid => (declarationType_costs hvalid s).within _) d base
        fun t s => ih t s (hnodup.erase d))
      (pendingProperties { unit := d.unit, parameters } members s).2
    exact interface_within hnodup hidle hproperties hown (pendingProperties_types _ members s) hbases
      (Nat.lt_of_lt_of_le hlt (Nat.le_trans hown.size hbases.size)) _

/-- The type of a property is paid for by the property. -/
theorem propertyType_within {q : PropertyId} (hq : q.index < s.properties.size) :
    p.Within idle 0 s (p.propertyType q s).2 := by
  have hr : s.property? q = some s.properties[q.index] := Array.getElem?_eq_getElem hq
  have hknown : s.resolution? q = some s.properties[q.index].type := by rw [Store.resolution?, hr]; rfl
  rw [propertyType, bind_apply]
  simp only [get_apply, hknown]
  cases htype : s.properties[q.index].type with
  | done t => exact .refl s
  | pending context e =>
    have hcosts := resolve_costs (p := p) p.aliases e (nodup_aliases p) context s
    have hr' : (p.resolve p.aliases context e s).2.property? q = some s.properties[q.index] := by
      rw [Store.property?, hcosts.properties]
      exact hr
    have hwithin := hcosts.within idle
    refine ⟨hwithin.size, hwithin.homes, hwithin.declared, fun hs => ?_⟩
    show p.budget idle (settled (p.resolve p.aliases context e s).2 q (p.resolve p.aliases context e s).1) ≤ _
    have hpaid := hwithin.budget hs
    have hsettled := budget_settled (p := p) idle hr' (p.resolve p.aliases context e s).1
    have hprice := e.price_succ
    rw [htype, Resolution.price] at hsettled
    omega

end WireSchema.Project
