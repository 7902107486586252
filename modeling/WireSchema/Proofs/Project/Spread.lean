import WireSchema.Proofs.Project.Costs
import WireSchema.Proofs.Project.Inherited
/-!
# The names of properties

An interface has the names of its own members first, as often as they are there,
and behind them names that are neither repeated nor among them. That is so
whenever its properties have been found, in cycles of interfaces too, and it
stays so, since a property keeps its name.
-/

namespace WireSchema

/-- The own names come first; those behind them are not repeated and not among
them. -/
def Spread (own names : List Text) : Prop :=
  ∃ others, names = own ++ others ∧ others.Nodup ∧ ∀ name ∈ others, name ∉ own

/-- Only own names can be repeated. -/
theorem Spread.nodup_iff {own names : List Text} (h : Spread own names) : names.Nodup ↔ own.Nodup := by
  obtain ⟨others, rfl, hothers, hout⟩ := h
  rw [List.nodup_append]
  refine ⟨fun h => h.1, fun hown => ⟨hown, hothers, fun name hname other hother => ?_⟩⟩
  rintro rfl
  exact hout name hother hname

theorem Spread.refl (own : List Text) : Spread own own := ⟨[], (List.append_nil own).symm, List.nodup_nil, nofun⟩

namespace Store

variable {s : Store}

/-- The properties that have been found are there. -/
def Filled (s : Store) : Prop :=
  ∀ t ids, (s.cell t).properties = .listed ids → ∀ q ∈ ids, q.index < s.properties.size

theorem filled_empty : ({} : Store).Filled := by
  intro t ids h q hq
  rw [cell_of_size_le (Nat.zero_le _)] at h
  cases h
  cases hq

end Store

namespace Project

open Resolving Store

variable {p : Project} {s s' s'' : Store} {d : DeclarationId} {t : TypeId}

/-- New names are not repeated, and none of the old ones is among them. -/
theorem names_withNewNames (s : Store) (names : List Text) (ids : List PropertyId) :
    ((withNewNames s names ids).map s.propertyName).Nodup ∧
      ∀ name ∈ (withNewNames s names ids).map s.propertyName, name ∉ names := by
  induction ids generalizing names with
  | nil => exact ⟨List.nodup_nil, nofun⟩
  | cons q rest ih =>
    rw [withNewNames]
    split
    next => exact ih names
    next hnew =>
      obtain ⟨hnodup, hout⟩ := ih (s.propertyName q :: names)
      rw [List.map_cons, List.nodup_cons]
      refine ⟨⟨fun hmem => hout _ hmem List.mem_cons_self, hnodup⟩, fun name hname => ?_⟩
      rcases List.mem_cons.1 hname with rfl | hname
      · exact fun hmem => hnew (List.contains_iff_mem.2 hmem)
      · exact fun hmem => hout name hname (List.mem_cons_of_mem _ hmem)

/-- The properties of an interface are still to be found, or their names are spread
behind those of its own members. -/
def SpreadAt (p : Project) (s : Store) (d : DeclarationId) (t : TypeId) : Prop :=
  (s.cell t).properties = .ofInterface d ∨ ∃ ids, (s.cell t).properties = .listed ids ∧
    ∀ parameters bases members, p.body? d = some (.interface parameters bases members) →
      Spread (members.map (·.name)) (ids.map s.propertyName)

/-- Types keep their nodes, properties their names, and interfaces theirs; an
interface that gets its type gets a new one. -/
structure Unfolds (p : Project) (s s' : Store) : Prop where
  size : s.types.size ≤ s'.types.size
  node : ∀ t : TypeId, t.index < s.types.size → s'.node t = s.node t
  count : s.properties.size ≤ s'.properties.size
  name : ∀ q : PropertyId, q.index < s.properties.size → s'.propertyName q = s.propertyName q
  filled : s.Filled → s'.Filled
  spread : s.Filled → ∀ d (t : TypeId), t.index < s.types.size → p.SpreadAt s d t → p.SpreadAt s' d t
  declared : s.Filled → ∀ d t, p.IsInterface d → (d, t) ∈ s'.declared →
    (d, t) ∈ s.declared ∨ s.types.size ≤ t.index ∧ t.index < s'.types.size ∧ p.SpreadAt s' d t

namespace Unfolds

theorem map_name (h : p.Unfolds s s') {ids : List PropertyId} (hids : ∀ q ∈ ids, q.index < s.properties.size) :
    ids.map s'.propertyName = ids.map s.propertyName :=
  List.map_congr_left fun q hq => h.name q (hids q hq)

/-- What is in the cells that were there is as it was, and so are the properties. -/
theorem of_cells (hsize : s.types.size ≤ s'.types.size)
    (hcells : ∀ t : TypeId, t.index < s.types.size → s'.cell t = s.cell t)
    (hfilled : ∀ t ids, s.types.size ≤ t.index → (s'.cell t).properties = .listed ids → ids = [])
    (hcount : s.properties.size ≤ s'.properties.size)
    (hname : ∀ q : PropertyId, q.index < s.properties.size → s'.propertyName q = s.propertyName q)
    (hdeclared : s'.declared = s.declared) : p.Unfolds s s' where
  size := hsize
  node t ht := congrArg TypeCell.node (hcells t ht)
  count := hcount
  name := hname
  filled hs t ids hids q hq := by
    by_cases ht : t.index < s.types.size
    · rw [hcells t ht] at hids
      exact Nat.lt_of_lt_of_le (hs t ids hids q hq) hcount
    · rw [hfilled t ids (Nat.le_of_not_lt ht) hids] at hq
      cases hq
  spread hs d t ht hspread := by
    rw [SpreadAt, hcells t ht]
    refine hspread.imp_right fun ⟨ids, hids, hnames⟩ => ⟨ids, hids, ?_⟩
    rwa [List.map_congr_left fun q hq => hname q (hs t ids hids q hq)]
  declared _ d t _ hd := .inl (hdeclared ▸ hd)

/-- The types are the same, and the properties have the names that they had. -/
theorem of_types (htypes : s'.types = s.types) (hcount : s.properties.size ≤ s'.properties.size)
    (hname : ∀ q : PropertyId, q.index < s.properties.size → s'.propertyName q = s.propertyName q)
    (hdeclared : s'.declared = s.declared) : p.Unfolds s s' := by
  have hcell (t : TypeId) : s'.cell t = s.cell t := by rw [cell, cell, htypes]
  refine of_cells (Nat.le_of_eq (by rw [htypes])) (fun t _ => hcell t) (fun t ids ht hids => ?_) hcount hname hdeclared
  rw [hcell t, cell_of_size_le ht] at hids
  cases hids
  rfl

theorem refl (s : Store) : p.Unfolds s s := of_types rfl (Nat.le_refl _) (fun _ _ => rfl) rfl

theorem trans (h : p.Unfolds s s') (h' : p.Unfolds s' s'') : p.Unfolds s s'' where
  size := Nat.le_trans h.size h'.size
  node t ht := (h'.node t (Nat.lt_of_lt_of_le ht h.size)).trans (h.node t ht)
  count := Nat.le_trans h.count h'.count
  name q hq := (h'.name q (Nat.lt_of_lt_of_le hq h.count)).trans (h.name q hq)
  filled hs := h'.filled (h.filled hs)
  spread hs d t ht hspread := h'.spread (h.filled hs) d t (Nat.lt_of_lt_of_le ht h.size) (h.spread hs d t ht hspread)
  declared hs d t hd hmem := by
    rcases h'.declared (h.filled hs) d t hd hmem with hmem | ⟨hnew, hlt, hspread⟩
    · rcases h.declared hs d t hd hmem with hmem | ⟨hnew, hlt, hspread⟩
      · exact .inl hmem
      · exact .inr ⟨hnew, Nat.lt_of_lt_of_le hlt h'.size, h'.spread (h.filled hs) d t hlt hspread⟩
    · exact .inr ⟨Nat.le_trans h.size hnew, hlt, hspread⟩

theorem events (s : Store) (events : List Event) : p.Unfolds s { s with events } :=
  of_types rfl (Nat.le_refl _) (fun _ _ => rfl) rfl

theorem added (s : Store) {cell : TypeCell} (hcell : ∀ ids, cell.properties = .listed ids → ids = []) :
    p.Unfolds s (s.added cell) := by
  refine of_cells (by simp) (fun t ht => cell_added ht) (fun t ids ht hids => ?_) (Nat.le_refl _) (fun _ _ => rfl) rfl
  rcases cell_added_cases s cell t with hsame | rfl
  · rw [hsame, cell_of_size_le ht] at hids
    cases hids
    rfl
  · rw [cell_added_self] at hids
    exact hcell ids hids

theorem withProperty (s : Store) (r : Property Resolution) : p.Unfolds s (s.withProperty r) := by
  refine of_types rfl (by simp [Store.withProperty]) (fun q hq => ?_) rfl
  rw [propertyName, propertyName, property?_withProperty s r hq]

theorem settled (s : Store) (q : PropertyId) (t : TypeId) : p.Unfolds s (settled s q t) := by
  refine of_types rfl (by simp [Project.settled]) (fun q' _ => ?_) rfl
  rw [propertyName, propertyName, property?_settled]
  split
  next heq => rw [heq, Option.map_map]; rfl
  next => rfl

/-- The declaration is given a type, an interface one that is made for it. -/
theorem declare (h : p.Unfolds s s')
    (hd : p.IsInterface d → s.types.size ≤ t.index ∧ t.index < s'.types.size ∧ (s'.cell t).properties = .ofInterface d) :
    p.Unfolds s (s'.declare d t) where
  size := h.size
  node := h.node
  count := h.count
  name := h.name
  filled := h.filled
  spread := h.spread
  declared hs d' t' hd' hmem := by
    rcases List.mem_cons.1 hmem with heq | hmem
    · cases heq
      obtain ⟨hnew, hlt, hcell⟩ := hd hd'
      exact .inr ⟨hnew, hlt, .inl hcell⟩
    · exact h.declared hs d' t' hd' hmem

/-- The properties are found of a type that had none when it was looked at. -/
theorem listing (h : p.Unfolds s s') (ht : t.index < s.types.size) (hpending : ∀ ids, (s.cell t).properties ≠ .listed ids)
    {ids : List PropertyId} (hids : s.Filled → ∀ q ∈ ids, q.index < s'.properties.size)
    (hspread : ∀ d, (s.cell t).properties = .ofInterface d → ∀ parameters bases members,
      p.body? d = some (.interface parameters bases members) →
        Spread (members.map (·.name)) (ids.map s'.propertyName)) :
    p.Unfolds s (s'.listing t ids) := by
  have ht' : t.index < s'.types.size := Nat.lt_of_lt_of_le ht h.size
  have hsize : (s'.listing t ids).types.size = s'.types.size := by simp [Store.listing]
  -- what the type was at first says which interface it is of
  have hself (d : DeclarationId) (hd : p.SpreadAt s d t) : p.SpreadAt (s'.listing t ids) d t := by
    rcases hd with hd | ⟨others, hothers, _⟩
    · exact .inr ⟨ids, listing_self s' ht' ids, hspread d hd⟩
    · exact absurd hothers (hpending others)
  have hother (d : DeclarationId) (u : TypeId) (hne : u ≠ t) (hu : p.SpreadAt s' d u) :
      p.SpreadAt (s'.listing t ids) d u := by
    rwa [SpreadAt, cell_listing s' ht', if_neg hne]
  refine ⟨hsize ▸ h.size, fun u hu => (node_listing s' ht' ids u).trans (h.node u hu), h.count, h.name,
    fun hs u ids' hu q hq => ?_, fun hs d u hu hd => ?_, fun hs d u hd hmem => ?_⟩
  · rw [cell_listing s' ht'] at hu
    split at hu
    · cases hu
      exact hids hs q hq
    · exact h.filled hs u ids' hu q hq
  · by_cases heq : u = t
    · exact heq ▸ hself d (heq ▸ hd)
    · exact hother d u heq (h.spread hs d u hu hd)
  · rcases h.declared hs d u hd hmem with hmem | ⟨hnew, hlt, hfound⟩
    · exact .inl hmem
    · have hne : u ≠ t := by
        rintro rfl
        exact Nat.not_lt_of_le hnew ht
      exact .inr ⟨hnew, hsize ▸ hlt, hother d u hne hfound⟩

end Unfolds

/-! ## Resolving -/

theorem lasting_unfolds (p : Project) : p.Lasting p.Unfolds where
  refl := Unfolds.refl
  trans h h' := h.trans h'
  events := Unfolds.events
  added s _ hcell := .added s hcell
  declare h hd := h.declare hd
  settled := Unfolds.settled

/-! ## Finding properties -/

/-- The properties that are found are there. -/
structure Finds (p : Project) (s : Store) (made : List PropertyId × Store) : Prop where
  unfolds : p.Unfolds s made.2
  there : s.Filled → ∀ q ∈ made.1, q.index < made.2.properties.size

theorem finds_flatten {α : Type} {f : α → Resolving (List PropertyId)} {as : List α}
    (h : ∀ a ∈ as, ∀ s, p.Finds s (f a s)) (s : Store) : p.Finds s ((as.mapM f s).1.flatten, (as.mapM f s).2) := by
  induction as generalizing s with
  | nil => exact ⟨.refl s, fun _ q hq => by cases hq⟩
  | cons a rest ih =>
    have hfirst := h a List.mem_cons_self s
    have hrest := ih (fun b hb => h b (List.mem_cons_of_mem a hb)) (f a s).2
    rw [mapM_cons]
    refine ⟨hfirst.unfolds.trans hrest.unfolds, fun hs q hq => ?_⟩
    rw [List.flatten_cons] at hq
    rcases List.mem_append.1 hq with hq | hq
    · exact Nat.lt_of_lt_of_le (hfirst.there hs q hq) hrest.unfolds.count
    · exact hrest.there (hfirst.unfolds.filled hs) q hq

/-- Own members are made with their names. -/
theorem pendingProperties_finds (context : Context) (members : List (Property TypeExpr)) (s : Store) :
    p.Finds s (pendingProperties context members s) ∧
      (∀ q ∈ (pendingProperties context members s).1,
        q.index < (pendingProperties context members s).2.properties.size) ∧
      (pendingProperties context members s).1.map (pendingProperties context members s).2.propertyName =
        members.map (·.name) := by
  suffices h : p.Unfolds s (pendingProperties context members s).2 ∧
      (∀ q ∈ (pendingProperties context members s).1,
        q.index < (pendingProperties context members s).2.properties.size) ∧
      (pendingProperties context members s).1.map (pendingProperties context members s).2.propertyName =
        members.map (·.name) from ⟨⟨h.1, fun _ => h.2.1⟩, h.2⟩
  induction members generalizing s with
  | nil => exact ⟨.refl s, nofun, rfl⟩
  | cons m rest ih =>
    have hfirst := Unfolds.withProperty (p := p) s { m with type := .pending context m.type }
    obtain ⟨hrest, hthere, hnames⟩ := ih (s.withProperty { m with type := .pending context m.type })
    have hnew : s.properties.size < (s.withProperty { m with type := .pending context m.type }).properties.size := by
      simp [Store.withProperty]
    rw [pendingProperties, mapM_cons]
    refine ⟨hfirst.trans hrest, fun q hq => ?_, ?_⟩
    · rcases List.mem_cons.1 hq with rfl | hq
      · exact Nat.lt_of_lt_of_le hnew hrest.count
      · exact hthere q hq
    · rw [List.map_cons, List.map_cons]
      refine congrArg₂ List.cons ((hrest.name ⟨s.properties.size⟩ hnew).trans ?_) hnames
      simp [propertyName, Store.property?, Store.withProperty]

/-- What the bases of an interface are searched for is there. -/
theorem base_finds (d : DeclarationId) (base : Base) {search : TypeId → Resolving (List PropertyId)}
    (hsearch : ∀ t s, p.Finds s (search t s)) (s : Store) :
    p.Finds s (p.searchBase d search base s) := by
  unfold searchBase
  cases p.lookup? d.unit base.name with
  | none => exact ⟨.events s _, fun _ q hq => by cases hq⟩
  | some target =>
    have htype := (lasting_unfolds p).declarationType target s
    have hnode : node (p.declarationType target s).1 (p.declarationType target s).2 =
      ((p.declarationType target s).2.node (p.declarationType target s).1, (p.declarationType target s).2) := rfl
    have hbehind {made : List PropertyId × Store} (hmade : p.Finds (p.declarationType target s).2 made) : p.Finds s made :=
      ⟨htype.trans hmade.unfolds, fun hs => hmade.there (htype.filled hs)⟩
    simp only [bind_apply, hnode]
    cases Shape.intersectionMembers? ((p.declarationType target s).2.node (p.declarationType target s).1) with
    | none => exact hbehind (hsearch _ _)
    | some parts => exact hbehind (finds_flatten (fun t (_ : t ∈ parts) => hsearch t) _)

section
variable {parameters : List Text} {bases : List Base} {members : List (Property TypeExpr)}

/-- It is enough to know the names for the one interface that the type is of. -/
theorem spread_of_interface (hproperties : (s.cell t).properties = .ofInterface d)
    (hbody : p.body? d = some (.interface parameters bases members)) {names : List Text}
    (h : Spread (members.map (·.name)) names) (d' : DeclarationId) (hd : (s.cell t).properties = .ofInterface d')
    (parameters' : List Text) (bases' : List Base) (members' : List (Property TypeExpr))
    (hbody' : p.body? d' = some (.interface parameters' bases' members')) : Spread (members'.map (·.name)) names := by
  rw [hproperties] at hd
  cases hd
  rw [hbody] at hbody'
  cases hbody'
  exact h

/-- The own members are kept whatever is found, and of what is found only new names. -/
theorem interface_finds (ht : t.index < s.types.size) (hproperties : (s.cell t).properties = .ofInterface d)
    (hbody : p.body? d = some (.interface parameters bases members)) {own found : List PropertyId × Store}
    (hown : p.Finds s own) (hthere : ∀ q ∈ own.1, q.index < own.2.properties.size)
    (hnames : own.1.map own.2.propertyName = members.map (·.name)) (hfound : p.Finds own.2 found) :
    let ids := own.1 ++ withNewNames found.2 (own.1.map found.2.propertyName) found.1
    p.Finds s (ids, found.2.listing t ids) := by
  intro ids
  have hlater := hown.unfolds.trans hfound.unfolds
  have hall (hs : s.Filled) (q : PropertyId) (hq : q ∈ ids) : q.index < found.2.properties.size := by
    rcases List.mem_append.1 hq with hq | hq
    · exact Nat.lt_of_lt_of_le (hthere q hq) hfound.unfolds.count
    · exact hfound.there (hown.unfolds.filled hs) q (mem_withNewNames hq)
  have hkept : own.1.map found.2.propertyName = members.map (·.name) := (hfound.unfolds.map_name hthere).trans hnames
  have hspread : Spread (members.map (·.name)) (ids.map found.2.propertyName) := by
    rw [List.map_append, hkept]
    exact ⟨_, rfl, names_withNewNames _ _ _⟩
  exact ⟨hlater.listing ht (by rw [hproperties]; nofun) hall (spread_of_interface hproperties hbody hspread), hall⟩

end

/-- Wherever the properties of a type are asked for, those that are found are there,
and interfaces have their names spread. -/
theorem propertiesIn_finds (idle : List DeclarationId) (t : TypeId) (s : Store) : p.Finds s (p.propertiesIn idle t s) := by
  induction idle, t, s using propertiesIn_induction with
  | listed idle t s ids hproperties hrun =>
    rw [hrun]
    exact ⟨.refl s, fun hs => hs t ids hproperties⟩
  | members idle t s context members hproperties hrun =>
    rw [hrun]
    have hlt := lt_of_not_listed fun ids h => by rw [hproperties] at h; cases h
    obtain ⟨hfinds, _⟩ := pendingProperties_finds (p := p) context members s
    refine ⟨hfinds.unfolds.listing hlt (fun ids h => by rw [hproperties] at h; cases h) hfinds.there fun d hd => ?_,
      hfinds.there⟩
    rw [hproperties] at hd
    cases hd
  | missing idle t s d _ _ hrun =>
    rw [hrun]
    exact ⟨.refl s, fun _ q hq => by cases hq⟩
  | busy idle t s d parameters bases members hproperties hbody _ hrun =>
    rw [hrun]
    have hlt := lt_of_not_listed fun ids h => by rw [hproperties] at h; cases h
    obtain ⟨hown, _, hnames⟩ := pendingProperties_finds (p := p) { unit := d.unit, parameters } members s
    exact ⟨hown.unfolds.listing hlt (by rw [hproperties]; exact fun ids hids => by cases hids) hown.there
      (spread_of_interface hproperties hbody (hnames ▸ .refl _)), hown.there⟩
  | entered idle t s d parameters bases members hproperties hbody _ hrun ih =>
    rw [hrun]
    have hlt := lt_of_not_listed fun ids h => by rw [hproperties] at h; cases h
    obtain ⟨hown, hthere, hnames⟩ := pendingProperties_finds (p := p) { unit := d.unit, parameters } members s
    have hbases := finds_flatten (fun base (_ : base ∈ bases) => base_finds d base ih)
      (pendingProperties { unit := d.unit, parameters } members s).2
    exact interface_finds hlt hproperties hbody hown hthere hnames hbases

end Project

end WireSchema
