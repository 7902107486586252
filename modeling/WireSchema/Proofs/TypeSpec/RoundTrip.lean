import WireSchema.Proofs.TypeSpec.Written
/-!
# Reading what is written

Each kind of type is written as a text that spells it, if what it is made of is.
So a type whose names the project does not declare is read back from its text.
-/

namespace WireSchema.TypeSpec

open Source TypeExpr TypeGrammar Project Store Converting

variable {p : Project} {setting : Setting}

/-! ## Types without parts -/

theorem canWrite_keyword (h : setting.Plain) {name : Text} (hname : name ∈ keywords) :
    CanWrite setting (.keyword name) := by
  refine canWrite_of_own h rfl fun context lo s path fuel hhas _ _ => ?_
  have hcell : s.cell ((TypeExpr.keyword name).top lo) = plainCell (Resolving.keywordShape name) name :=
    Has.top (a := []) hhas rfl
  obtain ⟨events, hrun⟩ := convertWith_keyword h (convertIn setting fuel) path
    (show (s.node _).shape = _ by rw [Store.node, hcell]; rfl) (by rw [Store.node, hcell]; rfl)
  exact ⟨_, _, hrun, .events s events, shown_keyword hname⟩

/-- A type that is kept as a text is written as that text. -/
theorem canWrite_other (h : setting.Plain) {e : TypeExpr} (hunion : e.isUnion = false)
    (hcount : e.cellCount = 1)
    (hcells : ∀ context lo, ∃ t, cells context lo e = [plainCell .other t] ∧ Shown e.flat t) :
    CanWrite setting e := by
  refine canWrite_of_own h hunion fun context lo s path fuel hhas _ _ => ?_
  obtain ⟨t, ht, hshown⟩ := hcells context lo
  rw [ht] at hhas
  have hcell : s.cell (e.top lo) = plainCell .other t := Has.top (a := []) hhas hcount.symm
  obtain ⟨events, hrun⟩ := convertWith_other (convertIn setting fuel) path
    (show (s.node _).shape = _ by rw [Store.node, hcell]; rfl)
  have htext : (s.node (e.top lo)).text = t := by rw [Store.node, hcell]; rfl
  rw [htext] at hrun
  exact ⟨_, _, hrun, .events s events, hshown⟩

theorem canWrite_literal (h : setting.Plain) {t : Text} (ht : LiteralText t) : CanWrite setting (.literal t) :=
  canWrite_other h rfl rfl fun _ _ => ⟨t, rfl, shown_literal ht⟩

/-- A type parameter is written as its name, any other name as it stands. -/
theorem canWrite_name (h : setting.Plain) {name t : Text} (ht : ReferenceText name t)
    (hreserved : name ∉ reservedWords) : CanWrite setting (.reference name [] t) := by
  refine canWrite_other h rfl rfl fun context lo => ⟨_, rfl, ?_⟩
  cases context.parameters.contains name with
  | true => exact shown_reference (referenceText_name ht) hreserved t
  | false => exact shown_reference ht hreserved t

/-! ## Types with parts -/

section
variable {fuel lo : Nat} {path : List TypeId} {s : Store} {context : Context} {es : List TypeExpr}

/-- What the parts are written as, each with its type. -/
theorem references_of_writes {changed : Nat → Prop} {ids : List TypeId}
    (h : Writes setting fuel path s changed ids es) :
    ∃ (layouts : List Layout) (s' : Store) (ps : List (TypeExpr × Text)),
      references setting (convertIn setting fuel) path ids s = some (layouts, s') ∧
      s.Keeps s' changed nowhere ∧ es = ps.map Prod.fst ∧ layouts.map (·.render) = ps.map Prod.snd ∧
      ∀ p ∈ ps, Shown p.1 p.2 := by
  obtain ⟨layouts, s', hrun, hkeeps, ps, hes, hts, hshown⟩ := h
  exact ⟨layouts, s', ps, hrun, hkeeps, hes.symm, hts.symm, hshown⟩

theorem keeps_parts {s' : Store} {n : Nat} (h : s.Keeps s' (within lo (lo + n)) nowhere) :
    s.Keeps s' (within lo (lo + (n + 1))) nowhere :=
  h.mono (fun _ _ hi => ⟨hi.1, by have := hi.2; omega⟩) fun _ => id

/-- The own cell of a type stands behind those of its parts. -/
theorem shape_top {e : TypeExpr} {as : List TypeCell} {c : TypeCell} (h : s.Has lo (as ++ [c]))
    (hlen : as.length + 1 = e.cellCount) : (s.node (e.top lo)).shape = c.node.shape := by
  rw [Store.node, h.top hlen]

end

theorem canWrite_array (h : setting.Plain) {element : TypeExpr} (x : Text)
    (hconvertible : p.Convertible element) (he : CanWrite setting element) :
    CanWrite setting (.array element x) := by
  refine canWrite_of_own h rfl fun context lo s path fuel hhas hpath hfuel => ?_
  obtain ⟨hfresh, hpath⟩ := hpath.enter rfl hhas.room
  rw [size] at hfuel
  rw [cells] at hhas
  have hshape := shape_top (e := .array element x) hhas (by rw [cells_length context lo]; rfl)
  obtain ⟨layout, s', hrun, hkeeps, hshown⟩ := (writes_one h).1
    (he context lo s _ fuel hhas.left hpath (by omega)).1
  obtain ⟨array, harray, hrender⟩ := arrayOf_apply h hrun
  refine ⟨array, s', ?_, keeps_parts hkeeps, ?_⟩
  · rw [convertWith_apply]
    simp only [hshape, plainCell, hfresh, Bool.false_eq_true, if_false]
    exact harray
  · have hunion : (s'.node (element.top lo)).isUnion = element.isUnion := by
      rw [hkeeps.nodes _ hhas.left.top_lt]
      exact hhas.left.isUnion
    have hchained : element.flat.isChained = element.isUnion := by
      rw [isChained, isUnion_flat, isIntersection_flat, hconvertible.isIntersection, Bool.or_false]
    rw [hrender, hunion, ← hchained]
    exact hshown.array x

theorem canWrite_tuple (h : setting.Plain) {elements : List TypeExpr} (x : Text)
    (he : ∀ e ∈ elements, CanWrite setting e) : CanWrite setting (.tuple elements x false) := by
  refine canWrite_of_own h rfl fun context lo s path fuel hhas hpath hfuel => ?_
  obtain ⟨hfresh, hpath⟩ := hpath.enter rfl hhas.room
  rw [size] at hfuel
  rw [cells] at hhas
  have hshape := shape_top (e := .tuple elements x false) hhas (by rw [cellsAll_length context lo]; rfl)
  obtain ⟨layouts, s', ps, hrun, hkeeps, hes, hts, hshown⟩ :=
    references_of_writes (writes_all he hhas.left hpath (Nat.le_of_succ_le_succ hfuel)).1
  refine ⟨.concat ["[", .join ", " layouts, "]"], s', ?_, keeps_parts hkeeps, ?_⟩
  · rw [convertWith_apply]
    simp only [hshape, plainCell, hfresh, Bool.false_eq_true, if_false]
    rw [bind_apply, hrun]
    rfl
  · rw [flat, flatAll_eq_map, hes, render_concat]
    have := shown_tuple hshown x
    simpa [render_join, hts, Layout.render] using this

theorem canWrite_application (h : setting.Plain) {w : Text} {names : List Text} {arguments : List TypeExpr} (x : Text)
    (hnames : ∀ v ∈ w :: names, Text.isName v = true) (hlead : w ∉ leadingWords)
    (hreserved : Text.join "." (w :: names) ∉ reservedWords) (harray : Text.join "." (w :: names) ≠ "Array")
    (hne : arguments ≠ []) (he : ∀ e ∈ arguments, CanWrite setting e) :
    CanWrite setting (.reference (Text.join "." (w :: names)) arguments x) := by
  refine canWrite_of_own h rfl fun context lo s path fuel hhas hpath hfuel => ?_
  obtain ⟨hfresh, hpath⟩ := hpath.enter rfl hhas.room
  rw [size] at hfuel
  obtain ⟨first, rest, rfl⟩ := List.exists_cons_of_ne_nil hne
  rw [cells] at hhas
  have hlen : (cellsAll context lo (first :: rest)).length + 1 =
      (TypeExpr.reference (Text.join "." (w :: names)) (first :: rest) x).cellCount := by
    rw [cellsAll_length]
    rfl
  have hcell := hhas.top hlen
  obtain ⟨layouts, s', ps, hrun, hkeeps, hes, hts, hshown⟩ :=
    references_of_writes (writes_all he hhas.left hpath (Nat.le_of_succ_le_succ hfuel)).1
  refine ⟨.concat [.text (Text.join "." (w :: names)), "<", .join ", " layouts, ">"], s', ?_,
    keeps_parts hkeeps, ?_⟩
  · rw [convertWith_apply, Store.node, hcell]
    simp only [plainCell, tops, hfresh, Bool.false_eq_true, if_false, instantiation, harray, h.record,
      reduceCtorEq, and_false]
    rw [application, bind_apply]
    erw [hrun]
    rfl
  · rw [flat, flatAll_eq_map, hes, render_concat]
    have := shown_application hshown hnames hlead hreserved x
    simpa [render_join, hts, Layout.render] using this

theorem canWrite_union (h : setting.Plain) {members : List TypeExpr} (x : Text)
    (hlen : 2 ≤ (members.flatMap fun e => e.flat.alternatives).length)
    (hflat : ∀ d ∈ members.flatMap fun e => e.flat.alternatives, d.isUnion = false)
    (he : ∀ e ∈ members, CanWrite setting e) : CanWrite setting (.union members x) := by
  intro context lo s path fuel hhas hpath hfuel
  have hroom := hhas.room
  rw [size] at hfuel
  rw [cells] at hhas
  rw [flat, flatUnion_eq_flatMap]
  constructor
  · obtain ⟨fuel, rfl⟩ : ∃ n, fuel = n + 1 := ⟨fuel - 1, by omega⟩
    obtain ⟨hfresh, hpath⟩ := hpath.enter rfl hroom
    have hshape := shape_top (e := .union members x) hhas (by rw [cellsAll_length context lo]; rfl)
    obtain ⟨layouts, s', ps, hrun, hkeeps, hes, hts, hshown⟩ :=
      references_of_writes (writes_all he hhas.left hpath (Nat.le_of_succ_le_succ hfuel)).2
    refine (writes_one h).2 ⟨.union layouts, s', ?_, keeps_parts hkeeps, ?_⟩
    · rw [convertIn, convertWith_apply]
      simp only [hshape, plainCell, hfresh, Bool.false_eq_true, if_false]
      rw [bind_apply, hrun]
      rfl
    · rw [hes] at hlen hflat ⊢
      rw [Layout.union, ← Layout.join, render_join, hts]
      rw [List.length_map] at hlen
      exact shown_union hlen (fun p hp => hflat p.1 (List.mem_map_of_mem hp)) hshown x
  · have hparts : Outside s path lo (lo + cellCountAll members) := fun id hid =>
      ⟨(hpath id hid).1, fun hw => (hpath id hid).2 ⟨hw.1, Nat.lt_succ_of_lt hw.2⟩⟩
    refine (writes_all he hhas.left hparts (by omega)).2.mono fun i _ hi => ?_
    exact ⟨hi.1, Nat.lt_succ_of_lt hi.2⟩

/-! ## Object shapes -/

section
variable {fuel k : Nat} {path : List TypeId} {s : Store} {context : Context}

/-- The property as it is until its type is asked for. -/
def pendingOf (context : Context) (m : Property TypeExpr) : Property Resolution :=
  { m with type := .pending context m.type }

theorem pendingProperties_apply (members : List (Property TypeExpr)) :
    pendingProperties context members s =
      ((List.range' s.properties.size members.length).map PropertyId.mk,
        { s with properties := s.properties ++ (members.map (pendingOf context)).toArray }) := by
  induction members generalizing s with
  | nil => simp [pendingProperties, Resolving.mapM_nil]
  | cons m rest ih =>
    rw [pendingProperties] at ih ⊢
    rw [Resolving.mapM_cons, Resolving.addProperty]
    simp only [ih, Array.size_push, List.length_cons, List.range'_succ, List.map_cons]
    simp [pendingOf]

/-- A field without decorators is one row. -/
theorem field_apply {write : Writer} {id : PropertyId} {property : Property Resolution} {layout : Layout}
    {s' : Store} (h : s.property? id = some property) (hdocs : decorators setting.config property.docs = [])
    (hwrite : reference setting write path (setting.project.propertyType id s).1
      (setting.project.propertyType id s).2 = some (layout, s')) :
    ∃ declared, field setting write path id s = some (declared, s') ∧
      declared.render = fieldText (fieldName property.name) property.isOptional layout.render := by
  have hget : (get : Converting Store) s = some (s, s) := rfl
  have hmark : (if property.isOptional then "?" else [] : Text) = optionalMark property.isOptional := by
    cases property.isOptional <;> rfl
  rw [field, bind_apply, hget, Option.bind_some]
  simp only [h, hdocs, hmark, List.nil_append, bind_apply, lift_apply, Option.bind_some, hwrite]
  refine ⟨_, rfl, ?_⟩
  rw [Layout.lines, ← Layout.join, render_join, List.map_singleton, Text.join, render_concat, fieldText]
  simp [Layout.render]

/-- The type that is found for a property has cells of its own. -/
theorem propertyType_cells {m : Property TypeExpr} (hconvertible : p.Convertible m.type)
    (hproperty : s.property? ⟨k⟩ = some (pendingOf context m)) :
    ∃ s', p.propertyType ⟨k⟩ s = (m.type.top s.types.size, s') ∧ s.Keeps s' nowhere (within k (k + 1)) ∧
      s'.Has s.types.size (cells context s.types.size m.type) := by
  obtain ⟨events, hresolve⟩ := @makes_of_convertible p p.aliases context _ hconvertible s
  have hpending : s.resolution? ⟨k⟩ = some (.pending context m.type) := by
    rw [Store.resolution?, hproperty]
    rfl
  refine ⟨{ s.grown (cells context s.types.size m.type) events with
    properties := s.properties.modify k fun q => { q with type := .done (m.type.top s.types.size) } }, ?_, ?_,
    s.has_grown _ events⟩
  · rw [propertyType, Resolving.bind_apply, Resolving.get_apply]
    simp only [hpending, Resolving.bind_apply, hresolve]
    rfl
  · refine ⟨by simp [Store.grown], fun i hi _ => ?_, fun id hid => ?_, by simp, fun i _ hi => ?_⟩
    · exact Array.getElem?_append_left hi
    · rw [Store.node, Store.node, Store.cell, Store.cell, Array.getD_eq_getD_getElem?,
        Array.getD_eq_getD_getElem?]
      exact congrArg (fun c => (Option.getD c default).node) (Array.getElem?_append_left hid)
    · have hne : k ≠ i := fun e => hi ⟨Nat.le_of_eq e, by omega⟩
      simp [Array.getElem?_modify, hne]

/-- A field is written with the type that is found for it. -/
theorem writes_field (h : setting.Plain) {m : Property TypeExpr} (hname : Text.isIdentifier m.name = true)
    (hdocs : m.docs = {}) (hconvertible : setting.project.Convertible m.type)
    (hwrite : CanWrite setting m.type) (hproperty : s.property? ⟨k⟩ = some (pendingOf context m))
    (hpath : ∀ id ∈ path, id.index < s.types.size) (hfuel : m.type.size ≤ fuel) :
    ∃ layout s' t, field setting (convertIn setting fuel) path ⟨k⟩ s = some (layout, s') ∧
      s.Keeps s' nowhere (within k (k + 1)) ∧ layout.render = fieldText m.name m.isOptional t ∧
      Shown m.type.flat t := by
  obtain ⟨s₁, hfound, hkeeps, hhas⟩ := propertyType_cells hconvertible hproperty
  have hout : Outside s₁ path s.types.size (s.types.size + m.type.cellCount) := fun id hid =>
    ⟨Nat.lt_of_lt_of_le (hpath id hid) hkeeps.size, fun hw => Nat.not_lt.2 hw.1 (hpath id hid)⟩
  obtain ⟨written, s₂, hrun, hkeeps', hshown⟩ := (writes_one h).1
    (hwrite context s.types.size s₁ path fuel hhas hout hfuel).1
  have hnone : decorators setting.config (pendingOf context m).docs = [] := by
    rw [pendingOf, hdocs]
    rfl
  have hreference : reference setting (convertIn setting fuel) path (setting.project.propertyType ⟨k⟩ s).1
      (setting.project.propertyType ⟨k⟩ s).2 = some (written, s₂) := by
    rw [hfound, reference_eq h, hrun]
  obtain ⟨layout, hfield, hrender⟩ := field_apply hproperty hnone hreference
  refine ⟨layout, s₂, written.render, hfield, ?_, ?_, hshown⟩
  · exact hkeeps.trans hkeeps' (fun i hi hw => absurd hi (Nat.not_lt.2 hw.1)) fun _ _ hno => hno.elim
  · rw [hrender, pendingOf, fieldName_eq hname]

/-- Fields are written one after the other. -/
theorem writes_fields (h : setting.Plain) {members : List (Property TypeExpr)}
    (hdocs : ∀ m ∈ members, Text.isIdentifier m.name = true ∧ m.docs = {})
    (hconvertible : ∀ m ∈ members, setting.project.Convertible m.type)
    (hwrite : ∀ m ∈ members, CanWrite setting m.type)
    (hproperty : ∀ i m, members[i]? = some m → s.property? ⟨k + i⟩ = some (pendingOf context m))
    (hpath : ∀ id ∈ path, id.index < s.types.size) (hfuel : sizeMembers members ≤ fuel) :
    ∃ (layouts : List Layout) (s' : Store) (ps : List (Property TypeExpr × Text)),
      ((List.range' k members.length).map PropertyId.mk).mapM
        (field setting (convertIn setting fuel) path) s = some (layouts, s') ∧
      s.Keeps s' nowhere (within k (k + members.length)) ∧
      (members.map fun m => { m with type := m.type.flat }) = ps.map (·.1) ∧
      layouts.map (·.render) = (ps.map fun p => fieldText p.1.name p.1.isOptional p.2) ∧
      ∀ p ∈ ps, Text.isName p.1.name = true ∧ p.1.docs = {} ∧ Shown p.1.type p.2 := by
  -- by induction on the members; a field changes no property but its own
  induction members generalizing s k with
  | nil => exact ⟨[], s, [], rfl, .refl s, rfl, rfl, by simp⟩
  | cons m rest ih =>
    have hm := hdocs m List.mem_cons_self
    rw [sizeMembers] at hfuel
    have hfirst : s.property? ⟨k⟩ = some (pendingOf context m) := hproperty 0 m rfl
    obtain ⟨layout, s₁, t, hfield, hkeeps, hrender, hshown⟩ := writes_field h hm.1 hm.2
      (hconvertible m List.mem_cons_self) (hwrite m List.mem_cons_self) hfirst hpath
      (Nat.le_of_add_right_le hfuel)
    have hrest : ∀ i d, rest[i]? = some d → s₁.property? ⟨k + 1 + i⟩ = some (pendingOf context d) := by
      intro i d hi
      have hold := hproperty (i + 1) d hi
      rw [← Nat.add_assoc, Nat.add_right_comm] at hold
      rw [Store.property?] at hold ⊢
      have hother : ¬ within k (k + 1) (k + 1 + i) := fun hw => by have := hw.2; omega
      rw [hkeeps.properties _ (Array.getElem?_eq_some_iff.1 hold).1 hother, hold]
    obtain ⟨layouts, s₂, ps, hfields, hkeeps', hnew, hrenders, hall⟩ :=
      ih (fun d hd => hdocs d (List.mem_cons_of_mem _ hd)) (fun d hd => hconvertible d (List.mem_cons_of_mem _ hd))
        (fun d hd => hwrite d (List.mem_cons_of_mem _ hd)) hrest
        (fun id hid => Nat.lt_of_lt_of_le (hpath id hid) hkeeps.size) (Nat.le_of_add_left_le hfuel)
    refine ⟨layout :: layouts, s₂, ({ m with type := m.type.flat }, t) :: ps, ?written, ?keeps, ?new, ?rendered, ?shown⟩
    case written =>
      rw [List.length_cons, List.range'_succ, List.map_cons, List.mapM_cons, bind_apply, hfield,
        Option.bind_some, bind_apply, hfields]
      rfl
    case keeps =>
      refine (hkeeps.mono (fun _ _ => id) fun i hi => ?_).trans hkeeps' (fun _ _ => id) fun i _ hi => ?_
      · exact ⟨hi.1, by have := hi.2; simp only [List.length_cons]; omega⟩
      · exact ⟨by have := hi.1; omega, by have := hi.2; simp only [List.length_cons]; omega⟩
    case new => rw [List.map_cons, List.map_cons, hnew]
    case rendered => rw [List.map_cons, List.map_cons, hrender, hrenders]
    case shown => exact List.forall_mem_cons.2 ⟨⟨Text.isName_of_isIdentifier hm.1, hm.2, hshown⟩, hall⟩

/-- The properties of an object shape are found where they are first asked for. -/
theorem properties_ofMembers {id : TypeId} {members : List (Property TypeExpr)}
    (h : (s.cell id).properties = .ofMembers context members) :
    ∃ s', p.properties id s = ((List.range' s.properties.size members.length).map PropertyId.mk, s') ∧
      s.Keeps s' (· = id.index) nowhere ∧
      ∀ i m, members[i]? = some m → s'.property? ⟨s.properties.size + i⟩ = some (pendingOf context m) := by
  refine ⟨{ s with
    properties := s.properties ++ (members.map (pendingOf context)).toArray
    types := s.types.modify id.index fun cell =>
      { cell with properties := .listed ((List.range' s.properties.size members.length).map PropertyId.mk) } },
    ?_, ?_, fun i m hm => ?_⟩
  · rw [Project.properties, propertiesIn, Resolving.bind_apply, Resolving.get_apply]
    simp only [h, Resolving.bind_apply, pendingProperties_apply]
    rfl
  · refine ⟨by simp, fun i _ hi => ?_, fun other _ => ?_, by simp, fun i hi _ => ?_⟩
    · have hne : id.index ≠ i := fun e => hi e.symm
      simp [Array.getElem?_modify, hne]
    · rw [Store.node, Store.node, Store.cell, Store.cell, Array.getD_eq_getD_getElem?,
        Array.getD_eq_getD_getElem?, Array.getElem?_modify]
      split
      · cases s.types[other.index]? <;> rfl
      · rfl
    · exact Array.getElem?_append_left hi
  · rw [Store.property?, Array.getElem?_append_right (Nat.le_add_right _ _), Nat.add_sub_cancel_left]
    simp [hm]

/-- The fields are put between braces. -/
theorem body_apply {write : Writer} {ids : List PropertyId} {layouts : List Layout} {s' : Store}
    (hrun : ids.mapM (field setting write path) s = some (layouts, s')) (hlen : layouts.length = ids.length)
    (hsolid : ∀ part ∈ layouts, Text.Solid part.render) :
    ∃ layout, body setting write path ids s = some (layout, s') ∧
      layout.render = if ids.isEmpty then Text.ofString "\x7b\x7d" else bodyText (layouts.map (·.render)) := by
  rw [body]
  cases ids with
  | nil =>
    cases hrun
    exact ⟨_, rfl, rfl⟩
  | cons id rest =>
    have hne : layouts ≠ [] := by
      rintro rfl
      cases hlen
    refine ⟨.braced (.statements layouts), ?_, render_body hne hsolid⟩
    simp only [List.isEmpty_cons, Bool.false_eq_true, if_false, bind_apply, hrun]
    rfl

theorem canWrite_object (h : setting.Plain) {members : List (Property TypeExpr)} (x : Text)
    (hdocs : ∀ m ∈ members, Text.isIdentifier m.name = true ∧ m.docs = {})
    (hconvertible : ∀ m ∈ members, setting.project.Convertible m.type)
    (hwrite : ∀ m ∈ members, CanWrite setting m.type) : CanWrite setting (.object members x) := by
  refine canWrite_of_own h rfl fun context lo s path fuel hhas hpath hfuel => ?_
  obtain ⟨hfresh, hpath⟩ := hpath.enter rfl hhas.room
  rw [size] at hfuel
  have hcell : s.cell ((TypeExpr.object members x).top lo) =
      { node := { shape := .object, text := x }, properties := .ofMembers context members } :=
    Has.top (a := []) hhas rfl
  have hshape : (s.node ((TypeExpr.object members x).top lo)).shape = .object := by
    rw [Store.node, hcell]
  obtain ⟨s₁, hproperties, hkeeps, hpending⟩ := properties_ofMembers (p := setting.project)
    (show (s.cell ((TypeExpr.object members x).top lo)).properties = .ofMembers context members by rw [hcell])
  obtain ⟨layouts, s₂, ps, hrun, hkeeps', hnew, hrenders, hall⟩ := writes_fields h hdocs hconvertible hwrite
    hpending (fun id hid => Nat.lt_of_lt_of_le (hpath id hid).1 hkeeps.size) (Nat.le_of_succ_le_succ hfuel)
  have hlen : layouts.length = members.length := by
    have := congrArg List.length hrenders
    have := congrArg List.length hnew
    simp only [List.length_map] at *
    omega
  -- each field has one solid row at least, so the body is a block of them
  have hsolid : ∀ part ∈ layouts, Text.Solid part.render := by
    intro part hpart
    have hmem : part.render ∈ layouts.map (·.render) := List.mem_map_of_mem hpart
    rw [hrenders] at hmem
    obtain ⟨q, hq, hrow⟩ := List.mem_map.1 hmem
    obtain ⟨hname, _, htype⟩ := hall q hq
    rw [← hrow]
    exact htype.solid.behind (line_of_field hname q.1.isOptional)
  obtain ⟨layout, hbody, hrender⟩ := body_apply hrun (by simpa using hlen) hsolid
  refine ⟨layout, s₂, ?_, ?_, ?_⟩
  · rw [convertWith_apply]
    simp only [hshape, hfresh, Bool.false_eq_true, if_false]
    rw [bind_apply, lift_apply, hproperties, Option.bind_some, hbody]
  · refine (hkeeps.mono (fun i _ hi => ?_) fun _ => id).trans hkeeps' (fun _ _ hno => hno.elim) fun i hi hw => ?_
    · exact ⟨by rw [hi]; exact Nat.le_refl _, by rw [hi]; exact Nat.lt_succ_self _⟩
    · exact absurd hi (Nat.not_lt.2 hw.1)
  · rw [flat, flatMembers_eq_map, hnew, hrender, hrenders]
    cases members with
    | nil =>
      cases ps with
      | nil => exact shown_empty x
      | cons q rest => cases hnew
    | cons m rest => exact shown_object hall x

end

/-! ## All types -/

/-- What a union takes for a member is never a union. -/
theorem alternatives_flat {e : TypeExpr} (h : Lexical e) :
    e.flat.alternatives ≠ [] ∧ ∀ d ∈ e.flat.alternatives, d.isUnion = false := by
  induction h with
  | @union members text hlen _ ih =>
    rw [flat, flatUnion_eq_flatMap, alternatives]
    refine ⟨?_, fun d hd => ?_⟩
    · obtain ⟨first, rest, rfl⟩ := List.exists_cons_of_length_pos (Nat.lt_of_lt_of_le Nat.two_pos hlen)
      rw [List.flatMap_cons]
      exact List.append_ne_nil_of_left_ne_nil (ih first List.mem_cons_self).1 _
    · obtain ⟨e, he, hd⟩ := List.mem_flatMap.1 hd
      exact (ih e he).2 d hd
  | _ =>
    rw [alternatives_of_not_union (isUnion_flat _)]
    refine ⟨List.cons_ne_nil _ _, fun d hd => ?_⟩
    rw [List.mem_singleton.1 hd]
    exact isUnion_flat _

theorem two_le_alternatives {members : List TypeExpr} (hlen : 2 ≤ members.length)
    (h : ∀ e ∈ members, Lexical e) : 2 ≤ (members.flatMap fun e => e.flat.alternatives).length := by
  match members, hlen with
  | first :: second :: rest, _ =>
    have hfirst := List.length_pos_iff.2 (alternatives_flat (h first List.mem_cons_self)).1
    have hsecond := List.length_pos_iff.2
      (alternatives_flat (h second (List.mem_cons_of_mem _ List.mem_cons_self))).1
    simp only [List.flatMap_cons, List.length_append]
    omega

/-- By induction on the type; its texts were read. -/
theorem canWrite (h : setting.Plain) {e : TypeExpr} (hconvertible : setting.project.Convertible e)
    (hlexical : Lexical e) : CanWrite setting e := by
  induction hconvertible with
  | keyword name =>
    cases hlexical with
    | keyword hname => exact canWrite_keyword h hname
  | literal text =>
    cases hlexical with
    | literal htext => exact canWrite_literal h htext
  | reference hreserved harray _ _ ih =>
    cases hlexical with
    | name htext => exact canWrite_name h htext hreserved
    | application hnames hlead hne harguments =>
      exact canWrite_application h _ hnames hlead hreserved harray hne fun e he => ih e he (harguments e he)
  | array hconvertible ih =>
    cases hlexical with
    | array helement => exact canWrite_array h _ hconvertible (ih helement)
  | tuple _ ih =>
    cases hlexical with
    | tuple helements => exact canWrite_tuple h _ fun e he => ih e he (helements e he)
  | object hdocs hconvertible ih =>
    cases hlexical with
    | object hmembers => exact canWrite_object h _ hdocs hconvertible fun m hm => ih m hm (hmembers m hm)
  | union _ ih =>
    cases hlexical with
    | union hlen hmembers =>
      refine canWrite_union h _ (two_le_alternatives hlen hmembers) (fun d hd => ?_)
        fun e he => ih e he (hmembers e he)
      obtain ⟨e, he, hd⟩ := List.mem_flatMap.1 hd
      exact (alternatives_flat (hmembers e he)).2 d hd

/-! ## From resolving to reading -/

/-- The weight of cells that a store gets. -/
def cellsWeight (cs : List TypeCell) : Nat := cs.length + total (·.properties.weight) cs

theorem cellsWeight_append (cs ds : List TypeCell) : cellsWeight (cs ++ ds) = cellsWeight cs + cellsWeight ds := by
  simp only [cellsWeight, List.length_append, total_append]
  omega

theorem cellsWeight_all {es : List TypeExpr} {context : Context}
    (h : ∀ e ∈ es, ∀ lo, cellsWeight (cells context lo e) = e.size) (lo : Nat) :
    cellsWeight (cellsAll context lo es) = sizeAll es := by
  induction es generalizing lo with
  | nil => rfl
  | cons e rest ih =>
    rw [cellsAll, sizeAll, cellsWeight_append, h e List.mem_cons_self,
      ih (fun d hd => h d (List.mem_cons_of_mem _ hd))]

/-- No part of the type is lost in its cells. -/
theorem cellsWeight_cells {e : TypeExpr} (h : p.Convertible e) (context : Context) (lo : Nat) :
    cellsWeight (cells context lo e) = e.size := by
  induction h generalizing lo with
  | keyword name => rfl
  | literal text => rfl
  | @reference name text arguments _ _ _ _ ih =>
    cases arguments with
    | nil => rfl
    | cons first rest => rw [cells, cellsWeight_append, cellsWeight_all ih]; rfl
  | array _ ih => rw [cells, cellsWeight_append, ih]; rfl
  | tuple _ ih => rw [cells, cellsWeight_append, cellsWeight_all ih]; rfl
  | @object members text _ _ _ =>
    show 1 + (sizeMembers members + 0) = sizeMembers members + 1
    omega
  | union _ ih => rw [cells, cellsWeight_append, cellsWeight_all ih]; rfl

theorem le_weight_grown (s : Store) (cs : List TypeCell) (events : List Event) :
    cellsWeight cs ≤ (s.grown cs events).weight := by
  simp only [Store.weight, Store.grown, cellsWeight, Array.size_append, Array.toList_append, total_append,
    List.size_toArray]
  omega

theorem le_depthBound (s : Store) : s.weight ≤ depthBound setting s := by
  rw [depthBound]
  refine Nat.le_trans ?_ (Nat.le_mul_self _)
  omega

/-- A type that was read is read back from what is written for it, with the
unions right inside of its unions opened: if the project declares none of its
names, no type has a model, numbers are numbers and records keep their keys. -/
theorem parse_convert (h : setting.Plain) (hdepth : setting.depth = none) {e : TypeExpr}
    (hproduced : Produced e) (hconvertible : setting.project.Convertible e)
    (closed : List DeclarationId) (context : Context) (s : Store) :
    ∃ layout s' found,
      (do convert setting (← setting.project.resolve closed context e) : Converting Layout) s = some (layout, s') ∧
        TypeExpr.parse layout.render = .ok found ∧ found.bare = e.flat.bare := by
  obtain ⟨events, hresolve⟩ := @makes_of_convertible _ closed context _ hconvertible s
  have hfuel : e.size ≤ depthBound setting (s.grown (cells context s.types.size e) events) := by
    rw [← cellsWeight_cells hconvertible context s.types.size]
    exact Nat.le_trans (le_weight_grown s _ events) (le_depthBound _)
  have hout : Outside (s.grown (cells context s.types.size e) events) [] s.types.size
      (s.types.size + e.cellCount) := fun id hid => nomatch hid
  obtain ⟨layout, s', hrun, _, hshown⟩ := (writes_one h).1
    (canWrite h hconvertible hproduced.lexical context _ _ _ _ (s.has_grown _ events) hout hfuel).1
  have hprinted := hshown.printed [] fun _ hc => nomatch hc
  rw [Text.hangAll_nil_left] at hprinted
  obtain ⟨found, hparse, hfound⟩ := hprinted.to_union.parse
  refine ⟨layout, s', found, ?_, hparse, hfound⟩
  rw [bind_apply, lift_apply, hresolve, Option.bind_some, convert, bind_apply, depth, bind_apply, hdepth]
  exact hrun

/-- `{ a: F[] }` is such a type. -/
theorem parse_convert_object :
    let setting : Setting := { registry := {}, config := { numberType := "number", recordStyle := .keyValue } }
    let e : TypeExpr := .object [⟨"a", false, .array (.reference "F" [] "F") "F[]", {}⟩] "\x7b a: F[] \x7d"
    ∃ layout s' found,
      (do convert setting (← setting.project.resolve [] { unit := 0 } e) : Converting Layout) {} = some (layout, s') ∧
        TypeExpr.parse layout.render = .ok found ∧ found.bare = e.flat.bare := by
  intro setting e
  have hsome : (tokenize "\x7b a: F[] \x7d" 0 10).toOption = some
      [⟨.mark, "\x7b", 0, 1, false, false, []⟩, ⟨.word, "a", 2, 3, true, false, []⟩,
        ⟨.mark, ":", 3, 4, false, false, []⟩, ⟨.word, "F", 5, 6, true, false, []⟩,
        ⟨.mark, "[", 6, 7, false, false, []⟩, ⟨.mark, "]", 7, 8, false, false, []⟩,
        ⟨.mark, "\x7d", 9, 10, true, false, []⟩, ⟨.endOfInput, [], 10, 10, false, true, []⟩] := by
    decide +kernel
  have htokens := Parser.ok_of_toOption hsome
  have hparse : TypeExpr.parse "\x7b a: F[] \x7d" = .ok e := by
    show (tokenize "\x7b a: F[] \x7d" 0 10 >>= _) = _
    rw [htokens]
    rfl
  refine parse_convert ⟨rfl, rfl, rfl⟩ rfl (produced_of_parse hparse) ?_ [] { unit := 0 } {}
  refine .object ?_ ?_
  · simp only [List.forall_mem_singleton]
    decide
  · simp only [List.forall_mem_singleton]
    exact .array (.reference (by decide) (by decide) (fun _ h => nomatch h) (by simp))

end WireSchema.TypeSpec
