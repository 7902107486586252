import WireSchema.Proofs.Project.Declared
/-!
# Steps that find properties

The properties of a type and the type of a property are found once and kept.
Whatever steps follow, what a store knows stays true.
-/

namespace WireSchema

namespace Project

open Resolving

variable {p : Project} {s s' s'' : Store} {c c' c'' : Chart}

/-- The later store knows all that was known. -/
structure Later (s s' : Store) (c c' : Chart) : Prop extends Extends s s' c c' where
  listed : ∀ id ids, id.index < s.types.size → (s.cell id).properties = .listed ids →
    (s'.cell id).properties = .listed ids
  record : ∀ q r, s.property? q = some r → ∃ r' : Resolution, s'.property? q = some { r with type := r' } ∧
    ∀ t, r.type = .done t → r' = .done t

namespace Later

theorem refl (s : Store) (c : Chart) : Later s s c c where
  toExtends := .refl s c
  listed _ _ _ h := h
  record _ r h := ⟨r.type, h, fun _ ht => ht⟩

theorem trans (h : Later s s' c c') (h' : Later s' s'' c' c'') : Later s s'' c c'' where
  toExtends := h.toExtends.trans h'.toExtends
  listed id ids hid hlisted := h'.listed id ids (Nat.lt_of_lt_of_le hid h.size) (h.listed id ids hid hlisted)
  record q r hr := by
    obtain ⟨r₁, hr₁, hdone₁⟩ := h.record q r hr
    obtain ⟨r₂, hr₂, hdone₂⟩ := h'.record q _ hr₁
    exact ⟨r₂, hr₂, fun t ht => hdone₂ t (hdone₁ t ht)⟩

/-- The name of a property stays. -/
theorem propertyName (h : Later s s' c c') {q : PropertyId} (hq : q.index < s.properties.size) :
    s'.propertyName q = s.propertyName q := by
  have hsome : s.property? q = some s.properties[q.index] := Array.getElem?_eq_getElem hq
  obtain ⟨r', hr', _⟩ := h.record q _ hsome
  rw [Store.propertyName, Store.propertyName, hsome, hr']
  rfl

end Later

theorem Adds.later {closed : List DeclarationId} {mine : Origin → Prop} (h : p.Adds closed mine s s' c c') :
    Later s s' c c' where
  toExtends := h.toExtends
  listed id ids hid hlisted := by rw [h.cells id hid, hlisted]
  record q r hr := ⟨r.type, by rw [Store.property?, h.properties]; exact hr, fun _ ht => ht⟩

/-! ## Steps one after the other -/

/-- A step leads to a later store with a chart, and to a result as described. -/
def Runs {α : Type} (p : Project) (s : Store) (c : Chart) (made : α × Store) (post : α → Store → Chart → Prop) : Prop :=
  ∃ c', p.Charted made.2 c' ∧ Later s made.2 c c' ∧ post made.1 made.2 c'

section
variable {α β : Type} {post : α → Store → Chart → Prop}

theorem Runs.pure (h : p.Charted s c) {a : α} (ha : post a s c) : p.Runs s c ((Pure.pure a : Resolving α) s) post :=
  ⟨c, h, .refl s c, ha⟩

theorem Runs.mono {made : α × Store} {post' : α → Store → Chart → Prop} (h : p.Runs s c made post)
    (hpost : ∀ a s' c', p.Charted s' c' → Later s s' c c' → post a s' c' → post' a s' c') : p.Runs s c made post' := by
  obtain ⟨c', hcharted, hlater, ha⟩ := h
  exact ⟨c', hcharted, hlater, hpost _ _ _ hcharted hlater ha⟩

theorem Runs.bind {x : Resolving α} {f : α → Resolving β} {post' : β → Store → Chart → Prop}
    (h : p.Runs s c (x s) post)
    (hf : ∀ a s' c', p.Charted s' c' → Later s s' c c' → post a s' c' → p.Runs s' c' (f a s') post') :
    p.Runs s c ((x >>= f) s) post' := by
  obtain ⟨c₁, hcharted, hlater, ha⟩ := h
  obtain ⟨c₂, hcharted₂, hlater₂, hb⟩ := hf _ _ _ hcharted hlater ha
  exact ⟨c₂, hcharted₂, hlater.trans hlater₂, hb⟩

theorem Runs.mapM {f : α → Resolving β} (result : α → β → Store → Chart → Prop)
    (hkeep : ∀ a b s s' c c', Later s s' c c' → result a b s c → result a b s' c') {as : List α} (h : p.Charted s c)
    (hstep : ∀ a ∈ as, ∀ s' c', p.Charted s' c' → Later s s' c c' → p.Runs s' c' (f a s') (result a)) :
    p.Runs s c (as.mapM f s) fun bs s' c' => bs.length = as.length ∧
      ∀ (i : Nat) (a : α) (b : β), as[i]? = some a → bs[i]? = some b → result a b s' c' := by
  induction as generalizing s c with
  | nil => exact ⟨c, h, .refl s c, rfl, fun i a b ha => by cases ha⟩
  | cons a as ih =>
    obtain ⟨c₁, hcharted, hlater, hb⟩ := hstep a List.mem_cons_self s c h (.refl s c)
    obtain ⟨c₂, hcharted₂, hlater₂, hlength, heach⟩ := ih hcharted fun a' ha' s' c' h' hlater' =>
      hstep a' (List.mem_cons_of_mem a ha') s' c' h' (hlater.trans hlater')
    rw [mapM_cons]
    refine ⟨c₂, hcharted₂, hlater.trans hlater₂, by rw [List.length_cons, hlength, List.length_cons], ?_⟩
    intro i a' b' ha' hb'
    cases i with
    | zero =>
      cases ha'
      cases hb'
      exact hkeep _ _ _ _ _ _ hlater₂ hb
    | succ i => exact heach i a' b' ha' hb'

theorem runs_report (h : p.Charted s c) (event : Event) : p.Runs s c (report event s) fun _ _ _ => True :=
  ⟨c, (adds_events [] (fun _ => False) h _).charted,
    (adds_events [] (fun _ => False) h _).later, trivial⟩

end

/-! ## Types of declarations -/

theorem mem_declarationIds {d : DeclarationId} {declaration : Declaration} (h : p.declaration? d = some declaration) :
    d ∈ p.declarationIds := by
  rw [declaration?] at h
  obtain ⟨unit, hunit, hdeclaration⟩ := Option.bind_eq_some_iff.1 h
  refine List.mem_flatMap.2 ⟨(unit, d.unit), List.mem_zipIdx_iff_getElem?.2 hunit, List.mem_map.2 ⟨d.index, ?_, rfl⟩⟩
  exact List.mem_range.2 (List.getElem?_eq_some_iff.1 hdeclaration).1

theorem nodup_declarationIds (p : Project) : p.declarationIds.Nodup := by
  have hplaces : ((p.units.zipIdx).map (·.2)).Nodup := by
    rw [List.zipIdx_map_snd]
    exact List.nodup_range'
  refine List.pairwise_flatMap.2 ⟨fun a _ => ?_, (List.pairwise_map.1 hplaces).imp fun hne x hx y hy heq => ?_⟩
  · refine List.pairwise_map.2 (List.nodup_range.imp fun hne heq => hne ?_)
    exact congrArg DeclarationId.index heq
  · obtain ⟨i, _, rfl⟩ := List.mem_map.1 hx
    obtain ⟨j, _, rfl⟩ := List.mem_map.1 hy
    exact hne (congrArg DeclarationId.unit heq)

theorem mem_aliases {d : DeclarationId} (h : p.IsAlias d) : d ∈ p.aliases := by
  obtain ⟨parameters, e, hbody⟩ := h
  rw [body?, Option.map_eq_some_iff] at hbody
  obtain ⟨declaration, hd, hbody⟩ := hbody
  refine List.mem_filter.2 ⟨mem_declarationIds hd, ?_⟩
  rw [hd]
  simp only [Option.map_some, Option.getD_some, Declaration.isAlias, hbody]

theorem nodup_aliases (p : Project) : p.aliases.Nodup := (nodup_declarationIds p).filter _

theorem nodup_interfaces (p : Project) : p.interfaces.Nodup := (nodup_declarationIds p).filter _

/-- A declaration has the type that it is given. -/
theorem declarationType_ok (h : p.Charted s c) {d : DeclarationId}
    (hvalid : ∃ declaration, p.declaration? d = some declaration) :
    ∃ c', p.Adds p.aliases (fun _ => False) s (p.declarationType d s).2 c c' ∧
      (p.declarationType d s).2.declared? d = some (p.declarationType d s).1 := by
  rcases resolveDeclaration_ok h (nodup_aliases p)
      (fun d' hd' hout => absurd (mem_aliases hd') hout) hvalid
      (fun _ root steps context e => resolve_ok _ e ((nodup_aliases p).erase _) root steps context) with
    hadds | ⟨halias, hout, _⟩
  · exact hadds
  · exact absurd (mem_aliases halias) hout

/-! ## The type of a property -/

/-- The store with the type of a property found. -/
def settled (s : Store) (q : PropertyId) (t : TypeId) : Store :=
  { s with properties := s.properties.modify q.index fun r => { r with type := .done t } }

theorem property?_settled (s : Store) (q q' : PropertyId) (t : TypeId) :
    (settled s q t).property? q' =
      if q' = q then (s.property? q).map fun r => { r with type := .done t } else s.property? q' := by
  rw [Store.property?, settled, Array.getElem?_modify]
  by_cases h : q' = q
  · rw [h, if_pos rfl, if_pos rfl]
    rfl
  · rw [if_neg h, if_neg fun heq => h (by cases q; cases q'; simp only at heq; rw [heq])]
    rfl

theorem extends_settled (s : Store) (c : Chart) (q : PropertyId) (t : TypeId) : Extends s (settled s q t) c c :=
  ⟨Nat.le_refl _, fun _ _ => rfl, fun _ _ => rfl, fun _ _ h => h, by simp [settled], fun _ _ => rfl⟩

/-- A property that gets the type of its member. -/
theorem Charted.settled (h : p.Charted s c) {q : PropertyId} {t : TypeId} {context : Context} {m : Property TypeExpr}
    (hmember : p.memberAt? (c.properties q.index) = some (context, m)) {r : Resolution}
    (hrecord : s.property? q = some { m with type := r })
    (hdenotes : p.Denotes s c (.member (c.properties q.index).1 (c.properties q.index).2) [] context m.type t) :
    p.Charted (Project.settled s q t) c := by
  have hext := extends_settled s c q t
  refine h.same hext rfl (h.entries.mono hext) (fun id hid => (h.listings id hid).mono hext hid rfl) fun q' hq' => ?_
  by_cases heq : q' = q
  · subst heq
    refine ⟨context, m, .done t, hmember, ?_, .inr ⟨t, rfl, hdenotes.mono hext⟩⟩
    rw [property?_settled, if_pos rfl, hrecord]
    rfl
  · have hlt : q'.index < s.properties.size := by simpa [Project.settled] using hq'
    exact (h.properties q' hlt).mono hext hlt (by rw [property?_settled, if_neg heq])

theorem later_settled {q : PropertyId} {t : TypeId} {r : Property Resolution} (hr : s.property? q = some r)
    (hpending : ∀ t, r.type ≠ .done t) : Later s (settled s q t) c c where
  toExtends := extends_settled s c q t
  listed _ _ _ h := h
  record q' r' hr' := by
    rw [property?_settled]
    by_cases heq : q' = q
    · subst heq
      rw [hr] at hr'
      cases hr'
      exact ⟨.done t, by rw [if_pos rfl, hr]; rfl, fun t' ht' => absurd ht' (hpending t')⟩
    · exact ⟨r'.type, by rw [if_neg heq, hr'], fun _ ht => ht⟩

theorem memberAt?_eq_some {place : Origin × Nat} {context : Context} {m : Property TypeExpr} :
    p.memberAt? place = some (context, m) ↔
      ∃ members, p.membersOf? place.1 = some (context, members) ∧ members[place.2]? = some m := by
  rw [memberAt?, Option.bind_eq_some_iff]
  constructor
  · rintro ⟨⟨context', members⟩, hmembers, hm⟩
    obtain ⟨m', hm', heq⟩ := Option.map_eq_some_iff.1 hm
    cases heq
    exact ⟨members, hmembers, hm'⟩
  · rintro ⟨members, hmembers, hm⟩
    exact ⟨(context, members), hmembers, by simp [hm]⟩

theorem partType?_member {place : Origin × Nat} {context : Context} {m : Property TypeExpr}
    (h : p.memberAt? place = some (context, m)) : p.partType? (.member place.1 place.2) [] = some (context, m.type) := by
  obtain ⟨members, hmembers, hm⟩ := memberAt?_eq_some.1 h
  rw [partType?_nil, rootType?, hmembers, Option.bind_some]
  simp only [hm, Option.map_some]

/-- A root that is no definition of an alias may always be resolved. -/
theorem ready_member (s : Store) (owner : Origin) (index : Nat) : p.Ready p.aliases s (.member owner index) where
  nodup := nodup_aliases p
  held _ hd hout := absurd (mem_aliases hd) hout
  own _ heq := by cases heq

/-- The type of a property, once it is found, is that of its member. -/
theorem Charted.type_denotes (h : p.Charted s c) {q : PropertyId} {r : Property Resolution} {t : TypeId}
    (hr : s.property? q = some r) (hdone : r.type = .done t) :
    ∃ context m, p.memberAt? (c.properties q.index) = some (context, m) ∧
      p.Denotes s c (.member (c.properties q.index).1 (c.properties q.index).2) [] context m.type t := by
  obtain ⟨context, m, resolution, hmember, hrecord, hresolution⟩ := h.properties q (Array.getElem?_eq_some_iff.1 hr).1
  have htype : resolution = .done t := by
    rw [hr] at hrecord
    cases hrecord
    exact hdone
  rcases hresolution with rfl | ⟨u, rfl, hdenotes⟩
  · cases htype
  · cases htype
    exact ⟨context, m, hmember, hdenotes⟩

theorem done_lt (h : p.Charted s c) {q : PropertyId} {r : Property Resolution} {t : TypeId}
    (hr : s.property? q = some r) (hdone : r.type = .done t) : t.index < s.types.size := by
  obtain ⟨context, m, _, hdenotes⟩ := h.type_denotes hr hdone
  exact hdenotes.lt h

/-- The type of a property is known, or resolving it makes nodes for it. -/
theorem propertyType_cases (h : p.Charted s c) {q : PropertyId} (hq : q.index < s.properties.size) :
    ∃ r, s.property? q = some r ∧
      ((∃ t, r.type = .done t ∧ p.propertyType q s = (t, s)) ∨
        ∃ t s₁ c₁, (∀ u, r.type ≠ .done u) ∧ p.propertyType q s = (t, settled s₁ q t) ∧
          p.Adds p.aliases (Origin.Under (.member (c.properties q.index).1 (c.properties q.index).2) []) s s₁ c c₁ ∧
          p.Charted (settled s₁ q t) c₁) := by
  obtain ⟨context, m, resolution, hmember, hrecord, hresolution⟩ := h.properties q hq
  refine ⟨_, hrecord, ?_⟩
  have hknown : s.resolution? q = some resolution := by rw [Store.resolution?, hrecord]; rfl
  rw [propertyType, bind_apply]
  simp only [get_apply, hknown]
  rcases hresolution with rfl | ⟨t, rfl, hdenotes⟩
  · right
    obtain ⟨c', hadds, hdenotes⟩ := resolve_ok p.aliases m.type (nodup_aliases p) _ [] context s c h
      (ready_member s _ _) (partType?_member hmember)
    refine ⟨_, _, c', fun u hu => (by cases hu), rfl, hadds, ?_⟩
    have hplaces : c'.properties q.index = c.properties q.index := by rw [hadds.places]
    have hkept : (p.resolve p.aliases context m.type s).2.property? q = some { m with type := .pending context m.type } := by
      rw [Store.property?, hadds.properties]
      exact hrecord
    exact hadds.charted.settled (by rw [hplaces]; exact hmember) hkept (by rw [hplaces]; exact hdenotes)
  · exact .inl ⟨t, rfl, rfl⟩

theorem property?_settled_self {q : PropertyId} {r : Property Resolution} (hr : s.property? q = some r) (t : TypeId) :
    (settled s q t).property? q = some { r with type := .done t } := by
  rw [property?_settled, if_pos rfl, hr]
  rfl

/-- The type of a property is found and kept. -/
theorem propertyType_ok (h : p.Charted s c) {q : PropertyId} (hq : q.index < s.properties.size) :
    p.Runs s c (p.propertyType q s) fun t s' _ => ∃ r, s'.property? q = some r ∧ r.type = .done t := by
  obtain ⟨r, hr, ⟨t, hdone, hknown⟩ | ⟨t, s₁, c₁, hpending, hfound, hadds, hcharted⟩⟩ := propertyType_cases h hq
  · rw [hknown]
    exact .pure h ⟨r, hr, hdone⟩
  · have hr₁ : s₁.property? q = some r := by rw [Store.property?, hadds.properties]; exact hr
    rw [hfound]
    exact ⟨c₁, hcharted, hadds.later.trans (later_settled hr₁ hpending), _, property?_settled_self hr₁ t, rfl⟩

end Project

end WireSchema
