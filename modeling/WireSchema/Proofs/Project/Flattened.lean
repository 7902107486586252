import Mathlib
import WireSchema.Proofs.Project.Questions
import WireSchema.Proofs.Project.Spread
import WireSchema.Proofs.Project.Twins
/-!
# What an interface inherits

Whatever has been asked for before, an interface has its own members and then, base
after base, those of their properties whose names are new. Where no interface
inherits from itself each base is searched to the end, so the list is the same as if
the interface were asked for first. The whole library is here for the evaluation of the
example by `cbv`.
-/

namespace WireSchema

namespace Project

open Resolving

variable {p : Project} {s s' : Store} {c c' c₀ : Chart} {d : DeclarationId} {t : TypeId} {news : List Question}

/-! ## New names -/

/-- Properties with new names stay in order. -/
theorem withNewNames_sublist (s : Store) (names : List Text) (ids : List PropertyId) :
    (withNewNames s names ids).Sublist ids := by
  induction ids generalizing names with
  | nil => exact List.Sublist.slnil
  | cons q rest ih =>
    rw [withNewNames]
    split
    · exact (ih names).cons q
    · exact (ih _).cons_cons q

/-- A property is kept if its name is new and no property before it has that name. -/
theorem mem_withNewNames_iff {names : List Text} {ids : List PropertyId} {q : PropertyId} :
    q ∈ withNewNames s names ids ↔
      s.propertyName q ∉ names ∧ ids.find? (fun q' => s.propertyName q' == s.propertyName q) = some q := by
  induction ids generalizing names with
  | nil => simp [withNewNames]
  | cons first rest ih =>
    rw [withNewNames, List.find?_cons]
    by_cases hname : s.propertyName first = s.propertyName q
    · -- the first one decides about the name
      rw [beq_iff_eq.2 hname]
      split
      next hold =>
        rw [ih, ← hname]
        exact ⟨fun h => absurd (List.contains_iff_mem.1 hold) h.1, fun h => absurd (List.contains_iff_mem.1 hold) h.1⟩
      next hnew =>
        rw [List.contains_iff_mem, hname] at hnew
        rw [List.mem_cons, ih, hname]
        simp [hnew, eq_comm]
    · have hne : q ≠ first := fun heq => hname (by rw [heq])
      rw [beq_eq_false_iff_ne.2 hname]
      split
      · exact ih
      · rw [List.mem_cons, ih, List.mem_cons]
        simp [hne, Ne.symm hname]

/-! ## Stores that are reached -/

theorem Reached.ask (h : p.Reached news s) {q : Question} (hvalid : q.Valid p s) : ∃ more, p.Reached more (q.ask p s) := by
  by_cases hknown : q.Known s
  · exact ⟨news, h.known hvalid hknown⟩
  · exact ⟨q :: news, h.new hvalid hknown⟩

/-- At first no interface is being searched. -/
theorem enterable (p : Project) (o : Origin) : p.Enterable p.interfaces (fun _ => False) o where
  left _ hd hout := hout (mem_interfaces hd)
  behind _ hbusy := hbusy.elim

section
variable (hacyclic : ∀ d, ¬ Relation.TransGen p.Inherits d d)
include hacyclic

theorem properties_tidy (h : p.Tidy (fun _ => False) s c) (ht : t.index < s.types.size) :
    p.Tidily (fun _ => False) s c (p.properties t s) fun ids s' _ => (s'.cell t).properties = .listed ids :=
  propertiesIn_tidy hacyclic p.interfaces (nodup_interfaces p) h ht (enterable p _)

/-- Whatever is asked for, the store stays tidy. -/
theorem Reached.tidy (h : p.Reached news s) (c₀ : Chart) : ∃ c, p.Tidy (fun _ => False) s c ∧ Grows {} s c₀ c := by
  have hask {s : Store} {q : Question} (hvalid : q.Valid p s)
      (h : ∃ c, p.Tidy (fun _ => False) s c ∧ Grows {} s c₀ c) :
      ∃ c, p.Tidy (fun _ => False) (q.ask p s) c ∧ Grows {} (q.ask p s) c₀ c := by
    obtain ⟨c, htidy, hgrows⟩ := h
    cases q with
    | declaration d =>
      obtain ⟨c', htidy', hgrows', _⟩ := declarationType_tidy htidy hvalid
      exact ⟨c', htidy', hgrows.trans hgrows'⟩
    | properties t =>
      obtain ⟨c', htidy', hgrows', _⟩ := properties_tidy hacyclic htidy hvalid
      exact ⟨c', htidy', hgrows.trans hgrows'⟩
    | type q =>
      obtain ⟨c', htidy', hgrows', _⟩ := propertyType_tidy htidy hvalid
      exact ⟨c', htidy', hgrows.trans hgrows'⟩
  induction h with
  | start => exact ⟨c₀, tidy_empty p _ (fun _ => id) c₀, .refl _ c₀⟩
  | known _ hvalid _ ih => exact hask hvalid ih
  | new _ hvalid _ ih => exact hask hvalid ih

end

/-! ## The list of an interface -/

/-- What an interface has from a base: the properties of the base, or those of the
members one after the other if it is an intersection. -/
def BaseHas (p : Project) (s : Store) (d : DeclarationId) (base : Base) (ids : List PropertyId) : Prop :=
  match p.lookup? d.unit base.name with
  | none => ids = []
  | some target => ∃ t lists, p.declarationType target s = (t, s) ∧
      List.Forall₂ (fun u ids => p.properties u s = (ids, s)) (s.sources t) lists ∧ ids = lists.flatten

/-- The property is the member, whose type may still have to be found. -/
def IsMember (s : Store) (context : Context) (q : PropertyId) (m : Property TypeExpr) : Prop :=
  ∃ r, s.property? q = some { m with type := r } ∧ (r = .pending context m.type ∨ ∃ u, r = .done u)

/-- The properties are the members in order, and then those of the bases that have
new names. -/
structure Flattens (p : Project) (s : Store) (d : DeclarationId) (parameters : List Text) (bases : List Base)
    (members : List (Property TypeExpr)) (ids : List PropertyId) (own inherited : List PropertyId)
    (found : List (List PropertyId)) : Prop where
  split : ids = own ++ inherited
  own_members : List.Forall₂ (IsMember s { unit := d.unit, parameters }) own members
  bases_found : List.Forall₂ (p.BaseHas s d) bases found
  order : inherited.Sublist found.flatten
  /-- What is inherited has no own name, and nothing before it in the bases has its name. -/
  new : ∀ q, q ∈ inherited ↔ s.propertyName q ∉ members.map (·.name) ∧
    found.flatten.find? (fun q' => s.propertyName q' == s.propertyName q) = some q
  nodup : (inherited.map s.propertyName).Nodup
  /-- No name of a base is lost. -/
  complete : ∀ q ∈ found.flatten, s.propertyName q ∈ ids.map s.propertyName

theorem IsMember.name {context : Context} {q : PropertyId} {m : Property TypeExpr} (h : IsMember s context q m) :
    s.propertyName q = m.name := by
  obtain ⟨r, hr, _⟩ := h
  rw [Store.propertyName, hr]
  rfl

/-- The type of a declaration is known, and so are the properties of its sources. -/
theorem BaseListed.has {base : Base} {ids : List PropertyId} (h : p.BaseListed s d base ids) : p.BaseHas s d base ids := by
  unfold BaseListed at h
  unfold BaseHas
  split
  next hlookup => rwa [hlookup] at h
  next target hlookup =>
    rw [hlookup] at h
    obtain ⟨t, lists, hdeclared, hlists, rfl⟩ := h
    refine ⟨t, lists, ?_, List.forall₂_iff_get.2 ⟨hlists.length.symm, fun i hi hi' => ?_⟩, rfl⟩
    · rw [declarationType, resolveDeclaration, bind_apply]
      simp only [get_apply, hdeclared]
      rfl
    · exact propertiesIn_listed _ (hlists.each i _ _ (List.getElem?_eq_getElem hi) (List.getElem?_eq_getElem hi'))

/-- The own properties of an interface are its members. -/
theorem Placed.members (h : p.Charted s c) {parameters : List Text} {bases : List Base}
    {members : List (Property TypeExpr)} (hbody : p.body? d = some (.interface parameters bases members))
    {own : List PropertyId} (hown : Placed (.declaration d) 0 members.length own s c) :
    List.Forall₂ (IsMember s { unit := d.unit, parameters }) own members := by
  refine List.forall₂_iff_get.2 ⟨hown.1, fun i hi hi' => ?_⟩
  obtain ⟨hlt, hplace⟩ := hown.2 i _ (List.getElem?_eq_getElem hi)
  obtain ⟨context, m, r, hmember, hrecord, hr⟩ := h.properties _ hlt
  rw [hplace, memberAt?, membersOf?, hbody, Nat.zero_add] at hmember
  simp only [Option.bind_some, List.getElem?_eq_getElem hi', Option.map_some, Option.some.injEq, Prod.mk.injEq] at hmember
  obtain ⟨rfl, rfl⟩ := hmember
  refine ⟨r, hrecord, ?_⟩
  rcases hr with hr | ⟨u, hr, _⟩
  · exact .inl hr
  · exact .inr ⟨u, hr⟩

/-- A name of a base is an own name, or the first property of the name is inherited. -/
theorem complete_of_withNewNames {names : List Text} {ids : List PropertyId} {q : PropertyId} (hq : q ∈ ids)
    (hnew : s.propertyName q ∉ names) : s.propertyName q ∈ (withNewNames s names ids).map s.propertyName := by
  obtain ⟨first, hfirst⟩ : ∃ first, ids.find? (fun q' => s.propertyName q' == s.propertyName q) = some first :=
    Option.isSome_iff_exists.1 (List.find?_isSome.2 ⟨q, hq, beq_self_eq_true _⟩)
  have hname : s.propertyName first = s.propertyName q := eq_of_beq (List.find?_some hfirst :)
  refine List.mem_map.2 ⟨first, mem_withNewNames_iff.2 ⟨by rwa [hname], ?_⟩, hname⟩
  rw [hname, hfirst]

theorem InterfaceListed.flattens (h : p.Charted s c) {ids : List PropertyId} (hlisted : p.InterfaceListed s c d ids)
    {parameters : List Text} {bases : List Base} {members : List (Property TypeExpr)}
    (hbody : p.body? d = some (.interface parameters bases members)) :
    ∃ own inherited found, p.Flattens s d parameters bases members ids own inherited found := by
  obtain ⟨own, found, hown, hlength, heach, rfl⟩ := hlisted parameters bases members hbody
  have hmembers := hown.members h hbody
  have hnames : own.map s.propertyName = members.map (·.name) := map_eq_of_forall₂ hmembers fun _ _ => IsMember.name
  refine ⟨own, _, found, rfl, hmembers, ?_, withNewNames_sublist s _ _, fun q => ?_, (names_withNewNames s _ _).1,
    fun q hq => ?_⟩
  · refine List.forall₂_iff_get.2 ⟨hlength.symm, fun i hi hi' => ?_⟩
    exact (heach i _ _ (List.getElem?_eq_getElem hi) (List.getElem?_eq_getElem hi')).has
  · rw [mem_withNewNames_iff, hnames]
  · rw [List.map_append, List.mem_append]
    by_cases hmem : s.propertyName q ∈ own.map s.propertyName
    · exact .inl hmem
    · exact .inr (complete_of_withNewNames hq hmem)

/-! ## Whatever was asked for before -/

/-- The properties of the type of a declaration. -/
def declaredProperties (p : Project) (d : DeclarationId) : Resolving (List PropertyId) := do
  p.properties (← p.declarationType d)

theorem valid_of_body {body : DeclarationBody} (h : p.body? d = some body) :
    ∃ declaration, p.declaration? d = some declaration := by
  obtain ⟨declaration, hd, _⟩ := Option.map_eq_some_iff.1 h
  exact ⟨declaration, hd⟩

/-- The type of an interface was made for it. -/
theorem origin_of_interface (h : p.Charted s c) (ht : s.declared? d = some t) {parameters : List Text} {bases : List Base}
    {members : List (Property TypeExpr)} (hbody : p.body? d = some (.interface parameters bases members)) :
    c.types t.index = .declaration d := by
  obtain ⟨_, ⟨_, _, horigin⟩, _⟩ := h.entries.entry ht
  rwa [hbody] at horigin

section
variable (hacyclic : ∀ d, ¬ Relation.TransGen p.Inherits d d)
include hacyclic

theorem declaredProperties_tidy (h : p.Tidy (fun _ => False) s c) (hvalid : ∃ declaration, p.declaration? d = some declaration) :
    p.Tidily (fun _ => False) s c (p.declaredProperties d s) fun ids s' _ =>
      ∃ t, s'.declared? d = some t ∧ (s'.cell t).properties = .listed ids :=
  (declarationType_tidy h hvalid).bind fun t _ _ h' _ ht =>
    (properties_tidy hacyclic h' (h'.entries.lt ht)).mono fun _ _ _ _ hgrows hlisted =>
      ⟨t, hgrows.declared d t ht, hlisted⟩

omit hacyclic in
/-- The properties of an interface in two stores that come from different questions. -/
theorem declaredProperties_alike (hfree : p.OrderFree {}) (h : p.Tidy (fun _ => False) s c) (hgrows : Grows {} s c₀ c)
    (h' : p.Tidy (fun _ => False) s' c') (hgrows' : Grows {} s' c₀ c') {t u : TypeId} {ids ids' : List PropertyId}
    {parameters : List Text} {bases : List Base} {members : List (Property TypeExpr)}
    (hbody : p.body? d = some (.interface parameters bases members)) (ht : s.declared? d = some t)
    (hu : s'.declared? d = some u) (hlisted : (s.cell t).properties = .listed ids)
    (hlisted' : (s'.cell u).properties = .listed ids') :
    List.Forall₂ (fun q q' => ∃ (m : Property TypeExpr) (r r' : Resolution),
      s.property? q = some { m with type := r } ∧ s'.property? q' = some { m with type := r' }) ids ids' := by
  have htwins : p.Twins {} c₀ s c s' c' := ⟨charted_empty p c₀, h, h', hgrows, hgrows'⟩
  have hlt := h.entries.lt ht
  have hlt' := h'.entries.lt hu
  have horigin : c.origin t = c'.origin u :=
    (origin_of_interface h.toCharted ht hbody).trans (origin_of_interface h'.toCharted hu hbody).symm
  refine forall₂_of_map_eq (htwins.listed_alike hfree p.interfaces hlt hlt' horigin hlisted hlisted'
    fun b _ hb hout => absurd (mem_interfaces hb) hout) fun q hq q' hq' heq => ?_
  exact h.property_alike h'.toCharted (listed_lt h.toCharted hlt hlisted q hq) (listed_lt h'.toCharted hlt' hlisted' q' hq') heq

/-- An interface has its own members and then, base after base, what has a new name,
whatever was asked for before; the store is one that is reached, so the same holds of
the bases. Where names do not lead in circles the properties are the same after any
other questions. -/
theorem interface_flattened (h : p.Reached news s) {parameters : List Text} {bases : List Base}
    {members : List (Property TypeExpr)} (hbody : p.body? d = some (.interface parameters bases members)) :
    let made := p.declaredProperties d s
    (∃ own inherited found, p.Flattens made.2 d parameters bases members made.1 own inherited found) ∧
      (∃ more, p.Reached more made.2) ∧
      (p.OrderFree {} → ∀ news' s', p.Reached news' s' →
        let made' := p.declaredProperties d s'
        List.Forall₂ (fun q q' => ∃ (m : Property TypeExpr) (r r' : Resolution),
          made.2.property? q = some { m with type := r } ∧ made'.2.property? q' = some { m with type := r' })
          made.1 made'.1) := by
  intro made
  have hvalid := valid_of_body hbody
  have c₀ : Chart := ⟨fun _ => .value d 0, fun _ => (.value d 0, 0)⟩
  have hfound {news : List Question} {s : Store} (h : p.Reached news s) :
      ∃ c t, p.Tidy (fun _ => False) (p.declaredProperties d s).2 c ∧ Grows {} (p.declaredProperties d s).2 c₀ c ∧
        (p.declaredProperties d s).2.declared? d = some t ∧
        ((p.declaredProperties d s).2.cell t).properties = .listed (p.declaredProperties d s).1 := by
    obtain ⟨c, htidy, hgrows⟩ := h.tidy hacyclic c₀
    obtain ⟨c', htidy', hgrows', t, ht, hlisted⟩ := declaredProperties_tidy hacyclic htidy hvalid
    exact ⟨c', t, htidy', hgrows.trans hgrows', ht, hlisted⟩
  obtain ⟨c, t, htidy, hgrows, ht, hlisted⟩ := hfound h
  refine ⟨?_, ?_, fun hfree news' s' h' => ?_⟩
  · have horigin := origin_of_interface htidy.toCharted ht hbody
    exact (htidy.inherited t d _ (htidy.entries.lt ht) horigin hlisted).flattens htidy.toCharted hbody
  · obtain ⟨c₁, htidy₁, _⟩ := h.tidy hacyclic c₀
    obtain ⟨c₂, htidy₂, _, hdeclared⟩ := declarationType_tidy htidy₁ hvalid
    obtain ⟨_, htyped⟩ := h.ask (q := .declaration d) hvalid
    exact htyped.ask (q := .properties (p.declarationType d s).1) (htidy₂.entries.lt hdeclared)
  · obtain ⟨c', u, htidy', hgrows', hu, hlisted'⟩ := hfound h'
    exact declaredProperties_alike hfree htidy hgrows htidy' hgrows' hbody ht hu hlisted hlisted'

end

/-- An interface stands for itself only. -/
theorem Gives.eq_of_interface {a : DeclarationId} (h : p.Gives a d) {parameters : List Text} {bases : List Base}
    {members : List (Property TypeExpr)} (hbody : p.body? a = some (.interface parameters bases members)) : d = a := by
  cases h with
  | itself => rfl
  | aliased halias _ =>
    rw [hbody] at halias
    cases halias

/-- A member without docs. -/
def plainMember (name keyword : Text) : Property TypeExpr := { name, isOptional := false, type := .keyword keyword, docs := {} }

/-- A base without type arguments. -/
def plainBase (name : Text) : Base := { name, arguments := [], text := name }

/-- The interfaces `A { id: string; kind: string }`, `B extends A { b: string }` and
`C extends A { kind: number }`, `type D = B & C`, and `interface E extends D, A { b: number }`. -/
def diamondProject : Project where
  units := [{ name := "u", declarations := [
    { name := "A", docs := {}, body := .interface [] [] [plainMember "id" "string", plainMember "kind" "string"] },
    { name := "B", docs := {}, body := .interface [] [plainBase "A"] [plainMember "b" "string"] },
    { name := "C", docs := {}, body := .interface [] [plainBase "A"] [plainMember "kind" "number"] },
    { name := "D", docs := {},
      body := .typeAlias [] (.intersection [.reference "B" [] "B", .reference "C" [] "C"] "B & C") },
    { name := "E", docs := {}, body := .interface [] [plainBase "D", plainBase "A"] [plainMember "b" "number"] }] }]

/-- What the alias gives comes before the interface that extends it. -/
theorem gives_diamond {d : DeclarationId} (h : diamondProject.Gives ⟨0, 3⟩ d) : d.index < 4 := by
  cases h with
  | itself => decide
  | aliased halias hoffers =>
    cases halias
    cases hoffers with
    | named htarget _ => cases htarget
    | member hmem hoffers =>
      rcases List.mem_pair.1 hmem with rfl | rfl
      · cases hoffers with
        | named htarget hgives =>
          cases htarget
          rw [hgives.eq_of_interface rfl]
          decide
      · cases hoffers with
        | named htarget hgives =>
          cases htarget
          rw [hgives.eq_of_interface rfl]
          decide

/-- Interfaces inherit from those before them. -/
theorem inherits_diamond {a b : DeclarationId} (h : diamondProject.Inherits a b) : b.index < a.index := by
  obtain ⟨parameters, bases, members, base, target, hbody, hmem, hlookup, hgives⟩ := h
  obtain ⟨unit, index⟩ := a
  rcases unit with _ | unit
  · rcases index with _ | _ | _ | _ | _ | index
    · cases hbody
      cases hmem
    · cases hbody
      cases List.mem_singleton.1 hmem
      cases hlookup
      rw [hgives.eq_of_interface rfl]
      decide
    · cases hbody
      cases List.mem_singleton.1 hmem
      cases hlookup
      rw [hgives.eq_of_interface rfl]
      decide
    · cases hbody
    · cases hbody
      rcases List.mem_pair.1 hmem with rfl | rfl
      · cases hlookup
        exact gives_diamond hgives
      · cases hlookup
        rw [hgives.eq_of_interface rfl]
        decide
    · cases hbody
  · cases hbody

theorem acyclic_diamond (d : DeclarationId) : ¬ Relation.TransGen diamondProject.Inherits d d := by
  intro hcycle
  have hbefore {a b : DeclarationId} (h : Relation.TransGen diamondProject.Inherits a b) : b.index < a.index := by
    induction h with
    | single h => exact inherits_diamond h
    | tail _ h ih => exact Nat.lt_trans (inherits_diamond h) ih
  exact Nat.lt_irrefl _ (hbefore hcycle)

/-- The properties of `C` have been asked for before. What comes from `A` in more than
one way is there once, and `B` comes before `C`. -/
theorem interface_flattened_diamond : ∃ ids s own inherited found,
    diamondProject.declaredProperties ⟨0, 4⟩ (diamondProject.declaredProperties ⟨0, 2⟩ {}).2 = (ids, s) ∧
      ids.map s.propertyName = ["b", "id", "kind"] ∧
      diamondProject.Flattens s ⟨0, 4⟩ [] [plainBase "D", plainBase "A"] [plainMember "b" "number"] ids own inherited
        found := by
  obtain ⟨_, ⟨_, hreached⟩, _⟩ := interface_flattened acyclic_diamond .start
    (show diamondProject.body? ⟨0, 2⟩ = some (.interface [] [plainBase "A"] [plainMember "kind" "number"]) from rfl)
  obtain ⟨⟨own, inherited, found, hflattens⟩, _⟩ := interface_flattened acyclic_diamond hreached
    (show diamondProject.body? ⟨0, 4⟩ =
      some (.interface [] [plainBase "D", plainBase "A"] [plainMember "b" "number"]) from rfl)
  have hnames : (diamondProject.declaredProperties ⟨0, 4⟩ (diamondProject.declaredProperties ⟨0, 2⟩ {}).2).1.map
      (diamondProject.declaredProperties ⟨0, 4⟩ (diamondProject.declaredProperties ⟨0, 2⟩ {}).2).2.propertyName =
        ["b", "id", "kind"] := by cbv
  exact ⟨_, _, own, inherited, found, rfl, hnames, hflattens⟩

end Project

end WireSchema
