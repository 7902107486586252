import WireSchema.Proofs.Project.Spread
import WireSchema.Proofs.TypeSpec.Answered
import WireSchema.Proofs.TypeSpec.Asking
import WireSchema.Proofs.TypeSpec.FieldNames
import WireSchema.Proofs.TypeSpec.Placed
/-!
# The fields between braces

A block has a field for each property that is found, in order, under the name of
the property. Interfaces have their own members as often as they are written,
and inherit only names that are new; object shapes have just their members; the
names in the block of an intersection are never repeated.
-/

namespace WireSchema

open Project TypeSpec

variable {p : Project} {config : Config} {s s' : Store} {c : Chart} {setting : Setting} {t : TypeId}

/-! ## Blocks -/

namespace TypeSpec

/-- The field of a name, behind its decorators. -/
def FieldOf (name : Text) (layout : Layout) : Prop :=
  ∃ (decorators : List Layout) (mark : Text) (written : Layout),
    layout = .lines (decorators ++ [.concat [.text (fieldName name), .text mark, ": ", written]])

/-- A block with fields of these names. -/
def Block (names : List Text) (layout : Layout) : Prop :=
  (names = [] ∧ layout = .text "\x7b\x7d") ∨
    names ≠ [] ∧ ∃ fields, List.Forall₂ FieldOf names fields ∧
      layout = .braced (.statements fields)

theorem FieldOf.unique {name other : Text} {layout : Layout} (h : FieldOf name layout) (h' : FieldOf other layout) :
    name = other := by
  obtain ⟨decorators, mark, written, rfl⟩ := h
  obtain ⟨decorators', mark', written', heq⟩ := h'
  rw [Layout.lines, Layout.lines, Layout.arranged.injEq] at heq
  obtain ⟨_, hlast⟩ := List.append_inj' heq.2 rfl
  rw [List.cons.injEq, Layout.concat, Layout.concat, Layout.arranged.injEq] at hlast
  obtain ⟨hname, _⟩ := List.cons.inj hlast.1.2
  exact fieldName_injective (Layout.text.inj hname)

/-- The names of a block can be read off it. -/
theorem Block.unique {names others : List Text} {layout : Layout} (h : Block names layout) (h' : Block others layout) :
    names = others := by
  rcases h with ⟨rfl, rfl⟩ | ⟨_, fields, hfields, rfl⟩ <;> rcases h' with ⟨rfl, heq⟩ | ⟨_, fields', hfields', heq⟩
  · rfl
  · cases heq
  · cases heq
  · cases heq
    have hunique : Relator.LeftUnique FieldOf := fun _ _ _ h h' => h.unique h'
    exact List.left_unique_forall₂' hunique hfields hfields'

/-! ## Writing fields -/

section
variable {write : Writer} {path : List TypeId} {layout : Layout}

theorem field_written {q : PropertyId} (hq : q.index < s.properties.size)
    (hrun : field setting write path q s = some (layout, s')) : FieldOf (s.propertyName q) layout := by
  have hproperty : s.property? q = some s.properties[q.index] := Array.getElem?_eq_getElem hq
  rw [field_eq hproperty, typed, Converting.bind_apply, Option.bind_eq_some_iff] at hrun
  obtain ⟨⟨t, s₁⟩, _, hrun⟩ := hrun
  rw [Converting.bind_apply, Option.bind_eq_some_iff] at hrun
  obtain ⟨⟨written, s₂⟩, _, hrun⟩ := hrun
  cases hrun
  rw [Store.propertyName, hproperty]
  exact ⟨_, _, written, rfl⟩

/-- Writing a field leaves the names of the others alone. -/
theorem fields_written (hfollows : ∀ q, Follows p.Unfolds (field setting write path q)) {ids : List PropertyId}
    (hids : ∀ q ∈ ids, q.index < s.properties.size) {fields : List Layout}
    (hrun : ids.mapM (field setting write path) s = some (fields, s')) :
    List.Forall₂ FieldOf (ids.map s.propertyName) fields := by
  induction ids generalizing s fields with
  | nil =>
    cases hrun
    exact .nil
  | cons q rest ih =>
    rw [List.mapM_cons, Converting.bind_apply, Option.bind_eq_some_iff] at hrun
    obtain ⟨⟨first, s₁⟩, hfirst, hrun⟩ := hrun
    rw [Converting.bind_apply, Option.bind_eq_some_iff] at hrun
    obtain ⟨⟨others, s₂⟩, hrest, hrun⟩ := hrun
    cases hrun
    have hunfolds : p.Unfolds s s₁ := hfollows q s first s₁ hfirst
    have hrest' (q' : PropertyId) (hq' : q' ∈ rest) : q'.index < s.properties.size := hids q' (List.mem_cons_of_mem q hq')
    rw [List.map_cons, ← hunfolds.map_name hrest']
    exact .cons (field_written (hids q List.mem_cons_self) hfirst)
      (ih (fun q' hq' => Nat.lt_of_lt_of_le (hrest' q' hq') hunfolds.count) hrest)

/-- The block of properties has their names. -/
theorem body_written (hfollows : ∀ q, Follows p.Unfolds (field setting write path q)) {ids : List PropertyId}
    (hids : ∀ q ∈ ids, q.index < s.properties.size) (hrun : body setting write path ids s = some (layout, s')) :
    Block (ids.map s.propertyName) layout := by
  rw [body] at hrun
  cases ids with
  | nil =>
    cases hrun
    exact .inl ⟨rfl, rfl⟩
  | cons q rest =>
    rw [List.isEmpty_cons, if_neg Bool.false_ne_true, Converting.bind_apply, Option.bind_eq_some_iff] at hrun
    obtain ⟨⟨fields, s₁⟩, hfields, hrun⟩ := hrun
    cases hrun
    exact .inr ⟨List.cons_ne_nil _ _, fields, fields_written hfollows hids hfields, rfl⟩

end

/-! ## Types between braces -/

/-- The type is written in full with fields of these names, wherever that is not
inside of itself. -/
structure BlockOf (setting : Setting) (s : Store) (t : TypeId) (names : List Text) : Prop where
  written : ∀ depth path layout s', t ∉ path → convertIn setting depth path t s = some (layout, s') → Block names layout
  answers : ∃ depth layout s', convertIn setting depth [] t s = some (layout, s')

theorem BlockOf.unique {names others : List Text} (h : BlockOf setting s t names) (h' : BlockOf setting s t others) :
    names = others := by
  obtain ⟨depth, layout, s', hrun⟩ := h.answers
  exact (h.written depth [] layout s' nofun hrun).unique (h'.written depth [] layout s' nofun hrun)

theorem keeping_unfolds (p : Project) : p.Keeping p.Unfolds where
  refl := .refl
  trans h h' := h.trans h'
  events := .events
  declarationType := (lasting_unfolds p).declarationType
  properties t s := (propertiesIn_finds p.interfaces t s).unfolds
  propertyType := (lasting_unfolds p).propertyType

section
variable (hproject : setting.project = p) (hanswers : ∃ depth layout s', convertIn setting depth [] t s = some (layout, s'))
include hproject

theorem follows_fieldIn (depth : Nat) (path : List TypeId) (q : PropertyId) :
    Follows p.Unfolds (field setting (convertIn setting depth) path q) :=
  follows_field (keeping_unfolds p) (follows_convertIn (keeping_unfolds p) hproject depth) path hproject q

include hanswers

/-- Where the type is not being written already, what is found of it is written as a block. -/
theorem blockOf_of_found {find : Converting (List PropertyId)}
    (hconvert : ∀ write path, t ∉ path →
      convertWith setting write path t s = (find >>= body setting write (t :: path)) s)
    {ids : List PropertyId} {s₁ : Store} (hfind : find s = some (ids, s₁))
    (hids : ∀ q ∈ ids, q.index < s₁.properties.size) : BlockOf setting s t (ids.map s₁.propertyName) where
  answers := hanswers
  written depth path layout s' hpath hrun := by
    cases depth with
    | zero => cases hrun
    | succ depth =>
      rw [convertIn, hconvert _ _ hpath, Converting.bind_apply, hfind, Option.bind_some] at hrun
      exact body_written (follows_fieldIn hproject depth _) hids hrun

/-- An object shape or an interface has a field for each of its properties. -/
theorem blockOf_object (hshape : (s.node t).shape = .object)
    (hids : ∀ q ∈ (p.properties t s).1, q.index < (p.properties t s).2.properties.size) :
    BlockOf setting s t ((p.properties t s).1.map (p.properties t s).2.propertyName) := by
  have hfind : (liftM (p.properties t) : Converting (List PropertyId)) s = some (p.properties t s) := rfl
  refine blockOf_of_found hproject hanswers (fun write path hpath => ?_) hfind hids
  have hnot : path.contains t = false := Bool.eq_false_iff.2 fun h => hpath (List.contains_iff_mem.1 h)
  rw [convertWith_apply]
  simp only [hshape, hnot, Bool.false_eq_true, if_false, hproject]

/-- An intersection has a field for each property that is merged. -/
theorem blockOf_intersection {members : List TypeId} (hshape : (s.node t).shape = .intersection members)
    {ids : List PropertyId} {s₁ : Store} (hmerged : mergedProperties setting (s.node t).text members s = some (ids, s₁))
    (hids : ∀ q ∈ ids, q.index < s₁.properties.size) : BlockOf setting s t (ids.map s₁.propertyName) := by
  refine blockOf_of_found hproject hanswers (fun write path hpath => ?_) hmerged hids
  have hnot : path.contains t = false := Bool.eq_false_iff.2 fun h => hpath (List.contains_iff_mem.1 h)
  rw [convertWith_apply]
  simp only [hshape, hnot, Bool.false_eq_true, if_false]

end

end TypeSpec

/-! ## Blocks of an outcome -/

namespace Project

variable {root : Root} {steps : List Nat} {context : Context} {members : List (Property TypeExpr)}

/-- The properties of an object shape have the names of its members. -/
theorem Lists.map_name {o : Origin} {ids : List PropertyId} (h : p.Lists s c o ids) (hcharted : p.Charted s c)
    (hmembers : p.membersOf? o = some (context, members)) (ho : ∀ d, o ≠ .declaration d) :
    ids.map s.propertyName = members.map (·.name) := by
  rw [Lists, hmembers] at h
  obtain ⟨hlt, own, others, rfl, hlength, hplaces, hothers⟩ := h
  have hnone : others = [] := by
    cases o with
    | declaration d => exact absurd rfl (ho d)
    | value d i => exact hothers
    | part root steps choice => exact hothers
  subst hnone
  rw [List.append_nil] at hlt ⊢
  refine List.ext_getElem (by rw [List.length_map, List.length_map, hlength]) fun k hk hk' => ?_
  rw [List.length_map] at hk hk'
  rw [List.getElem_map, List.getElem_map]
  obtain ⟨context', m, resolution, hmember, hrecord, _⟩ := hcharted.properties _ (hlt own[k] (List.getElem_mem hk))
  rw [hplaces k own[k] (List.getElem?_eq_getElem hk)] at hmember
  obtain ⟨members', hmembers', hm⟩ := memberAt?_eq_some.1 hmember
  rw [hmembers] at hmembers'
  cases hmembers'
  rw [List.getElem?_eq_getElem hk'] at hm
  cases hm
  rw [Store.propertyName, hrecord]
  rfl

/-- An interface that has got a type has an object shape, made for it. -/
theorem Charted.interface_node (h : p.Charted s c) {d : DeclarationId} (hd : p.IsInterface d)
    (hdeclared : s.declared? d = some t) : t.index < s.types.size ∧ (s.node t).shape = .object := by
  obtain ⟨parameters, bases, members, hbody⟩ := hd
  obtain ⟨earlier, ⟨hlt, _, hentry⟩, _⟩ := h.entries.entry hdeclared
  rw [hbody] at hentry
  refine ⟨hlt, ?_⟩
  have hnode := h.nodes t hlt
  rw [NodeOk, show c.types t.index = .declaration d from hentry] at hnode
  obtain ⟨declaration, hdeclaration, hkind⟩ := hnode
  rw [body?_eq hdeclaration] at hbody
  rw [Option.some.inj hbody] at hkind
  rw [show s.node t = _ from hkind]

end Project

namespace Document

variable {names : List Text} {sections : List Section}

/-- A conversion ends where all types can be written. -/
theorem exists_stage (hrun : convertUnits p config names {} = some (sections, s)) : ∃ w : Stage p, w.store = s := by
  obtain ⟨w, hw⟩ := Project.exists_empty p
  obtain ⟨sections', w', hrun', _⟩ := convertUnits_answers config names w
  rw [hw, hrun] at hrun'
  cases hrun'
  exact ⟨w', rfl⟩

namespace Outcome

variable (h : Outcome p config names sections s setting c)
  (hrun : convertUnits p config names {} = some (sections, s))
include h hrun

theorem answers (ht : t.index < s.types.size) : ∃ depth layout s', convertIn setting depth [] t s = some (layout, s') := by
  obtain ⟨w, rfl⟩ := exists_stage hrun
  obtain rfl := h.project
  obtain ⟨layout, w', hanswer, _⟩ := (convertIn_answers (.start ht) (Nat.le_refl _)).answer
  exact ⟨_, layout, w'.store, hanswer⟩

omit hrun in
/-- Asking for the properties of a type leads on to where they are listed. -/
theorem exists_properties (ht : t.index < s.types.size) :
    ∃ c₁, p.Charted (p.properties t s).2 c₁ ∧ Later s (p.properties t s).2 c c₁ ∧
      ((p.properties t s).2.cell t).properties = .listed (p.properties t s).1 :=
  propertiesIn_ok p.interfaces h.charted ht

/-- The fields of an interface are its own members, and then what it inherits. -/
theorem interface_block {d : DeclarationId} {parameters : List Text} {bases : List Base}
    {members : List (Property TypeExpr)} (hbody : p.body? d = some (.interface parameters bases members))
    (hdeclared : s.declared? d = some t) :
    ∃ fields, BlockOf setting s t fields ∧ Spread (members.map (·.name)) fields := by
  have hinterface : p.IsInterface d := ⟨parameters, bases, members, hbody⟩
  obtain ⟨ht, hshape⟩ := h.charted.interface_node hinterface hdeclared
  obtain ⟨hbuilt, hlater⟩ := keeps_convertUnits (keeping_unfolds p) hrun
  have hunfolds : p.Unfolds {} s := hbuilt.trans hlater
  have hfilled : s.Filled := hunfolds.filled Store.filled_empty
  have hfinds : p.Finds s (p.properties t s) := propertiesIn_finds p.interfaces t s
  refine ⟨_, blockOf_object h.project (h.answers hrun ht) hshape (hfinds.there hfilled), ?_⟩
  -- the interface was given its type in the run, and its names are spread since then
  have hspread : p.SpreadAt s d t := by
    obtain ⟨before, behind, hentries, _⟩ := List.lookup_eq_some_iff.1 hdeclared
    have hmem : (d, t) ∈ s.declared := by
      rw [hentries]
      exact List.mem_append_right before List.mem_cons_self
    rcases hunfolds.declared Store.filled_empty d t hinterface hmem with hmem | hnew
    · cases hmem
    · exact hnew.2.2
  obtain ⟨_, _, _, hlisted⟩ := h.exists_properties ht
  rcases hfinds.unfolds.spread hfilled d t ht hspread with hpending | ⟨ids, hids, hnames⟩
  · rw [hlisted] at hpending
    cases hpending
  · rw [hlisted] at hids
    cases hids
    exact hnames parameters bases members hbody

/-- The fields of an object shape are its members. -/
theorem object_block {root : Root} {steps : List Nat} {context : Context} {members : List (Property TypeExpr)}
    {text : Text} (hstands : Stands p s c root steps context (.object members text) t) :
    BlockOf setting s t (members.map (·.name)) := by
  obtain ⟨ht, horigin⟩ := hstands.origin rfl
  obtain ⟨types, _, hnode⟩ := hstands.node h.charted rfl rfl
  obtain ⟨c₁, h₁, hlater, hlisted⟩ := h.exists_properties ht
  have ht₁ := Nat.lt_of_lt_of_le ht hlater.size
  have hblock := blockOf_object h.project (h.answers hrun ht) (by rw [hnode]; rfl) (listed_lt h₁ ht₁ hlisted)
  have hlists := h₁.listings t ht₁
  rw [ListingOk, hlisted, hlater.origin t.index ht, horigin] at hlists
  obtain ⟨whole, hroot, hpart⟩ := partType?_eq_some.1 hstands.part
  have hmembers : p.membersOf? (.part root steps []) = some (context, members) := by
    rw [membersOf?, hroot]
    simp only [hpart]
  rwa [hlists.map_name h₁ hmembers fun d hd => by cases hd] at hblock

/-- No field of an intersection is repeated. -/
theorem intersection_block {members : List TypeId} (ht : t.index < s.types.size)
    (hshape : (s.node t).shape = .intersection members) : ∃ fields, BlockOf setting s t fields ∧ fields.Nodup := by
  have hmembers (u : TypeId) (hu : u ∈ members) : u.index < s.types.size := by
    refine Nat.lt_trans (h.charted.child_lt ht ?_) ht
    rw [hshape]
    exact hu
  have hanswers := h.answers hrun ht
  obtain ⟨w, rfl⟩ := exists_stage hrun
  obtain rfl := h.project
  obtain ⟨ids, w', hmerged, _, hids, _⟩ :=
    (mergedProperties_does (C := staged setting.project) (w.store.node t).text hmembers).answer
  obtain ⟨_, _, _, hlt, _⟩ := settles_mergedProperties rfl h.charted _ hmembers ids _ hmerged
  refine ⟨_, blockOf_intersection rfl hanswers hshape hmerged hlt, ?_⟩
  rw [hids]
  exact (names_withNewNames _ [] _).1

end Outcome

end Document

/-! ## All blocks -/

/-- In all that comes of a conversion: an interface has fields for its own members,
however often a name is among them, and behind them for inherited ones with new
names, so its fields are distinct just if its own members are. An object shape has
a field for each member. The fields of an intersection are distinct. -/
theorem blocks_spread {names : List Text} {sections : List Section}
    (hrun : Document.convertUnits p config names {} = some (sections, s)) :
    ∃ setting c, Document.Outcome p config names sections s setting c ∧
      (∀ d parameters bases members t, p.body? d = some (.interface parameters bases members) →
        s.declared? d = some t → ∃ fields, BlockOf setting s t fields ∧ Spread (members.map (·.name)) fields ∧
          (fields.Nodup ↔ (members.map (·.name)).Nodup)) ∧
      (∀ root steps context members text t, Stands p s c root steps context (.object members text) t →
        BlockOf setting s t (members.map (·.name))) ∧
      ∀ t members, t.index < s.types.size → (s.node t).shape = .intersection members →
        ∃ fields, BlockOf setting s t fields ∧ fields.Nodup := by
  obtain ⟨setting, c, houtcome⟩ := Document.outcome hrun
  refine ⟨setting, c, houtcome, ?interfaces, ?objects, ?intersections⟩
  case interfaces =>
    intro d parameters bases members t hbody hdeclared
    obtain ⟨fields, hblock, hspread⟩ := houtcome.interface_block hrun hbody hdeclared
    exact ⟨fields, hblock, hspread, hspread.nodup_iff⟩
  case objects => exact fun _ _ _ _ _ _ hstands => houtcome.object_block hrun hstands
  case intersections => exact fun _ _ ht hshape => houtcome.intersection_block hrun ht hshape

/-- A member that is a string. -/
def stringMember (name : Text) : Property TypeExpr :=
  { name, isOptional := false, type := .keyword "string", docs := {} }

/-- `interface Base { id: string; name: string }` and `interface Derived extends Base
{ name: string; kind: string }`, of which the second is exported. -/
def derivedProject : Project where
  units := [{ name := "u", declarations := [
    { name := "Base", docs := {}, body := .interface [] [] [stringMember "id", stringMember "name"] },
    { name := "Derived", docs := { tags := [{ name := "model", text := [] }] }
      body := .interface [] [{ name := "Base", arguments := [], text := "Base" }]
        [stringMember "name", stringMember "kind"] }] }]

/-- What is inherited comes last and only under a new name. -/
theorem blocks_spread_derived : ∃ s setting t fields,
    Document.convertUnits derivedProject {} ["u"] {} =
      some ([.converted "u" "model Derived \x7b\n  name: string;\n  kind: string;\n  id: string;\n\x7d;" []], s) ∧
    s.declared? ⟨0, 1⟩ = some t ∧ BlockOf setting s t fields ∧ Spread ["name", "kind"] fields ∧ fields.Nodup := by
  have hrun : (Document.convertUnits derivedProject {} ["u"] {}).map (fun r => (r.1, r.2.declared? ⟨0, 1⟩)) =
      some ([.converted "u" "model Derived \x7b\n  name: string;\n  kind: string;\n  id: string;\n\x7d;" []],
        some ⟨0⟩) := by cbv
  obtain ⟨⟨sections, s⟩, hs, heq⟩ := Option.map_eq_some_iff.1 hrun
  obtain ⟨rfl, hdeclared⟩ := Prod.mk.inj heq
  obtain ⟨setting, c, houtcome, hinterfaces, _⟩ := blocks_spread hs
  obtain ⟨fields, hblock, hspread, hnodup⟩ := hinterfaces ⟨0, 1⟩ _ _ _ _ rfl hdeclared
  exact ⟨s, setting, ⟨0⟩, fields, hs, hdeclared, hblock, hspread, hnodup.2 (by decide)⟩

/-- An interface with two signatures of the method `f`. -/
def overloadProject : Project where
  units := [{ name := "u", declarations := [
    { name := "A", docs := { tags := [{ name := "model", text := [] }] }
      body := .interface [] []
        [{ name := "f", isOptional := false, type := .verbatim "() => void" .function, docs := {} },
         { name := "f", isOptional := false, type := .verbatim "(x: string) => void" .function, docs := {} }] }] }]

/-- Both signatures have a field in the block, under one name. -/
theorem block_repeats_overload : ∃ s setting c t fields,
    Document.Outcome overloadProject {} ["u"]
      [.converted "u" "model A \x7b\n  f: () => void;\n  f: (x: string) => void;\n\x7d;" []] s setting c ∧
    s.declared? ⟨0, 0⟩ = some t ∧ BlockOf setting s t fields ∧ ¬ fields.Nodup := by
  have hrun : (Document.convertUnits overloadProject {} ["u"] {}).map (fun r => (r.1, r.2.declared? ⟨0, 0⟩)) =
      some ([.converted "u" "model A \x7b\n  f: () => void;\n  f: (x: string) => void;\n\x7d;" []], some ⟨0⟩) := by cbv
  obtain ⟨⟨sections, s⟩, hs, heq⟩ := Option.map_eq_some_iff.1 hrun
  obtain ⟨rfl, hdeclared⟩ := Prod.mk.inj heq
  obtain ⟨setting, c, houtcome⟩ := Document.outcome hs
  obtain ⟨fields, hblock, hspread⟩ := houtcome.interface_block hs rfl hdeclared
  exact ⟨s, setting, c, ⟨0⟩, fields, houtcome, hdeclared, hblock, fun hnodup =>
    absurd (hspread.nodup_iff.1 hnodup) (by decide)⟩

end WireSchema
