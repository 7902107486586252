import WireSchema.Proofs.TypeSpec.Outcome
import WireSchema.Proofs.TypeSpec.Written
/-!
# What is written at a place

The chart of an outcome says which node the type at a place of the source has.
A type inside of another one that names nothing has a node of its own, and no
model stands for that node, so it is written in full.
-/

namespace WireSchema

open Project TypeSpec

variable {p : Project} {config : Config} {s : Store} {c : Chart} {root : Root} {steps : List Nat} {context : Context}
  {e : TypeExpr} {t : TypeId} {setting : Setting}

/-- The place is inside of another type, or the type of a member. -/
def Inner (root : Root) (steps : List Nat) : Prop := ∀ d, root = .body d → steps ≠ []

/-- The type stands at the place, and `t` is the node it has there. -/
structure Stands (p : Project) (s : Store) (c : Chart) (root : Root) (steps : List Nat) (context : Context)
    (e : TypeExpr) (t : TypeId) : Prop where
  part : p.partType? root steps = some (context, e)
  denotes : p.Denotes s c root steps context e t

/-! ## Nodes without models -/

/-- The type of an exported declaration is a declaration's own node or that of
the definition of an alias. -/
theorem Registry.Covers.isWhole {r : Registry} (hr : Covers p config s r) (h : p.Charted s c) {model : Model}
    (hmodel : model ∈ r.models) : IsWhole (c.types model.type.index) := by
  obtain ⟨d, hd⟩ := hr.sound model hmodel
  exact h.entries.isWhole hd.type

theorem Registry.Covers.find?_eq_none {r : Registry} (hr : Covers p config s r) (h : p.Charted s c)
    (ht : ¬ IsWhole (c.types t.index)) : r.find? t = none := by
  rw [Registry.find?, List.find?_eq_none]
  intro model hmodel heq
  rw [beq_iff_eq] at heq
  exact ht (heq ▸ hr.isWhole h hmodel)

theorem not_isWhole_part (h : Inner root steps) (choice : List Nat) : ¬ IsWhole (.part root steps choice) := by
  rintro ⟨d, heq | heq⟩
  · cases heq
  · cases heq
    exact h d rfl rfl

theorem not_isWhole_value (d : DeclarationId) (i : Nat) : ¬ IsWhole (.value d i) := by
  rintro ⟨d, heq | heq⟩ <;> cases heq

/-- A type that names nothing has a node of its own. -/
theorem Stands.origin (h : Stands p s c root steps context e t) (htarget : p.target? context e = none) :
    t.index < s.types.size ∧ c.types t.index = .part root steps [] := by
  cases h.denotes with
  | declared hd => rw [htarget] at hd; cases hd
  | own _ hlt horigin => exact ⟨hlt, horigin⟩

/-- The node of a type that names nothing and is no intersection. -/
theorem Stands.node (h : Stands p s c root steps context e t) (hcharted : p.Charted s c)
    (htarget : p.target? context e = none) (hmeet : isMeet e = false) :
    ∃ types, p.PartsDenote s c root steps context e.parts types ∧ s.node t = p.nodeOf s context types e := by
  obtain ⟨hlt, horigin⟩ := h.origin htarget
  have hnode := hcharted.nodes t hlt
  rw [NodeOk, horigin] at hnode
  obtain ⟨context', e', types, hpart, hparts, _, hkind⟩ := PartNode.cases hnode
  rw [h.part] at hpart
  cases hpart
  rcases hkind with ⟨_, _, rfl, _⟩ | ⟨_, hnode⟩
  · cases hmeet
  · exact ⟨types, hparts, hnode⟩

/-- The parts of a type that names nothing and is no intersection stand in it. -/
theorem Stands.exists_part (h : Stands p s c root steps context e t) (hcharted : p.Charted s c)
    (htarget : p.target? context e = none) (hmeet : isMeet e = false) {i : Nat} {part : TypeExpr}
    (hpart : e.parts[i]? = some part) : ∃ u, Stands p s c root (i :: steps) context part u := by
  obtain ⟨types, hparts, _⟩ := h.node hcharted htarget hmeet
  have hlt : i < types.length := by
    rw [hparts.length]
    exact (List.getElem?_eq_some_iff.1 hpart).1
  exact ⟨types[i], partType?_cons h.part hpart, hparts.each i part _ hpart (List.getElem?_eq_getElem hlt)⟩

/-- No model stands for an inner type that names nothing. -/
theorem Document.Outcome.unregistered {names : List Text} {sections : List Section}
    (h : Outcome p config names sections s setting c) (hinner : Inner root steps)
    (horigin : c.types t.index = .part root steps []) : setting.registry.find? t = none := by
  refine h.registry.find?_eq_none h.charted ?_
  rw [horigin]
  exact not_isWhole_part hinner []

/-- The definition of an exported alias stands where it is defined. -/
theorem Document.Outcome.exists_body {names : List Text} {sections : List Section}
    (h : Outcome p config names sections s setting c) {d : DeclarationId} {declaration : Declaration}
    {parameters : List Text} {name : Text} (hd : p.declaration? d = some declaration)
    (hbody : declaration.body = .typeAlias parameters e) (hname : Registry.exportName? config declaration = some name)
    (htarget : p.target? { unit := d.unit, parameters } e = none) :
    ∃ t, Stands p s c (.body d) [] { unit := d.unit, parameters } e t := by
  have hwhole : p.body? d = some (.typeAlias parameters e) := by rw [body?, hd, ← hbody]; rfl
  obtain ⟨model, hmodel, rfl⟩ := h.registry.complete d declaration name hd hname
  obtain ⟨_, hexports⟩ := h.registry.sound model hmodel
  obtain ⟨earlier, ⟨hlt, _, hentry⟩, _⟩ := h.charted.entries.entry hexports.type
  rw [hwhole] at hentry
  have hpart : p.partType? (.body model.origin) [] = some ({ unit := model.origin.unit, parameters }, e) := by
    rw [partType?_nil, rootType?, hwhole]
  rcases hentry with ⟨other, hother, _⟩ | ⟨_, horigin⟩
  · rw [htarget] at hother
    cases hother
  · exact ⟨model.type, hpart, .own (fun d hd => by rw [htarget] at hd; cases hd) hlt horigin⟩

/-! ## Texts -/

/-- Wherever the type is written in full, it is written as the text. -/
def WrittenInFull (setting : Setting) (s : Store) (t : TypeId) (text : Text) : Prop :=
  ∀ depth path, ∃ events, convertIn setting (depth + 1) path t s = some (.text text, { s with events })

/-- Wherever the type is referred to, it is written as the text. -/
def ReferredToAs (setting : Setting) (s : Store) (t : TypeId) (text : Text) : Prop :=
  ∀ depth path, ∃ events,
    reference setting (convertIn setting (depth + 1)) path t s = some (.text text, { s with events })

/-- A node of no known shape is written as its text. -/
theorem writtenInFull_other {text : Text} (hnode : s.node t = { shape := .other, text }) :
    WrittenInFull setting s t text := by
  intro depth path
  obtain ⟨events, hwritten⟩ := convertWith_other (convertIn setting depth) path (by rw [hnode])
  rw [hnode] at hwritten
  exact ⟨events, hwritten⟩

theorem writtenInFull_string (hshape : (s.node t).shape = .string) : WrittenInFull setting s t "string" := by
  intro depth path
  show ∃ events, convertWith setting (convertIn setting depth) path t s = _
  rw [convertWith_apply]
  simp only [hshape]
  exact ⟨s.events, rfl⟩

theorem referredToAs_of_find? {text : Text} (h : WrittenInFull setting s t text) (hfind : setting.registry.find? t = none) :
    ReferredToAs setting s t text := by
  intro depth path
  rw [reference, hfind]
  exact h depth path

theorem ReferredToAs.unique {text text' : Text} (h : ReferredToAs setting s t text) (h' : ReferredToAs setting s t text') :
    text = text' := by
  obtain ⟨_, hrun⟩ := h 0 []
  obtain ⟨_, hrun'⟩ := h' 0 []
  rw [hrun] at hrun'
  cases hrun'
  rfl

end WireSchema
