import WireSchema.Project.Resolve
/-!
# Where types come from

A node is made for an expression at a place of the project: somewhere in the
definition of an alias, or in the type of a member of an object shape. The
origin of a node says which place it is. Interfaces and enumerations have nodes
of their own, and distributing an intersection makes more than one node at a
place.
-/

namespace WireSchema

namespace TypeExpr

/-- The types in the holes of a template. -/
def holes : List (Span TypeExpr) → List TypeExpr
  | [] => []
  | .chunk _ :: rest => holes rest
  | .hole e :: rest => e :: holes rest

/-- The parts of a type that are resolved with it. -/
def parts : TypeExpr → List TypeExpr
  | template spans _ => holes spans
  | array element _ => [element]
  | tuple elements _ false => elements
  | union members _ => members
  | intersection members _ => members
  | reference _ arguments _ => arguments
  | _ => []

/-- The part at a place: each step goes to a part of a part, the last step first. -/
def partAt (e : TypeExpr) : List Nat → Option TypeExpr
  | [] => some e
  | i :: steps => (partAt e steps).bind (·.parts[i]?)

end TypeExpr

mutual

/-- A type that is resolved by itself. -/
inductive Root where
  /-- The definition of an alias. -/
  | body (id : DeclarationId)
  /-- The type of a member of an object shape or an interface. -/
  | member (owner : Origin) (index : Nat)

/-- What a node is made for. -/
inductive Origin where
  /-- An interface or an enumeration. -/
  | declaration (id : DeclarationId)
  /-- A member of an enumeration. -/
  | value (id : DeclarationId) (index : Nat)
  /-- A part of a type, and for an intersection which choices from its unions. -/
  | part (root : Root) (steps : List Nat) (choice : List Nat)

end

namespace Project

variable (p : Project)

/-- The declaration that a name without type arguments stands for. -/
def target? (context : Context) : TypeExpr → Option DeclarationId
  | .reference name [] _ =>
    if context.parameters.contains name then none else p.lookup? context.unit name
  | _ => none

mutual

/-- A root with the context it stands in. -/
def rootType? : Root → Option (Context × TypeExpr)
  | .body id =>
    match p.body? id with
    | some (.typeAlias parameters type) => some ({ unit := id.unit, parameters }, type)
    | _ => none
  | .member owner index =>
    (membersOf? owner).bind fun (context, members) => members[index]?.map fun m => (context, m.type)

/-- The members of an object shape or an interface. -/
def membersOf? : Origin → Option (Context × List (Property TypeExpr))
  | .declaration id =>
    match p.body? id with
    | some (.interface parameters _ members) => some ({ unit := id.unit, parameters }, members)
    | _ => none
  | .value _ _ => none
  | .part root steps _ =>
    match rootType? root with
    | some (context, e) =>
      match e.partAt steps with
      | some (.object members _) => some (context, members)
      | _ => none
    | none => none

end

/-- A part of a root with the context it stands in. -/
def partType? (root : Root) (steps : List Nat) : Option (Context × TypeExpr) :=
  (p.rootType? root).bind fun (context, e) => (e.partAt steps).map (context, ·)

/-- A part of the alias's definition is the bare name of the other declaration. -/
def Names (d other : DeclarationId) : Prop :=
  ∃ steps context e, p.partType? (.body d) steps = some (context, e) ∧ p.target? context e = some other

/-- From one declaration to another through the definitions of aliases. -/
inductive Leads : DeclarationId → DeclarationId → Prop where
  | refl (d : DeclarationId) : Leads d d
  | step {a b d : DeclarationId} : p.Names a b → Leads b d → Leads a d

variable {p} {root : Root} {steps : List Nat} {context : Context} {e : TypeExpr} {d : DeclarationId}

theorem Leads.trans {a b d : DeclarationId} (h : p.Leads a b) (h' : p.Leads b d) : p.Leads a d := by
  induction h with
  | refl => exact h'
  | step hnames _ ih => exact .step hnames (ih h')

theorem partType?_eq_some :
    p.partType? root steps = some (context, e) ↔
      ∃ whole, p.rootType? root = some (context, whole) ∧ whole.partAt steps = some e := by
  rw [partType?, Option.bind_eq_some_iff]
  constructor
  · rintro ⟨⟨context', whole⟩, hroot, hpart⟩
    obtain ⟨e', he', heq⟩ := Option.map_eq_some_iff.1 hpart
    cases heq
    exact ⟨whole, hroot, he'⟩
  · rintro ⟨whole, hroot, hpart⟩
    exact ⟨(context, whole), hroot, by simp [hpart]⟩

theorem partType?_nil : p.partType? root [] = p.rootType? root := by
  rw [partType?]
  cases p.rootType? root <;> rfl

theorem partType?_cons {i : Nat} {part : TypeExpr} (h : p.partType? root steps = some (context, e))
    (hi : e.parts[i]? = some part) : p.partType? root (i :: steps) = some (context, part) := by
  obtain ⟨whole, hroot, hpart⟩ := partType?_eq_some.1 h
  refine partType?_eq_some.2 ⟨whole, hroot, ?_⟩
  rw [TypeExpr.partAt, hpart, Option.bind_some, hi]

theorem findIn?_valid {place : Nat} {name : Text} (h : p.findIn? place name = some d) :
    ∃ declaration, p.declaration? d = some declaration := by
  simp only [findIn?, bind, Option.bind_eq_some_iff, pure, Option.some.injEq] at h
  obtain ⟨unit, hunit, index, hindex, rfl⟩ := h
  obtain ⟨hlt, _⟩ := List.findIdx?_eq_some_iff_getElem.1 hindex
  refine ⟨unit.declarations[index], ?_⟩
  simp [declaration?, hunit, hlt]

/-- A name is looked up as a declaration that is there. -/
theorem lookup?_valid {place : Nat} {name : Text} (h : p.lookup? place name = some d) :
    ∃ declaration, p.declaration? d = some declaration := by
  rw [lookup?] at h
  cases hunit : p.findIn? place name with
  | some id =>
    rw [hunit] at h
    cases h
    exact findIn?_valid hunit
  | none =>
    rw [hunit] at h
    obtain ⟨_, _, hfound⟩ := List.exists_of_findSome?_eq_some h
    exact findIn?_valid hfound

theorem target?_eq_some :
    p.target? context e = some d ↔ ∃ name text, e = .reference name [] text ∧
      context.parameters.contains name = false ∧ p.lookup? context.unit name = some d := by
  constructor
  · intro h
    unfold target? at h
    split at h
    next name text =>
      split at h
      · cases h
      next hnot => exact ⟨name, text, rfl, Bool.eq_false_iff.2 hnot, h⟩
    · cases h
  · rintro ⟨name, text, rfl, hnot, hlookup⟩
    rw [target?, hnot, if_neg Bool.false_ne_true, hlookup]

end Project

end WireSchema
