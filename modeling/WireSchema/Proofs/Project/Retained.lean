import WireSchema.Proofs.Project.Costs
import WireSchema.Proofs.Project.Inherited
/-!
# What is found stays found

The properties of a type are found when they are first asked for. Whatever is asked
in between, whoever asks again is given the same ones, and nothing is found anew.
That holds of every store, in cycles of interfaces too, where the properties of an
interface may be asked for while they are being found.
-/

namespace WireSchema

namespace Project

open Resolving Store

variable {p : Project} {s s' s'' : Store} {d : DeclarationId} {t : TypeId} {ids : List PropertyId}

/-- The properties of a type have been found, or there is no interface to find them from. -/
def Found (p : Project) (s : Store) (t : TypeId) (ids : List PropertyId) : Prop :=
  (s.cell t).properties = .listed ids ∨
    ids = [] ∧ ∃ d, (s.cell t).properties = .ofInterface d ∧ ¬ p.IsInterface d

/-- There are no fewer types, and those whose properties have been found keep them. -/
structure Retains (p : Project) (s s' : Store) : Prop where
  size : s.types.size ≤ s'.types.size
  found : ∀ t ids, t.index < s.types.size → p.Found s t ids → p.Found s' t ids

namespace Retains

theorem refl (s : Store) : p.Retains s s := ⟨Nat.le_refl _, fun _ _ _ h => h⟩

theorem trans (h : p.Retains s s') (h' : p.Retains s' s'') : p.Retains s s'' where
  size := Nat.le_trans h.size h'.size
  found t ids ht hfound := h'.found t ids (Nat.lt_of_lt_of_le ht h.size) (h.found t ids ht hfound)

theorem of_types (htypes : s.types = s'.types) : p.Retains s s' where
  size := Nat.le_of_eq (congrArg Array.size htypes)
  found t ids _ hfound := by
    rwa [Found, cell, htypes] at hfound

theorem events (s : Store) (events : List Event) : p.Retains s { s with events } := of_types rfl

theorem added (s : Store) (cell : TypeCell) : p.Retains s (s.added cell) where
  size := by simp
  found t ids ht hfound := by
    rw [Found, cell_added ht]
    exact hfound

/-- The properties are kept of a type that has none yet, though there is something to find
them from. -/
theorem listing (h : p.Retains s s') (ht : t.index < s.types.size) (hopen : ∀ others, ¬ p.Found s t others)
    (ids : List PropertyId) : p.Retains s (s'.listing t ids) where
  size := by
    rw [Store.listing, Array.size_modify]
    exact h.size
  found u others hu hfound := by
    have hne : u ≠ t := fun heq => hopen others (heq ▸ hfound)
    rw [Found, cell_listing s' (Nat.lt_of_lt_of_le ht h.size), if_neg hne]
    exact h.found u others hu hfound

end Retains

/-! ## Resolving -/

theorem lasting_retains (p : Project) : p.Lasting p.Retains where
  refl := Retains.refl
  trans h h' := h.trans h'
  events := Retains.events
  added s _ _ := .added s _
  -- to know the type of a declaration changes no type
  declare h _ := h.trans (.of_types rfl)
  settled _ _ _ := .of_types rfl

/-! ## Finding properties -/

theorem pendingProperties_retains (context : Context) (members : List (Property TypeExpr)) (s : Store) :
    p.Retains s (pendingProperties context members s).2 :=
  (lasting_retains p).mapM (fun _ _ _ => .of_types rfl) s

theorem not_isInterface_of_body? {d : DeclarationId}
    (h : ∀ parameters bases members, p.body? d ≠ some (.interface parameters bases members)) : ¬ p.IsInterface d := by
  rintro ⟨parameters, bases, members, hbody⟩
  exact h _ _ _ hbody

/-- Finding properties leaves what was found before, and finds those that were asked for. -/
theorem propertiesIn_found (idle : List DeclarationId) (t : TypeId) (s : Store) :
    p.Retains s (p.propertiesIn idle t s).2 ∧
      (t.index < s.types.size → p.Found (p.propertiesIn idle t s).2 t (p.propertiesIn idle t s).1) := by
  have hlisting {t : TypeId} {s : Store} (made : List PropertyId × Store) (hopen : ∀ others, ¬ p.Found s t others)
      (h : p.Retains s made.2) :
      p.Retains s (made.2.listing t made.1) ∧
        (t.index < s.types.size → p.Found (made.2.listing t made.1) t made.1) := by
    have ht := lt_of_not_listed fun ids hids => hopen ids (.inl hids)
    exact ⟨h.listing ht hopen _, fun _ => .inl (listing_self made.2 (Nat.lt_of_lt_of_le ht h.size) _)⟩
  -- an interface whose properties have not been listed has none that were found
  have hopen {t : TypeId} {s : Store} {d : DeclarationId} {parameters : List Text} {bases : List Base}
      {members : List (Property TypeExpr)} (hproperties : (s.cell t).properties = .ofInterface d)
      (hbody : p.body? d = some (.interface parameters bases members)) (others : List PropertyId) : ¬ p.Found s t others := by
    intro hfound
    rw [Found, hproperties] at hfound
    obtain heq | ⟨_, d', heq, hd⟩ := hfound <;> cases heq
    exact hd ⟨parameters, bases, members, hbody⟩
  induction idle, t, s using propertiesIn_induction with
  | listed idle t s ids hproperties hrun =>
    rw [hrun]
    exact ⟨.refl s, fun _ => .inl hproperties⟩
  | members idle t s context members hproperties hrun =>
    rw [hrun]
    refine hlisting (pendingProperties context members s) (fun others hfound => ?_) (pendingProperties_retains _ _ s)
    rw [Found, hproperties] at hfound
    obtain heq | ⟨_, _, heq, _⟩ := hfound <;> cases heq
  | missing idle t s d hproperties hnone hrun =>
    rw [hrun]
    exact ⟨.refl s, fun _ => .inr ⟨rfl, d, hproperties, not_isInterface_of_body? hnone⟩⟩
  | busy idle t s d parameters bases members hproperties hbody _ hrun =>
    rw [hrun]
    exact hlisting (_, _) (hopen hproperties hbody) (pendingProperties_retains _ _ s)
  | entered idle t s d parameters bases members hproperties hbody _ hrun ih =>
    rw [hrun]
    have hown := pendingProperties_retains (p := p) { unit := d.unit, parameters } members s
    have hbases := (lasting_retains p).mapM
      (fun base (_ : base ∈ bases) => base_steps Retains.refl .trans Retains.events
        (fun d s _ => (lasting_retains p).declarationType d s) d base fun t s => (ih t s).1)
      (pendingProperties { unit := d.unit, parameters } members s).2
    exact hlisting (_, _) (hopen hproperties hbody) (hown.trans hbases)

/-- Whoever asks for properties that have been found is given them. -/
theorem properties_of_found (h : p.Found s t ids) : p.properties t s = (ids, s) := by
  rw [properties, propertiesIn, bind_apply]
  rcases h with h | ⟨rfl, d, h, hd⟩
  · simp only [get_apply, h]
    rfl
  · simp only [get_apply, h]
    cases hbody : p.body? d with
    | none => rfl
    | some body =>
      cases body with
      | typeAlias parameters e => rfl
      | enumeration members => rfl
      | interface parameters bases members => exact absurd ⟨parameters, bases, members, hbody⟩ hd

/-- Asked again later, the properties of a type are the same. -/
theorem Retains.properties_again (ht : t.index < s.types.size) (h : p.Retains (p.properties t s).2 s') :
    p.properties t s' = ((p.properties t s).1, s') := by
  obtain ⟨hlater, hfound⟩ := propertiesIn_found (p := p) p.interfaces t s
  exact properties_of_found (h.found t _ (Nat.lt_of_lt_of_le ht hlater.size) (hfound ht))

end Project

end WireSchema
