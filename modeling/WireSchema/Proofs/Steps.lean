import WireSchema.Graph.Store
/-!
# Steps one after the other

A run of steps of which each may fail succeeds if and only if every step does.
The steps of resolving never fail; they change the store one after the other.
-/

section
variable {ε ε' α β : Type} {x : Except ε α} {f : α → Except ε β} {a : α} {b : β}

theorem Except.bind_eq_ok : x >>= f = .ok b ↔ ∃ a, x = .ok a ∧ f a = .ok b := by
  cases x with
  | ok a =>
    refine ⟨fun h => ⟨a, rfl, h⟩, ?_⟩
    rintro ⟨a', ha, h⟩
    cases ha
    exact h
  | error e => exact ⟨nofun, nofun⟩

theorem Except.mapError_eq_ok {g : ε → ε'} : x.mapError g = .ok a ↔ x = .ok a := by
  cases x with
  | ok b => exact ⟨fun h => congrArg Except.ok (Except.ok.inj h), fun h => congrArg Except.ok (Except.ok.inj h)⟩
  | error e => exact ⟨nofun, nofun⟩

end

namespace WireSchema.Resolving

variable {α β : Type} (s : Store)

@[simp] theorem bind_apply (x : Resolving α) (f : α → Resolving β) : (x >>= f) s = f (x s).1 (x s).2 := rfl

@[simp] theorem pure_apply (a : α) : (pure a : Resolving α) s = (a, s) := rfl

@[simp] theorem map_apply (f : α → β) (x : Resolving α) : (f <$> x) s = (f (x s).1, (x s).2) := rfl

@[simp] theorem get_apply : (get : Resolving Store) s = (s, s) := rfl

theorem addCell_apply (cell : TypeCell) :
    addCell cell s = (⟨s.types.size⟩, { s with types := s.types.push cell }) := rfl

theorem addNode_apply (shape : Shape) (text : Text) (symbol : Option Text) :
    addNode shape text symbol s =
      (⟨s.types.size⟩, { s with types := s.types.push { node := { shape, text, symbol } } }) := rfl

theorem report_apply (event : Event) : report event s = ((), { s with events := event :: s.events }) := rfl

theorem mapM_nil (f : α → Resolving β) : [].mapM f s = ([], s) := rfl

theorem mapM_cons (f : α → Resolving β) (a : α) (as : List α) :
    (a :: as).mapM f s = ((f a s).1 :: (as.mapM f (f a s).2).1, (as.mapM f (f a s).2).2) := by
  rw [List.mapM_cons]
  rfl

end WireSchema.Resolving
