import WireSchema.Layout.Basic
/-!
# Scopes that share directives

A scope that is made for a namespace inside another one keeps its directives
where the other one does, so that either of them sees what both asked for. A
layout may be rendered with a scope or without one.
-/

namespace WireSchema

namespace Layout

mutual

/-- The text a layout describes, with a scope or without one. -/
def renderIn (scope : Option Scope) : Layout → Text
  | text t => t
  | imported _ name => name
  | arranged how parts => how.combine (renderAllIn scope parts)
  | template start values => Text.dedent (renderValuesIn scope start values)

/-- The texts of several layouts. -/
def renderAllIn (scope : Option Scope) : List Layout → List Text
  | [] => []
  | part :: rest => renderIn scope part :: renderAllIn scope rest

/-- The text of a template's values behind `out`. -/
def renderValuesIn (scope : Option Scope) (out : Text) : List (Layout × Text) → Text
  | [] => out
  | (value, behind) :: rest => renderValuesIn scope (place out (renderIn scope value) ++ behind) rest

end

/-- The text of a layout that is first attached, to a scope of its own if none
is given, and the scope afterwards. -/
def toText (layout : Layout) (scope : Option Scope) : Text × Scope :=
  let scope := layout.attach (scope.getD {})
  (layout.renderIn scope, scope)

end Layout

/-- A scope whose directives are kept in a set with a number. -/
structure Holder where
  path : List Text
  kept : Nat
deriving DecidableEq

/-- The scopes that were made, in order, and the sets they keep directives in. -/
@[ext]
structure Scopes where
  sets : List (List Text)
  holders : List Holder
  bounded : ∀ holder ∈ holders, holder.kept < sets.length

namespace Scopes

/-- No scope was made yet. -/
def empty : Scopes := ⟨[], [], nofun⟩

/-- The scope with a number. -/
def scope? (all : Scopes) (i : Nat) : Option Scope := do
  let holder ← all.holders[i]?
  let usings ← all.sets[holder.kept]?
  return { path := holder.path, usings }

/-- The scopes after the directives of one of them are changed. -/
def update (all : Scopes) (i : Nat) (change : Scope → Scope) : Option Scopes := do
  let holder ← all.holders[i]?
  let usings ← all.sets[holder.kept]?
  let changed := change { path := holder.path, usings }
  return { all with
    sets := all.sets.set holder.kept changed.usings
    bounded := by
      rw [List.length_set]
      exact all.bounded }

/-- The scopes and one more, with a set of its own. -/
def make (all : Scopes) (path : List Text) : Scopes where
  sets := all.sets ++ [[]]
  holders := all.holders ++ [{ path, kept := all.sets.length }]
  bounded := by
    intro holder hholder
    rw [List.length_append]
    rcases List.mem_append.1 hholder with hholder | hholder
    · exact Nat.lt_add_right _ (all.bounded holder hholder)
    · rw [List.mem_singleton.1 hholder]
      exact Nat.lt_succ_self _

/-- The scopes and one more, inside the one with a number. -/
def makeChild (all : Scopes) (i : Nat) (name : Text) : Option Scopes :=
  match hholder : all.holders[i]? with
  | none => none
  | some holder => some { all with
      holders := all.holders ++ [{ holder with path := holder.path ++ [name] }]
      bounded := by
        intro other hother
        rcases List.mem_append.1 hother with hother | hother
        · exact all.bounded other hother
        · rw [List.mem_singleton.1 hother]
          exact all.bounded holder (List.mem_of_getElem? hholder) }

/-- What is done with scopes, which are given by their numbers. -/
inductive Act where
  | make (path : List Text)
  | child (i : Nat) (name : Text)
  | require (i : Nat) (target : Text)
  | attach (i : Nat) (layout : Layout)

/-- The scopes afterwards, if the scope that is acted on was made. -/
def act (all : Scopes) : Act → Option Scopes
  | .make path => some (all.make path)
  | .child i name => all.makeChild i name
  | .require i target => all.update i (·.requireUsing target)
  | .attach i layout => all.update i layout.attach

/-- The scopes after all acts. -/
def run (all : Scopes) (acts : List Act) : Option Scopes := acts.foldlM act all

end Scopes

end WireSchema
