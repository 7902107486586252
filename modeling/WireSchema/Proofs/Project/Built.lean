import WireSchema.Proofs.Project.Crossed
import WireSchema.Proofs.Project.Owned
import WireSchema.Proofs.Project.Questions
/-!
# Stores that resolving goes through

A project asks for types in some order, and between the question and its answer the
store takes many steps. In all of these stores members come before what they are
members of, no intersection has a union or an intersection for a member, and
declarations have types that are there.
-/

namespace WireSchema

namespace Store

variable {s s' s'' : Store} {cell : TypeCell} {made : TypeId × Store}

/-- Nodes are in order, and the types of declarations are there. -/
structure Orderly (s : Store) : Prop extends s.Layered where
  housed : s.Housed

/-- A type is made behind the nodes that are there, or is one of these. -/
structure Builds (s : Store) (made : TypeId × Store) : Prop where
  orderly : made.2.Orderly
  grown : Grown s made.2
  lt : made.1.index < made.2.types.size

theorem Orderly.empty : ({} : Store).Orderly where
  below id hid := absurd hid (Nat.not_lt_zero _)
  joined id ts hts := by
    rw [node_of_size_le (Nat.zero_le _)] at hts
    cases hts
  housed := Project.housed_empty

/-- The nodes and the types of declarations are the same. -/
theorem Orderly.aside (h : s.Orderly) (hnode : s'.node = s.node) (hsize : s'.types.size = s.types.size)
    (hdeclared : s'.declared = s.declared) : s'.Orderly where
  below id hid t ht := by
    rw [hnode] at ht
    exact h.below id (hsize ▸ hid) t ht
  joined id ts hts t ht := by
    rw [hnode] at hts ⊢
    exact h.joined id ts hts t ht
  housed := (Apart.of_declared (Nat.le_of_eq hsize.symm) hdeclared).housed h.housed

theorem grown_aside (hnode : s'.node = s.node) (hsize : s'.types.size = s.types.size) : Grown s s' :=
  ⟨Nat.le_of_eq hsize.symm, fun id _ => by rw [hnode]⟩

theorem Orderly.events (h : s.Orderly) (events : List Event) : ({ s with events } : Store).Orderly := h.aside rfl rfl rfl

theorem grown_events (s : Store) (events : List Event) : Grown s { s with events } := grown_aside rfl rfl

/-- One more node. -/
theorem Orderly.builds (h : s.Orderly) (hbelow : Below s.types.size cell.node.members)
    (hjoined : ∀ ts, Shape.intersectionMembers? cell.node = some ts →
      ∀ t ∈ ts, (s.node t).isUnion = false ∧ Shape.intersectionMembers? (s.node t) = none) :
    s.Builds (⟨s.types.size⟩, s.added cell) where
  orderly := ⟨h.toLayered.added hbelow hjoined, (Apart.added s cell).housed h.housed⟩
  grown := grown_added s cell
  lt := by simp

/-- One more node, without members. -/
theorem Orderly.builds_leaf (h : s.Orderly) (hmembers : cell.node.members = [])
    (hmeet : Shape.intersectionMembers? cell.node = none) : s.Builds (⟨s.types.size⟩, s.added cell) :=
  h.builds (fun t ht => by rw [hmembers] at ht; cases ht) fun ts hts => by rw [hmeet] at hts; cases hts

theorem Orderly.builds_other (h : s.Orderly) (text : Text) : s.Builds (Resolving.addNode .other text none s) :=
  h.builds_leaf rfl rfl

theorem Builds.of_grown (h : Grown s s') (h' : s'.Builds made) : s.Builds made := ⟨h'.orderly, h.trans h'.grown, h'.lt⟩

/-- The type becomes that of a declaration. -/
theorem Builds.declare (h : s.Builds made) (d : DeclarationId) : s.Builds (made.1, made.2.declare d made.1) where
  orderly :=
    { below := h.orderly.below
      joined := h.orderly.joined
      housed := by
        rintro t ⟨d', hmem⟩
        rcases List.mem_cons.1 hmem with heq | hmem
        · cases heq
          exact h.lt
        · exact h.orderly.housed t ⟨d', hmem⟩ }
  grown := ⟨h.grown.size, h.grown.node⟩
  lt := h.lt

end Store

namespace Project

open Resolving Store

variable {p : Project} {closed : List DeclarationId} {context : Context} {e : TypeExpr} {s s' : Store} {d : DeclarationId}
  {types : List TypeId}

/-- Types that are made one after the other. -/
theorem builds_all {α : Type} {f : α → Resolving TypeId} {as : List α} (hs : s.Orderly)
    (h : ∀ a ∈ as, ∀ s', Grown s s' → s'.Orderly → Builds s' (f a s')) :
    let made := as.mapM f s
    made.2.Orderly ∧ Grown s made.2 ∧ Below made.2.types.size made.1 := by
  induction as generalizing s with
  | nil => exact ⟨hs, .refl s, fun t ht => by cases ht⟩
  | cons a as ih =>
    have hone := h a List.mem_cons_self s (.refl s) hs
    obtain ⟨horderly, hgrown, hbelow⟩ := ih hone.orderly fun a' ha' s' hgrown' =>
      h a' (List.mem_cons_of_mem a ha') s' (hone.grown.trans hgrown')
    simp only [mapM_cons]
    exact ⟨horderly, hone.grown.trans hgrown, List.forall_mem_cons.2 ⟨Nat.lt_of_lt_of_le hone.lt hgrown.size, hbelow⟩⟩

theorem intersect_builds (hs : s.Orderly) (hbelow : Below s.types.size types) : s.Builds (intersect types s) :=
  have h := ends s.types.size hs.toLayered hbelow fun t ht _ => hbelow t ht
  ⟨⟨h.layered, (intersect_new types s).apart.housed hs.housed⟩, h.grown, h.lt⟩

theorem enumeration_builds (hs : s.Orderly) (name : Text) (members : List EnumMember) :
    s.Builds (enumeration name members s) := by
  obtain ⟨hvalues, hgrown, hbelow⟩ := builds_all hs fun m (_ : m ∈ members) s' _ hs' =>
    hs'.builds_other (m.value.getD (name ++ "." ++ m.name))
  refine Builds.of_grown hgrown (hvalues.builds ?_ ?_)
  · exact hbelow
  · rintro ts ⟨⟩

theorem Declaring.builds {made : TypeId × Store} (h : p.Declaring closed d s made) (hs : s.Orderly)
    (hbody : d ∈ closed → ∀ e context (s : Store), s.Orderly → s.Builds (p.resolve (closed.erase d) context e s)) :
    s.Builds made := by
  cases h with
  | known hsome => exact ⟨hs, .refl s, hs.housed _ (owned_of_declared? hsome)⟩
  | missing _ _ => exact hs.builds_other []
  | @interface declaration parameters bases members _ _ _ =>
    have hleaf : s.Builds (⟨s.types.size⟩, s.added (interfaceCell d declaration parameters)) := hs.builds_leaf rfl rfl
    exact hleaf.declare d
  | enumeration _ _ _ hmade => exact (hmade ▸ enumeration_builds hs _ _).declare d
  | definition _ _ _ hclosed hmade => exact (hmade ▸ hbody hclosed _ _ s hs).declare d
  | circular _ _ _ _ => exact ((hs.events _).builds_other _).of_grown (grown_events s _)

theorem resolveAll_eq_mapM (closed : List DeclarationId) (context : Context) (es : List TypeExpr) :
    p.resolveAll closed context es = es.mapM (p.resolve closed context) := by
  induction es with
  | nil => rw [resolveAll, List.mapM_nil]
  | cons e rest ih => rw [resolveAll, List.mapM_cons, ih]

theorem resolveAll_builds {es : List TypeExpr} (hs : s.Orderly)
    (h : ∀ e ∈ es, ∀ s : Store, s.Orderly → s.Builds (p.resolve closed context e s)) :
    let made := p.resolveAll closed context es s
    made.2.Orderly ∧ Grown s made.2 ∧ Below made.2.types.size made.1 := by
  rw [resolveAll_eq_mapM]
  exact builds_all hs fun e he s' _ hs' => h e he s' hs'

/-- The members of what an expression stands for are there. -/
theorem below_members (hs : s.Descends) (hbelow : Below s.types.size types) (hmeet : isMeet e = false) :
    Below s.types.size (p.nodeOf s context types e).members := by
  rcases p.members_nodeOf s context types hmeet with hnil | ⟨_, _, _, hmembers⟩
  · rw [hnil]
    exact List.forall_mem_nil _
  · rw [hmembers]
    exact hbelow.opened hs (fun _ _ => Shape.anonymousUnion?_eq) (Nat.le_refl _)

/-- Whatever is resolved, the type is there, and all are in order. -/
theorem resolve_builds (closed : List DeclarationId) (e : TypeExpr) (context : Context) (hs : s.Orderly) :
    s.Builds (p.resolve closed context e s) := by
  induction closed, e using resolving_induction generalizing context s with
  | step closed e hparts hbodies =>
    obtain ⟨horderly, hgrown, hbelow⟩ := resolveAll_builds hs fun part hpart s hs => hparts part hpart context hs
    rcases p.resolve_cases closed context e s with ⟨d, _, hrun⟩ | ⟨members, text, rfl, hrun⟩ | ⟨_, hmeet, events, hrun⟩
    · rw [hrun]
      exact (p.declaring closed d s).builds hs fun hd e context s hs => hbodies d hd e context hs
    · rw [hrun]
      exact (intersect_builds horderly hbelow).of_grown hgrown
    · rw [hrun]
      refine Builds.of_grown (hgrown.trans (grown_events _ events)) ((horderly.events events).builds ?_ ?_)
      · exact below_members horderly.below hbelow hmeet
      · intro ts hts
        cases (intersectionMembers?_nodeOf hmeet).symm.trans hts

/-! ## All stores on the way -/

/-- The stores that resolving goes through: a type is resolved, a declaration gets its
type, types are intersected, or something happens that concerns neither. -/
inductive Built (p : Project) : Store → Prop where
  | empty : Built p {}
  | resolved {s : Store} (closed : List DeclarationId) (context : Context) (e : TypeExpr) :
    Built p s → Built p (p.resolve closed context e s).2
  | declared {s : Store} (closed : List DeclarationId) (d : DeclarationId) :
    Built p s → Built p (p.resolveDeclaration closed d s).2
  | intersected {s : Store} {types : List TypeId} : Built p s → Below s.types.size types → Built p (intersect types s).2
  | aside {s s' : Store} : Built p s → s'.node = s.node → s'.types.size = s.types.size → s'.declared = s.declared → Built p s'

theorem Built.orderly (h : p.Built s) : s.Orderly := by
  induction h with
  | empty => exact .empty
  | resolved closed context e _ ih => exact (resolve_builds closed e context ih).orderly
  | declared closed d _ ih =>
    exact ((p.declaring closed d _).builds ih fun _ e context s hs => resolve_builds _ e context hs).orderly
  | intersected _ hbelow ih => exact (intersect_builds ih hbelow).orderly
  | aside _ hnode hsize hdeclared ih => exact ih.aside hnode hsize hdeclared

theorem Built.events (h : p.Built s) (events : List Event) : p.Built { s with events } := h.aside rfl rfl rfl

theorem Built.listing (h : p.Built s) (t : TypeId) (ids : List PropertyId) : p.Built (s.listing t ids) := by
  refine h.aside (funext fun u => ?_) Array.size_modify rfl
  rw [Store.node, Store.node, Store.cell, Store.cell, Store.listing, Array.getD_eq_getD_getElem?,
    Array.getD_eq_getD_getElem?, Array.getElem?_modify]
  split
  next heq => cases s.types[u.index]? <;> rfl
  next => rfl

/-- The types of several expressions, one after the other. -/
theorem Built.parts (h : p.Built s) (closed : List DeclarationId) (context : Context) (es : List TypeExpr) :
    let made := p.resolveAll closed context es s
    p.Built made.2 ∧ Below made.2.types.size made.1 :=
  ⟨resolveAll_steps (R := fun s s' => p.Built s → p.Built s') (fun _ h => h) (fun h h' hs => h' (h hs))
    (fun e _ _ h => h.resolved closed context e) s h,
  (resolveAll_builds h.orderly fun e _ _ hs => resolve_builds closed e context hs).2.2⟩

/-- Own members wait to be resolved. -/
theorem Built.pendingProperties (h : p.Built s) (context : Context) (members : List (Property TypeExpr)) :
    p.Built (pendingProperties context members s).2 :=
  mapM_steps (R := fun _ s s' => p.Built s → p.Built s') (n := 0) (fun _ h => h) (fun h h' hs => h' (h hs))
    (fun _ _ _ h => h.aside rfl rfl rfl) s h

theorem Built.propertyType (h : p.Built s) (q : PropertyId) : p.Built (p.propertyType q s).2 := by
  rw [Project.propertyType, bind_apply]
  cases hfound : s.resolution? q with
  | none =>
    simp only [get_apply, hfound]
    have hleaf := h.resolved [] { unit := 0 } (.literal [])
    rwa [resolve] at hleaf
  | some r =>
    simp only [get_apply, hfound]
    cases r with
    | done t => exact h
    | pending context e => exact (h.resolved p.aliases context e).aside rfl rfl rfl

theorem Built.propertiesIn (h : p.Built s) (idle : List DeclarationId) (t : TypeId) : p.Built (p.propertiesIn idle t s).2 :=
  propertiesIn_steps (R := fun s s' => p.Built s → p.Built s') (fun _ h => h) (fun h h' hs => h' (h hs))
    (fun _ events h => h.events events) (fun d _ h => h.declared p.aliases d) (fun t ids _ h => h.listing t ids)
    (fun _ context members _ _ h => h.pendingProperties context members)
    (fun _ _ _ members _ _ h => h.pendingProperties _ members) idle t s h

/-- Whatever a project is asked for, the store is one that resolving goes through. -/
theorem Reached.built {news : List Question} (h : p.Reached news s) : p.Built s := by
  have hask {s : Store} (q : Question) (h : p.Built s) : p.Built (q.ask p s) := by
    cases q with
    | declaration d => exact h.declared p.aliases d
    | properties t => exact h.propertiesIn p.interfaces t
    | type q => exact h.propertyType q
  induction h with
  | start => exact .empty
  | known _ _ _ ih => exact hask _ ih
  | new _ _ _ ih => exact hask _ ih

end Project

end WireSchema
