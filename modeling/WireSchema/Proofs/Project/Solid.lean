import WireSchema.Proofs.Project.Costs
import WireSchema.Proofs.Project.Legible
/-!
# Intersections have members

In a project where no text is blank each intersection is written with members.
However it is distributed, each intersection that is made has members too.
-/

namespace WireSchema

namespace Store

/-- Intersections have members, and no text of what is still to be resolved is blank. -/
structure Solid (s : Store) : Prop where
  joined : ∀ t ids, Shape.intersectionMembers? (s.node t) = some ids → ids ≠ []
  members : ∀ t context ms, (s.cell t).properties = .ofMembers context ms → ∀ m ∈ ms, m.type.Visible
  pending : ∀ q context e, s.resolution? q = some (.pending context e) → e.Visible

namespace Solid

variable {s s' : Store} {cell : TypeCell}

theorem empty : ({} : Store).Solid where
  joined t ids h := by
    rw [node_of_size_le (Nat.zero_le _)] at h
    cases h
  members t context ms h := by
    rw [cell_of_size_le (Nat.zero_le _)] at h
    cases h
  pending _ _ _ h := by cases h

/-- The types are the same, and nothing is pending that was not. -/
theorem of_types (h : s.Solid) (htypes : s'.types = s.types)
    (hpending : ∀ q context e, s'.resolution? q = some (.pending context e) → e.Visible) : s'.Solid where
  joined t ids := by
    rw [node, Store.cell, htypes]
    exact h.joined t ids
  members t context ms := by
    rw [Store.cell, htypes]
    exact h.members t context ms
  pending := hpending

theorem events (h : s.Solid) (events : List Event) : ({ s with events } : Store).Solid := h.of_types rfl h.pending

theorem declare (h : s.Solid) (d : DeclarationId) (t : TypeId) : (s.declare d t).Solid := h.of_types rfl h.pending

theorem added (h : s.Solid) (hjoined : ∀ ids, Shape.intersectionMembers? cell.node = some ids → ids ≠ [])
    (hmembers : ∀ context ms, cell.properties = .ofMembers context ms → ∀ m ∈ ms, m.type.Visible) :
    (s.added cell).Solid where
  joined t ids hids := by
    rcases cell_added_cases s cell t with hsame | rfl
    · rw [node, hsame] at hids
      exact h.joined t ids hids
    · rw [node_added_self] at hids
      exact hjoined ids hids
  members t context ms hms := by
    rcases cell_added_cases s cell t with hsame | rfl
    · rw [hsame] at hms
      exact h.members t context ms hms
    · rw [cell_added_self] at hms
      exact hmembers context ms hms
  pending := h.pending

/-- A node may be added, if it has members where it is an intersection. -/
theorem node (h : s.Solid) {node : TypeNode} (hnode : ∀ ids, Shape.intersectionMembers? node = some ids → ids ≠ []) :
    (s.added { node }).Solid :=
  h.added hnode fun context ms hms => by cases hms

/-- A node that is no intersection may be added. -/
theorem plain (h : s.Solid) {node : TypeNode} (hnode : Shape.intersectionMembers? node = none) :
    (s.added { node }).Solid :=
  h.node fun ids hids => by cases hnode.symm.trans hids

theorem listing (h : s.Solid) (t : TypeId) (ids : List PropertyId) : (s.listing t ids).Solid := by
  by_cases ht : t.index < s.types.size
  · refine ⟨fun u ids' => ?_, fun u context ms hms => ?_, h.pending⟩
    · rw [node_listing s ht]
      exact h.joined u ids'
    · rw [cell_listing s ht] at hms
      split at hms
      · cases hms
      · exact h.members u context ms hms
  · refine h.of_types (Array.ext_getElem? fun i => ?_) h.pending
    rw [Store.listing, Array.getElem?_modify]
    split
    next heq =>
      rw [← heq, Array.getElem?_eq_none (Nat.le_of_not_lt ht)]
      rfl
    · rfl

theorem withProperty (h : s.Solid) {r : Property Resolution}
    (hr : ∀ context e, r.type = .pending context e → e.Visible) : (s.withProperty r).Solid := by
  refine h.of_types rfl fun q context e hq => ?_
  rw [resolution?, property?, Store.withProperty, Array.getElem?_push] at hq
  split at hq
  · exact hr context e (Option.some.inj hq)
  · exact h.pending q context e hq

theorem settled (h : s.Solid) (q : PropertyId) (t : TypeId) : (Project.settled s q t).Solid := by
  refine h.of_types rfl fun q' context e hq => ?_
  rw [resolution?, Project.property?_settled] at hq
  split at hq
  · cases hsome : s.property? q with
    | none => rw [hsome] at hq; cases hq
    | some r => rw [hsome] at hq; cases hq
  · exact h.pending q' context e hq

end Solid

end Store

namespace Project

open Resolving Store

variable {p : Project} {s : Store} {closed : List DeclarationId} {context : Context} {e : TypeExpr}

theorem mapM_solid {α β : Type} {f : α → Resolving β} {as : List α}
    (h : ∀ a ∈ as, ∀ s : Store, s.Solid → (f a s).2.Solid) (hs : s.Solid) : (as.mapM f s).2.Solid :=
  mapM_steps (R := fun _ s s' => s.Solid → s'.Solid) (n := 0) (fun _ hs => hs) (fun h h' hs => h' (h hs)) h s hs

/-- The members of what is made of types have members if there are types. -/
theorem joined_ne_nil (hs : s.Solid) {types : List TypeId} (h : types ≠ []) : s.joined types ≠ [] := by
  obtain ⟨t, rest, rfl⟩ := List.exists_cons_of_ne_nil h
  rw [joined, opened, List.flatMap_cons]
  refine fun hnil => ?_
  have hfirst := (List.append_eq_nil_iff.1 hnil).1
  cases hmembers : Shape.intersectionMembers? (s.node t) with
  | none =>
    rw [hmembers] at hfirst
    cases hfirst
  | some ids =>
    rw [hmembers] at hfirst
    exact hs.joined t ids hmembers hfirst

theorem ne_nil_of_mem_choices {α : Type} {lists : List (List α)} (h : lists ≠ []) {chosen : List α}
    (hchosen : chosen ∈ choices lists) : chosen ≠ [] := by
  obtain ⟨options, rest, rfl⟩ := List.exists_cons_of_ne_nil h
  rw [choices] at hchosen
  obtain ⟨x, _, hx⟩ := List.mem_flatMap.1 hchosen
  obtain ⟨others, _, rfl⟩ := List.mem_map.1 hx
  exact List.cons_ne_nil x others

theorem makeIntersection_solid (n : Nat) {types : List TypeId} (h : types ≠ []) (hs : s.Solid) :
    (makeIntersection n types s).2.Solid := by
  induction n generalizing types s with
  | zero =>
    refine hs.node ?_
    rintro ids ⟨⟩
    exact h
  | succ n ih =>
    have hjoined := joined_ne_nil hs h
    rw [makeIntersection_succ]
    split
    · have hoptions : s.options types ≠ [] := fun hnil => hjoined (List.map_eq_nil_iff.1 hnil)
      exact (mapM_solid (fun ts hts s hs => ih (ne_nil_of_mem_choices hoptions hts) hs) hs).plain rfl
    · refine hs.node ?_
      rintro ids ⟨⟩
      exact hjoined

section
variable (hp : p.Visible)
include hp

theorem Declaring.solid {d : DeclarationId} {made : TypeId × Store} (h : p.Declaring closed d s made)
    (hbody : d ∈ closed → ∀ e, e.Visible → ∀ context s, s.Solid → (p.resolve (closed.erase d) context e s).2.Solid)
    (hs : s.Solid) : made.2.Solid := by
  cases h with
  | known _ => exact hs
  | missing _ _ => exact hs.plain rfl
  | @interface declaration parameters bases members _ hd hkind =>
    have hadded : (s.added (interfaceCell d declaration parameters)).Solid :=
      hs.added (fun ids hids => by cases hids) fun context ms hms => by cases hms
    exact hadded.declare _ _
  | @enumeration declaration members made _ hd hkind hmade =>
    subst hmade
    have hvalues : (members.mapM (fun m => addNode .other (m.value.getD (declaration.name ++ "." ++ m.name))) s).2.Solid :=
      mapM_solid (fun _ _ _ hs => hs.plain rfl) hs
    exact (hvalues.plain rfl).declare _ _
  | @definition declaration parameters e made _ hd hkind hclosed hmade =>
    subst hmade
    have hvisible := (hp.declaration hd).body
    rw [hkind] at hvisible
    exact (hbody hclosed e hvisible { unit := d.unit, parameters } s hs).declare _ _
  | circular _ _ _ _ => exact (hs.events _).plain rfl

theorem resolve_solid (closed : List DeclarationId) (e : TypeExpr) (he : e.Visible) (context : Context) (s : Store)
    (hs : s.Solid) : (p.resolve closed context e s).2.Solid := by
  induction closed, e using resolving_induction generalizing context s with
  | step closed e hparts hbodies =>
    have hall : (p.resolveAll closed context e.parts s).2.Solid :=
      resolveAll_steps (R := fun s s' => s.Solid → s'.Solid) (fun _ hs => hs) (fun h h' hs => h' (h hs))
        (fun part hpart s hs => hparts part hpart (he.of_mem_parts hpart) context s hs) s hs
    rcases p.resolve_cases closed context e s with ⟨d, _, hrun⟩ | ⟨members, text, rfl, hrun⟩ | ⟨_, hmeet, events, hrun⟩
    · rw [hrun]
      exact (p.declaring closed d s).solid hp (hbodies d) hs
    · rw [hrun]
      cases he with
      | intersection _ hne _ =>
        have htypes : (p.resolveAll closed context members s).1 ≠ [] := by
          rw [← List.length_pos_iff, length_resolveAll]
          exact List.length_pos_iff.2 hne
        exact makeIntersection_solid _ htypes hall
    · rw [hrun]
      refine (hall.events events).added (fun ids hids => ?_) fun context' ms hms => ?_
      · cases (intersectionMembers?_nodeOf hmeet).symm.trans hids
      · cases he <;> cases hms
        assumption

theorem declarationType_solid (d : DeclarationId) (hs : s.Solid) : (p.declarationType d s).2.Solid :=
  (p.declaring p.aliases d s).solid hp (fun _ => resolve_solid hp _) hs

theorem propertyType_solid (q : PropertyId) (hs : s.Solid) : (p.propertyType q s).2.Solid := by
  rw [propertyType, bind_apply]
  cases hfound : s.resolution? q with
  | none =>
    simp only [get_apply, hfound]
    exact hs.plain rfl
  | some r =>
    simp only [get_apply, hfound]
    cases r with
    | done t => exact hs
    | pending context e =>
      have hresolved := resolve_solid hp p.aliases e (hs.pending q context e hfound) context s hs
      exact hresolved.settled q _

omit hp in
/-- Own members wait to be resolved. -/
theorem pendingProperties_solid {members : List (Property TypeExpr)} (hmembers : ∀ m ∈ members, m.type.Visible)
    (hs : s.Solid) : (pendingProperties context members s).2.Solid :=
  mapM_solid (fun m hm _ hs => hs.withProperty fun _ _ hpending => by
    cases hpending
    exact hmembers m hm) hs

theorem propertiesIn_solid (idle : List DeclarationId) (t : TypeId) (s : Store) (hs : s.Solid) :
    (p.propertiesIn idle t s).2.Solid :=
  propertiesIn_steps (R := fun s s' => s.Solid → s'.Solid) (fun _ hs => hs) (fun h h' hs => h' (h hs))
    (fun _ events hs => hs.events events) (fun d _ hs => declarationType_solid hp d hs) (fun t ids _ hs => hs.listing t ids)
    (fun t context members _ hproperties hs => pendingProperties_solid (hs.members t context members hproperties) hs)
    (fun _ _ _ _ _ hbody hs => pendingProperties_solid (hp.body hbody) hs) idle t s hs

end

end Project

end WireSchema
