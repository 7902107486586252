import Mathlib.Logic.Relation
import WireSchema.Proofs.Project.Costs
/-!
# Types of declarations and other types

A step of resolving makes types after those that are there. The type of a
declaration is one that is made for it, or that of the declaration it is a name
of: no step gives a declaration a type that was made for something else. So a
type that no declaration has when it is made is one that none ever has.
-/

namespace WireSchema

namespace Store

variable {s s' s'' : Store} {t : TypeId} {d : DeclarationId}

/-- Some declaration has the type. -/
def Owned (s : Store) (t : TypeId) : Prop := ∃ d, (d, t) ∈ s.declared

/-- The types of declarations are there. -/
def Housed (s : Store) : Prop := ∀ t, s.Owned t → t.index < s.types.size

/-- Of the types that were there, declarations have those that they had. -/
structure Apart (s s' : Store) : Prop where
  size : s.types.size ≤ s'.types.size
  kept : ∀ t, s.Owned t → s'.Owned t
  old : ∀ t : TypeId, t.index < s.types.size → s'.Owned t → s.Owned t
  housed : s.Housed → s'.Housed

theorem owned_of_declared? (h : s.declared? d = some t) : s.Owned t := by
  obtain ⟨front, back, heq, _⟩ := List.lookup_eq_some_iff.1 h
  exact ⟨d, by rw [heq]; simp⟩

namespace Apart

/-- No declaration is given a type. -/
theorem of_declared (hsize : s.types.size ≤ s'.types.size) (h : s'.declared = s.declared) : s.Apart s' where
  size := hsize
  kept t ht := by rwa [Owned, h]
  old t _ ht := by rwa [Owned, h] at ht
  housed hs t ht := by
    rw [Owned, h] at ht
    exact Nat.lt_of_lt_of_le (hs t ht) hsize

theorem refl (s : Store) : s.Apart s := of_declared (Nat.le_refl _) rfl

theorem events (s : Store) (events : List Event) : s.Apart { s with events } := of_declared (Nat.le_refl _) rfl

theorem trans (h : s.Apart s') (h' : s'.Apart s'') : s.Apart s'' where
  size := Nat.le_trans h.size h'.size
  kept t ht := h'.kept t (h.kept t ht)
  old t ht hlater := h.old t ht (h'.old t (Nat.lt_of_lt_of_le ht h.size) hlater)
  housed hs := h'.housed (h.housed hs)

theorem added (s : Store) (cell : TypeCell) : s.Apart (s.added cell) := of_declared (by simp) rfl

/-- The declaration is given a type that is new or that some declaration has. -/
theorem declare (h : s.Apart s') (hlt : s.Housed → t.index < s'.types.size) (hold : t.index < s.types.size → s.Owned t)
    (d : DeclarationId) : s.Apart (s'.declare d t) := by
  have hcases (u : TypeId) (hu : (s'.declare d t).Owned u) : u = t ∨ s'.Owned u := by
    obtain ⟨d', hmem⟩ := hu
    rcases List.mem_cons.1 hmem with heq | hmem
    · cases heq
      exact .inl rfl
    · exact .inr ⟨d', hmem⟩
  refine ⟨h.size, fun u hu => ?_, fun u hlt' hu => ?_, fun hs u hu => ?_⟩
  · obtain ⟨d', hmem⟩ := h.kept u hu
    exact ⟨d', List.mem_cons_of_mem _ hmem⟩
  · rcases hcases u hu with rfl | hu
    · exact hold hlt'
    · exact h.old u hlt' hu
  · rcases hcases u hu with rfl | hu
    · exact hlt hs
    · exact h.housed hs u hu

/-- What no declaration has, none has later. -/
theorem not_owned (h : s.Apart s') (hlt : t.index < s.types.size) (ht : ¬ s.Owned t) : ¬ s'.Owned t :=
  fun hlater => ht (h.old t hlt hlater)

end Apart

/-- The type is new, or some declaration had it. -/
structure Yields (s : Store) (made : TypeId × Store) : Prop where
  apart : s.Apart made.2
  lt : s.Housed → made.1.index < made.2.types.size
  old : made.1.index < s.types.size → s.Owned made.1

/-- The type becomes that of a declaration. -/
theorem Yields.declare {made : TypeId × Store} (h : s.Yields made) (d : DeclarationId) :
    s.Yields (made.1, made.2.declare d made.1) where
  apart := h.apart.declare h.lt h.old d
  lt := h.lt
  old := h.old

/-- Types are made, the last of which is the one, and no declaration is given any. -/
structure YieldsNew (s : Store) (made : TypeId × Store) : Prop where
  last : made.1.index + 1 = made.2.types.size
  new : s.types.size ≤ made.1.index
  declared : made.2.declared = s.declared

namespace YieldsNew

variable {made : TypeId × Store}

theorem added (s : Store) (cell : TypeCell) : s.YieldsNew (⟨s.types.size⟩, s.added cell) :=
  ⟨by simp, Nat.le_refl _, rfl⟩

theorem lt (h : s.YieldsNew made) : made.1.index < made.2.types.size := h.last ▸ Nat.lt_succ_self _

theorem apart (h : s.YieldsNew made) : s.Apart made.2 :=
  .of_declared (Nat.le_trans h.new (Nat.le_of_lt h.lt)) h.declared

/-- No declaration has a type that was made. -/
theorem free (h : s.YieldsNew made) (hs : s.Housed) (ht : s.types.size ≤ t.index) : ¬ made.2.Owned t := by
  intro howned
  rw [Owned, h.declared] at howned
  exact Nat.not_lt_of_le ht (hs t howned)

end YieldsNew

theorem Apart.yields {made : TypeId × Store} (h : s.Apart s') (h' : s'.YieldsNew made) : s.Yields made where
  apart := h.trans h'.apart
  lt _ := h'.lt
  old hlt := absurd (Nat.le_trans h.size h'.new) (Nat.not_le_of_lt hlt)

end Store

namespace Project

open Resolving Store

variable {p : Project} {closed : List DeclarationId} {context : Context} {e : TypeExpr} {s s' : Store} {d : DeclarationId}
  {t : TypeId}

theorem apart_mapM {α β : Type} {f : α → Resolving β} {as : List α} (h : ∀ a ∈ as, ∀ s, Apart s (f a s).2) (s : Store) :
    s.Apart (as.mapM f s).2 :=
  mapM_steps (R := fun _ => Apart) (n := 0) Apart.refl (fun h h' => h.trans h') h s

/-! ## Intersections and enumerations -/

theorem declared_mapM {α β : Type} {f : α → Resolving β} {as : List α}
    (h : ∀ a ∈ as, ∀ s, (f a s).2.declared = s.declared) (s : Store) : (as.mapM f s).2.declared = s.declared :=
  mapM_steps (R := fun _ s s' => s'.declared = s.declared) (n := 0) (fun _ => rfl) (fun h h' => h'.trans h) h s

/-- Intersecting only makes types. -/
theorem makeIntersection_new (n : Nat) (types : List TypeId) (s : Store) :
    s.YieldsNew (makeIntersection n types s) := by
  induction n generalizing types s with
  | zero => exact ⟨by simp [makeIntersection, addNode_apply], Nat.le_refl _, rfl⟩
  | succ n ih =>
    rw [makeIntersection_succ]
    split
    · have hdeclared := declared_mapM (fun ts (_ : ts ∈ choices (s.options types)) s => (ih ts s).declared) s
      have hsize := mapM_steps (R := fun _ s s' => s.types.size ≤ s'.types.size) (n := 0) (fun _ => Nat.le_refl _)
        (fun h h' => Nat.le_trans h h')
        (fun ts (_ : ts ∈ choices (s.options types)) s => (ih ts s).apart.size) s
      exact ⟨by simp [addNode_apply], hsize, hdeclared⟩
    · exact ⟨by simp [addNode_apply], Nat.le_refl _, rfl⟩

theorem intersect_new (types : List TypeId) (s : Store) : s.YieldsNew (intersect types s) :=
  makeIntersection_new (s.types.size + 1) types s

theorem enumeration_yields (name : Text) (members : List EnumMember) (s : Store) :
    s.Yields (enumeration name members s) := by
  have hvalues : s.Apart (members.mapM (fun m => addNode .other (m.value.getD (name ++ "." ++ m.name))) s).2 :=
    apart_mapM (fun _ _ s => .added s _) s
  exact hvalues.yields (.added _ _)

/-! ## Declarations -/

/-- The type of a declaration is new or that of a declaration. -/
theorem Declaring.yields {made : TypeId × Store} (h : p.Declaring closed d s made)
    (hbody : d ∈ closed → ∀ e context s, Yields s (p.resolve (closed.erase d) context e s)) : s.Yields made := by
  cases h with
  | known hsome => exact ⟨.refl s, fun hs => hs _ (owned_of_declared? hsome), fun _ => owned_of_declared? hsome⟩
  | missing _ _ => exact (Apart.refl s).yields (.added s _)
  | @interface declaration parameters bases members _ _ _ =>
    exact ((Apart.refl s).yields (.added s (interfaceCell d declaration parameters))).declare d
  | enumeration _ _ _ hmade => exact (hmade ▸ enumeration_yields _ _ s).declare d
  | definition _ _ _ hclosed hmade => exact (hmade ▸ hbody hclosed _ _ s).declare d
  | circular _ _ _ _ => exact (Apart.events s _).yields (.added _ _)

/-! ## Any type -/

theorem resolveAll_apart {es : List TypeExpr} (h : ∀ e ∈ es, ∀ s, Yields s (p.resolve closed context e s)) (s : Store) :
    s.Apart (p.resolveAll closed context es s).2 :=
  resolveAll_steps .refl .trans (fun e he s => (h e he s).apart) s

/-- A type that names nothing is made after its parts. -/
theorem resolve_new (htarget : p.target? context e = none) (s : Store) :
    (p.resolveAll closed context e.parts s).2.YieldsNew (p.resolve closed context e s) := by
  rcases p.resolve_cases closed context e s with ⟨d, hd, _⟩ | ⟨members, text, rfl, hrun⟩ | ⟨_, _, events, hrun⟩
  · rw [htarget] at hd
    cases hd
  · rw [hrun]
    exact intersect_new _ _
  · rw [hrun]
    exact ⟨by simp, Nat.le_refl _, rfl⟩

/-- Whatever is resolved, the type is new or that of a declaration. -/
theorem resolve_yields (closed : List DeclarationId) (e : TypeExpr) (context : Context) (s : Store) :
    s.Yields (p.resolve closed context e s) := by
  induction closed, e using resolving_induction generalizing context s with
  | step closed e hparts hbodies =>
    cases htarget : p.target? context e with
    | none => exact (resolveAll_apart (fun part hpart => hparts part hpart context) s).yields (resolve_new htarget s)
    | some d =>
      rcases p.resolve_cases closed context e s with ⟨d', hd', hrun⟩ | ⟨members, text, rfl, _⟩ | ⟨hnone, _⟩
      · rw [hrun]
        exact (p.declaring closed d' s).yields (hbodies d')
      · cases htarget
      · rw [htarget] at hnone
        cases hnone

theorem declarationType_yields (d : DeclarationId) (s : Store) : s.Yields (p.declarationType d s) :=
  (p.declaring p.aliases d s).yields fun _ => resolve_yields _

/-! ## Calls -/

/-- An expression that is resolved in a store. -/
structure Call where
  closed : List DeclarationId
  context : Context
  type : TypeExpr
  store : Store
  /-- The expression is the whole definition of an alias. -/
  whole : Bool

namespace Call

/-- What the call comes to. -/
def made (p : Project) (k : Call) : TypeId × Store := p.resolve k.closed k.context k.type k.store

/-- What resolving an expression calls for right away: its parts one after the
other, or the definition of the alias that it names. -/
inductive Makes (p : Project) (k : Call) : Call → Prop where
  | part {i : Nat} {e : TypeExpr} : k.type.parts[i]? = some e → Makes p k
    { k with type := e, whole := false
             store := (p.resolveAll k.closed k.context (k.type.parts.take i) k.store).2 }
  | definition {d : DeclarationId} {parameters : List Text} {e : TypeExpr} : p.target? k.context k.type = some d →
    k.store.declared? d = none → d ∈ k.closed → p.body? d = some (.typeAlias parameters e) → Makes p k
    { closed := k.closed.erase d, context := { unit := d.unit, parameters }, type := e, store := k.store, whole := true }

/-- A call with all that it calls for. -/
def Calls (p : Project) : Call → Call → Prop := Relation.ReflTransGen (Makes p)

variable {k k' : Call}

/-- The types that are made for the expression itself, after those of its parts. -/
def Gives (p : Project) (k : Call) (t : TypeId) : Prop :=
  (p.resolveAll k.closed k.context k.type.parts k.store).2.types.size ≤ t.index ∧ t.index < (k.made p).2.types.size

/-- A type that names nothing has a type of its own. -/
theorem gives_made (h : p.target? k.context k.type = none) : k.Gives p (k.made p).1 :=
  have hnew := resolve_new h k.store
  ⟨hnew.new, hnew.lt⟩

theorem Gives.free (ht : k.Gives p t) (h : p.target? k.context k.type = none) (hk : k.store.Housed) :
    ¬ (k.made p).2.Owned t :=
  (resolve_new h k.store).free ((resolveAll_apart (fun e _ => resolve_yields _ e _) _).housed hk) ht.1

theorem Makes.housed (h : k.Makes p k') (hk : k.store.Housed) : k'.store.Housed := by
  cases h with
  | part _ => exact (resolveAll_apart (fun e _ => resolve_yields _ e _) _).housed hk
  | definition _ _ _ _ => exact hk

/-- No declaration has the type, and it is not what the call comes to. -/
structure Hides (p : Project) (k : Call) (t : TypeId) : Prop where
  lt : t.index < (k.made p).2.types.size
  free : ¬ (k.made p).2.Owned t
  ne : t ≠ (k.made p).1

theorem resolveAll_append (es es' : List TypeExpr) (s : Store) :
    (p.resolveAll closed context (es ++ es') s).2 =
      (p.resolveAll closed context es' (p.resolveAll closed context es s).2).2 := by
  induction es generalizing s with
  | nil => rw [List.nil_append, resolveAll, pure_apply]
  | cons e rest ih =>
    rw [List.cons_append, resolveAll, resolveAll, bind_apply, bind_apply, bind_apply, bind_apply, pure_apply, pure_apply]
    exact ih _

/-- A part of a type stays what it is, and the type is made after it. -/
theorem Makes.hides_part (h : k.Makes p k') (hpart : k'.whole = false)
    (hlt : t.index < (k'.made p).2.types.size) (hfree : ¬ (k'.made p).2.Owned t) : k.Hides p t := by
  cases h with
  | definition _ _ _ _ => cases hpart
  | @part i e hi =>
    have htarget : p.target? k.context k.type = none := by
      cases hname : p.target? k.context k.type with
      | none => rfl
      | some d =>
        obtain ⟨name, text, heq, _⟩ := target?_eq_some.1 hname
        rw [heq] at hi
        cases hi
    have hnew : YieldsNew _ (p.resolve k.closed k.context k.type k.store) := resolve_new htarget k.store
    have hrest : (p.resolve k.closed k.context e (p.resolveAll k.closed k.context (k.type.parts.take i) k.store).2).2.Apart
        (p.resolveAll k.closed k.context k.type.parts k.store).2 := by
      obtain ⟨hplace, rfl⟩ := List.getElem?_eq_some_iff.1 hi
      have hparts : k.type.parts = k.type.parts.take i ++ k.type.parts[i] :: k.type.parts.drop (i + 1) := by
        rw [← List.drop_eq_getElem_cons hplace, List.take_append_drop]
      conv => rhs; rw [hparts]
      rw [resolveAll_append, resolveAll, bind_apply, bind_apply, pure_apply]
      exact resolveAll_apart (fun e _ => resolve_yields _ e _) _
    have hbefore : t.index < (p.resolveAll k.closed k.context k.type.parts k.store).2.types.size :=
      Nat.lt_of_lt_of_le hlt hrest.size
    refine ⟨Nat.lt_of_lt_of_le hbefore hnew.apart.size, hnew.apart.not_owned hbefore (hrest.not_owned hlt hfree), ?_⟩
    rintro rfl
    exact Nat.not_lt_of_le hnew.new hbefore

/-- The type of an alias becomes that of its definition, which the type is not. -/
theorem declare_not_owned {made : TypeId × Store} (hfree : ¬ made.2.Owned t) (hne : t ≠ made.1) (d : DeclarationId) :
    ¬ (made.2.declare d made.1).Owned t := by
  rintro ⟨d', hmem⟩
  rcases List.mem_cons.1 hmem with heq | hmem
  · cases heq
    exact hne rfl
  · exact hfree ⟨d', hmem⟩

theorem resolveDeclaration_alias {parameters : List Text} (hnone : s.declared? d = none) (hclosed : d ∈ closed)
    (hbody : p.body? d = some (.typeAlias parameters e)) :
    p.resolveDeclaration closed d s =
      let made := p.resolve (closed.erase d) { unit := d.unit, parameters } e s
      (made.1, made.2.declare d made.1) := by
  obtain ⟨declaration, hd, hkind⟩ := Option.map_eq_some_iff.1 hbody
  rw [resolveDeclaration, bind_apply]
  simp only [get_apply, hnone, hd, hkind, dif_pos hclosed]
  rfl

theorem Makes.hides_whole (h : k.Makes p k') (hwhole : k'.whole = true) (ht : k'.Hides p t) : k.Hides p t := by
  cases h with
  | part _ => cases hwhole
  | @definition d parameters e htarget hnone hclosed hbody =>
    have hmade : k.made p = ((p.resolve (k.closed.erase d) { unit := d.unit, parameters } e k.store).1,
        (p.resolve (k.closed.erase d) { unit := d.unit, parameters } e k.store).2.declare d
          (p.resolve (k.closed.erase d) { unit := d.unit, parameters } e k.store).1) := by
      rw [made]
      rcases p.resolve_cases k.closed k.context k.type k.store with ⟨d', hd', hrun⟩ | ⟨members, text, hmeet, _⟩ | ⟨hother, _⟩
      · rw [htarget] at hd'
        cases hd'
        rw [hrun]
        exact resolveDeclaration_alias hnone hclosed hbody
      · rw [hmeet] at htarget
        cases htarget
      · rw [htarget] at hother
        cases hother
    refine ⟨?_, ?_, ?_⟩
    · rw [hmade]
      exact ht.lt
    · rw [hmade]
      exact declare_not_owned ht.free ht.ne d
    · rw [hmade]
      exact ht.ne

/-- No declaration has a type of what names nothing and is no whole definition, when
the call is over that calls for it. -/
theorem Calls.hides (h : Calls p k k') (hk : k.store.Housed) (hinner : k'.whole = false)
    (htarget : p.target? k'.context k'.type = none) (ht : k'.Gives p t) : k = k' ∨ k.Hides p t := by
  induction h using Relation.ReflTransGen.head_induction_on with
  | refl => exact .inl rfl
  | @head k k₁ hmakes _ ih =>
    right
    have hk₁ := hmakes.housed hk
    cases hwhole : k₁.whole with
    | true =>
      rcases ih hk₁ with rfl | hides
      · rw [hinner] at hwhole
        cases hwhole
      · exact hmakes.hides_whole hwhole hides
    | false =>
      rcases ih hk₁ with rfl | hides
      · exact hmakes.hides_part hwhole ht.2 (ht.free htarget hk₁)
      · exact hmakes.hides_part hwhole hides.lt hides.free

end Call

/-! ## Turns -/

/-- A step that a project is asked for: the type of a declaration, that of a property,
or one that makes no type and gives none to a declaration. -/
inductive Turn (p : Project) (s : Store) : Store → Prop where
  | declaration (d : DeclarationId) : Turn p s (p.declarationType d s).2
  | property (q : PropertyId) : Turn p s (p.propertyType q s).2
  | aside {s' : Store} : s'.types.size = s.types.size → s'.declared = s.declared → Turn p s s'

/-- Any number of steps. -/
def Turns (p : Project) : Store → Store → Prop := Relation.ReflTransGen (Turn p)

/-- The call that a step begins with, if it has to resolve, and the store behind
the step. -/
inductive Asks (p : Project) (s : Store) : Call → Store → Prop where
  | declaration {d : DeclarationId} {parameters : List Text} {e : TypeExpr} : s.declared? d = none →
    p.body? d = some (.typeAlias parameters e) → Asks p s
      { closed := p.aliases.erase d, context := { unit := d.unit, parameters }, type := e, store := s, whole := true }
      (p.declarationType d s).2
  | property {q : PropertyId} {context : Context} {e : TypeExpr} : s.resolution? q = some (.pending context e) →
    Asks p s { closed := p.aliases, context, type := e, store := s, whole := false } (p.propertyType q s).2

theorem propertyType_pending {q : PropertyId} (h : s.resolution? q = some (.pending context e)) :
    (p.propertyType q s).2 = settled (p.resolve p.aliases context e s).2 q (p.resolve p.aliases context e s).1 := by
  rw [propertyType, bind_apply]
  simp only [get_apply, h]
  rfl

theorem Turn.apart (h : p.Turn s s') : s.Apart s' := by
  cases h with
  | declaration d => exact (declarationType_yields d s).apart
  | aside hsize hdeclared => exact .of_declared (Nat.le_of_eq hsize.symm) hdeclared
  | property q =>
    cases hfound : s.resolution? q with
    | none =>
      rw [propertyType, bind_apply]
      simp only [get_apply, hfound]
      exact .added s _
    | some r =>
      cases r with
      | done t =>
        rw [propertyType, bind_apply]
        simp only [get_apply, hfound]
        exact .refl s
      | pending context e =>
        rw [propertyType_pending hfound]
        exact (resolve_yields p.aliases e context s).apart.trans (.of_declared (Nat.le_refl _) rfl)

theorem Turns.apart (h : p.Turns s s') : s.Apart s' := by
  induction h with
  | refl => exact .refl s
  | tail _ hturn ih => exact ih.trans hturn.apart

theorem housed_empty : ({} : Store).Housed := by
  rintro t ⟨d, hmem⟩
  cases hmem

/-! ### Properties -/

theorem turns_events (s : Store) (events : List Event) : p.Turns s { s with events } := .single (.aside rfl rfl)

theorem turns_mapM {α β : Type} {f : α → Resolving β} {as : List α} (h : ∀ a ∈ as, ∀ s, p.Turns s (f a s).2) (s : Store) :
    p.Turns s (as.mapM f s).2 :=
  mapM_steps (R := fun _ => p.Turns) (n := 0) (fun _ => .refl) (fun h h' => h.trans h') h s

theorem turns_pendingProperties (context : Context) (members : List (Property TypeExpr)) (s : Store) :
    p.Turns s (pendingProperties context members s).2 :=
  turns_mapM (fun _ _ _ => .single (.aside rfl rfl)) s

theorem turns_listing (t : TypeId) (ids : List PropertyId) (s : Store) : p.Turns s (s.listing t ids) :=
  .single (.aside Array.size_modify rfl)

/-- Properties are found by asking for the types of declarations. -/
theorem turns_propertiesIn (idle : List DeclarationId) (t : TypeId) (s : Store) :
    p.Turns s (p.propertiesIn idle t s).2 :=
  propertiesIn_steps (fun _ => .refl) .trans turns_events (fun d _ => .single (.declaration d)) turns_listing
    (fun _ context members s _ => turns_pendingProperties context members s)
    (fun _ _ _ members s _ => turns_pendingProperties _ members s) idle t s

/-- No declaration ever has a type of an expression that names nothing and is no
whole definition. -/
theorem Turns.never_owned {before after : Store} {k k' : Call} (hbefore : p.Turns {} before)
    (hasks : p.Asks before k after) (hcalls : Call.Calls p k k') (hafter : p.Turns after s) (hinner : k'.whole = false)
    (htarget : p.target? k'.context k'.type = none) (ht : k'.Gives p t) : ¬ s.Owned t := by
  have hhoused : before.Housed := hbefore.apart.housed housed_empty
  have hover : t.index < after.types.size ∧ ¬ after.Owned t := by
    cases hasks with
    | @declaration d parameters e hnone hbody =>
      have halias : d ∈ p.aliases := mem_aliases ⟨parameters, e, hbody⟩
      rcases hcalls.hides hhoused hinner htarget ht with rfl | hides
      · cases hinner
      · rw [declarationType, Call.resolveDeclaration_alias hnone halias hbody]
        exact ⟨hides.lt, Call.declare_not_owned hides.free hides.ne d⟩
    | @property q context e hpending =>
      rw [propertyType_pending hpending]
      rcases hcalls.hides hhoused hinner htarget ht with rfl | hides
      · exact ⟨ht.2, ht.free htarget hhoused⟩
      · exact ⟨hides.lt, hides.free⟩
  exact hafter.apart.not_owned hover.1 hover.2

end Project

end WireSchema
