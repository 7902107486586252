import WireSchema.Proofs.Grammar.Printed
import WireSchema.Proofs.Grammar.Produced
import WireSchema.Proofs.Layout.Shown
import WireSchema.Proofs.Project.Cells
import WireSchema.TypeSpec.Converter
/-!
# Writing types that are read back

A type is written from its cells. What is written spells the type with the
unions right inside of unions opened, as long as no model stands for any part
of it.
-/

/-!
## Types without unions right inside of unions

A union that is a member of a union stands for its members.
-/

namespace WireSchema.TypeExpr

/-- The members of a union, or else the type itself. -/
def alternatives : TypeExpr → List TypeExpr
  | union members _ => members
  | e => [e]

mutual

/-- The type with the members of unions right inside of unions in their place. -/
def flat : TypeExpr → TypeExpr
  | keyword name => keyword name
  | literal text => literal text
  | template spans text => template (flatSpans spans) text
  | array element text => array (flat element) text
  | tuple elements text variadic => tuple (flatAll elements) text variadic
  | object members text => object (flatMembers members) text
  | union members text => union (flatUnion members) text
  | intersection members text => intersection (flatAll members) text
  | reference name arguments text => reference name (flatAll arguments) text
  | verbatim text reason => verbatim text reason

/-- Several types, each by itself. -/
def flatAll : List TypeExpr → List TypeExpr
  | [] => []
  | e :: rest => flat e :: flatAll rest

/-- The members of a union. -/
def flatUnion : List TypeExpr → List TypeExpr
  | [] => []
  | e :: rest => alternatives (flat e) ++ flatUnion rest

/-- The types of members. -/
def flatMembers : List (Property TypeExpr) → List (Property TypeExpr)
  | [] => []
  | ⟨name, isOptional, type, docs⟩ :: rest => ⟨name, isOptional, flat type, docs⟩ :: flatMembers rest

/-- The types in the holes of a template. -/
def flatSpans : List (Span TypeExpr) → List (Span TypeExpr)
  | [] => []
  | .chunk t :: rest => .chunk t :: flatSpans rest
  | .hole e :: rest => .hole (flat e) :: flatSpans rest

end

@[simp] theorem flatAll_eq_map (es : List TypeExpr) : flatAll es = es.map flat := by
  induction es with
  | nil => rfl
  | cons e rest ih => rw [flatAll, ih, List.map_cons]

@[simp] theorem flatUnion_eq_flatMap (es : List TypeExpr) :
    flatUnion es = es.flatMap fun e => (flat e).alternatives := by
  induction es with
  | nil => rfl
  | cons e rest ih => rw [flatUnion, ih, List.flatMap_cons]

@[simp] theorem flatMembers_eq_map (ms : List (Property TypeExpr)) :
    flatMembers ms = ms.map fun m => { m with type := flat m.type } := by
  induction ms with
  | nil => rfl
  | cons m rest ih => cases m; rw [flatMembers, ih, List.map_cons]

theorem isUnion_flat (e : TypeExpr) : (flat e).isUnion = e.isUnion := by
  cases e <;> simp only [flat, isUnion]

theorem isIntersection_flat (e : TypeExpr) : (flat e).isIntersection = e.isIntersection := by
  cases e <;> simp only [flat, isIntersection]

theorem alternatives_of_not_union {e : TypeExpr} (h : e.isUnion = false) : e.alternatives = [e] := by
  cases e with
  | union => cases h
  | _ => rfl

end WireSchema.TypeExpr


namespace WireSchema

open TypeExpr TypeGrammar Project

/-! ## What a step leaves as it was -/

namespace Store

/-- Cells other than those of `changed` and properties other than those of
`changed'` are the same, and no node is another one. -/
structure Keeps (s s' : Store) (changed changed' : Nat → Prop) : Prop where
  size : s.types.size ≤ s'.types.size
  types : ∀ i < s.types.size, ¬ changed i → s'.types[i]? = s.types[i]?
  nodes : ∀ id : TypeId, id.index < s.types.size → s'.node id = s.node id
  count : s.properties.size ≤ s'.properties.size
  properties : ∀ i < s.properties.size, ¬ changed' i → s'.properties[i]? = s.properties[i]?

/-- No place at all. -/
def nowhere (_ : Nat) : Prop := False

/-- The places from `lo` on and before `hi`. -/
def within (lo hi i : Nat) : Prop := lo ≤ i ∧ i < hi

namespace Keeps

variable {s s' s'' : Store} {R R' P P' : Nat → Prop}

theorem refl (s : Store) : s.Keeps s R P :=
  ⟨Nat.le_refl _, fun _ _ _ => rfl, fun _ _ => rfl, Nat.le_refl _, fun _ _ _ => rfl⟩

/-- The second step may also change what the first one has made. -/
theorem trans (h : s.Keeps s' R P) (h' : s'.Keeps s'' R' P') (hR : ∀ i < s.types.size, R' i → R i)
    (hP : ∀ i < s.properties.size, P' i → P i) : s.Keeps s'' R P where
  size := Nat.le_trans h.size h'.size
  types i hi hr := by
    rw [h'.types i (Nat.lt_of_lt_of_le hi h.size) fun hr' => hr (hR i hi hr'), h.types i hi hr]
  nodes id hi := by rw [h'.nodes id (Nat.lt_of_lt_of_le hi h.size), h.nodes id hi]
  count := Nat.le_trans h.count h'.count
  properties i hi hp := by
    rw [h'.properties i (Nat.lt_of_lt_of_le hi h.count) fun hp' => hp (hP i hi hp'), h.properties i hi hp]

theorem events (s : Store) (events : List Event) : s.Keeps { s with events } R P :=
  ⟨Nat.le_refl _, fun _ _ _ => rfl, fun _ _ => rfl, Nat.le_refl _, fun _ _ _ => rfl⟩

theorem mono (h : s.Keeps s' R P) (hR : ∀ i < s.types.size, R i → R' i) (hP : ∀ i, P i → P' i) :
    s.Keeps s' R' P' :=
  (refl s).trans h hR fun i _ => hP i

theorem has {lo : Nat} {cs : List TypeCell} (h : s.Keeps s' R P) (hcs : s.Has lo cs)
    (hR : ∀ i, within lo (lo + cs.length) i → ¬ R i) : s'.Has lo cs := by
  intro i c hi
  have hlt := (List.getElem?_eq_some_iff.1 hi).1
  have hs := hcs i c hi
  rw [h.types (lo + i) (Array.getElem?_eq_some_iff.1 hs).1 (hR _ ⟨Nat.le_add_right _ _, by omega⟩), hs]

end Keeps

theorem Has.size_le {s : Store} {lo : Nat} {cs : List TypeCell} (h : s.Has lo cs) (hne : cs ≠ []) :
    lo + cs.length ≤ s.types.size := by
  have hlen := List.length_pos_iff.2 hne
  have := h (cs.length - 1) _ (List.getElem?_eq_getElem (by omega))
  have := (Array.getElem?_eq_some_iff.1 this).1
  omega

theorem Has.room {s : Store} {lo : Nat} {context : Context} {e : TypeExpr}
    (h : s.Has lo (cells context lo e)) : lo + e.cellCount ≤ s.types.size := by
  have := h.size_le fun hnil => by
    have hlen := cells_length context lo e
    rw [hnil] at hlen
    exact Nat.lt_irrefl _ (hlen ▸ e.cellCount_pos)
  rwa [cells_length] at this

theorem Has.top_lt {s : Store} {lo : Nat} {context : Context} {e : TypeExpr}
    (h : s.Has lo (cells context lo e)) : (e.top lo).index < s.types.size := by
  have := h.room
  have := e.cellCount_pos
  show lo + e.cellCount - 1 < s.types.size
  omega

theorem Has.isUnion {s : Store} {lo : Nat} {context : Context} {e : TypeExpr}
    (h : s.Has lo (cells context lo e)) : (s.node (e.top lo)).isUnion = e.isUnion := by
  rw [h.node_top]
  cases e with
  | keyword name =>
    simp only [cells, List.getLastD_cons, List.getLastD_nil, plainCell, Resolving.keywordShape]
    split
    · rfl
    split
    · rfl
    split <;> rfl
  | reference name arguments text =>
    cases arguments with
    | nil => rfl
    | cons first rest =>
      rw [cells, List.getLastD_concat]
      rfl
  | _ =>
    simp only [cells, List.getLastD_concat]
    rfl

end Store

theorem Project.Convertible.isIntersection {p : Project} {e : TypeExpr} (h : p.Convertible e) :
    e.isIntersection = false := by
  cases h <;> rfl

namespace TypeSpec

/-! ## Texts of several types -/

/-- The texts spell the types, one each. -/
def AllShown (es : List TypeExpr) (ts : List Text) : Prop :=
  ∃ ps : List (TypeExpr × Text), ps.map (·.1) = es ∧ ps.map (·.2) = ts ∧ ∀ p ∈ ps, Shown p.1 p.2

theorem AllShown.nil : AllShown [] [] := ⟨[], rfl, rfl, by simp⟩

theorem AllShown.single {e : TypeExpr} {t : Text} (h : Shown e t) : AllShown [e] [t] :=
  ⟨[(e, t)], rfl, rfl, by simpa using h⟩

theorem AllShown.append {es es' : List TypeExpr} {ts ts' : List Text} (h : AllShown es ts)
    (h' : AllShown es' ts') : AllShown (es ++ es') (ts ++ ts') := by
  obtain ⟨ps, rfl, rfl, hps⟩ := h
  obtain ⟨qs, rfl, rfl, hqs⟩ := h'
  exact ⟨ps ++ qs, List.map_append, List.map_append, List.forall_mem_append.2 ⟨hps, hqs⟩⟩

/-! ## Steps of a conversion -/

namespace Converting

variable {α β : Type}

theorem bind_apply (x : Converting α) (f : α → Converting β) (s : Store) :
    (x >>= f) s = (x s).bind fun r => f r.1 r.2 := rfl

theorem pure_apply (a : α) (s : Store) : (pure a : Converting α) s = some (a, s) := rfl

theorem lift_apply (x : Resolving α) (s : Store) : (liftM x : Converting α) s = some (x s) := rfl

theorem mapM_append {f : α → Converting β} {as as' : List α} {s s' s'' : Store} {bs bs' : List β}
    (h : as.mapM f s = some (bs, s')) (h' : as'.mapM f s' = some (bs', s'')) :
    (as ++ as').mapM f s = some (bs ++ bs', s'') := by
  rw [List.mapM_append, bind_apply, h]
  simp only [Option.bind_some, bind_apply, h']
  rfl

theorem length_mapM {f : α → Converting β} {as : List α} {s s' : Store} {bs : List β}
    (h : as.mapM f s = some (bs, s')) : bs.length = as.length := by
  induction as generalizing s bs with
  | nil =>
    cases h
    rfl
  | cons a as ih =>
    rw [List.mapM_cons] at h
    obtain ⟨⟨b, s₁⟩, _, h⟩ := Option.bind_eq_some_iff.1 h
    obtain ⟨⟨rest, s₂⟩, hrest, h⟩ := Option.bind_eq_some_iff.1 h
    cases h
    rw [List.length_cons, List.length_cons, ih hrest]

end Converting

/-! ## Answers of a kind -/

/-- All answers of the step are of a kind. -/
def Yields {α : Type} (P : α → Prop) (x : Converting α) : Prop := ∀ s a s', x s = some (a, s') → P a

section
variable {α β : Type} {P : α → Prop} {Q : β → Prop} {x : Converting α} {f : α → Converting β}

theorem Yields.pure {a : α} (h : P a) : Yields P (Pure.pure a) := by
  rintro s a s' ⟨⟩
  exact h

theorem Yields.bind (hx : Yields P x) (hf : ∀ a, P a → Yields Q (f a)) : Yields Q (x >>= f) := by
  intro s b s' hrun
  rw [Converting.bind_apply, Option.bind_eq_some_iff] at hrun
  obtain ⟨⟨a, s₁⟩, hfirst, hrest⟩ := hrun
  exact hf a (hx s a s₁ hfirst) s₁ b s' hrest

/-- What comes before does not matter. -/
theorem Yields.next (hf : ∀ a, Yields Q (f a)) : Yields Q (x >>= f) :=
  Yields.bind (P := fun _ => True) (fun _ _ _ _ => trivial) fun a _ => hf a

theorem Yields.mapM (hf : ∀ a, Yields Q (f a)) (as : List α) : Yields (fun bs => ∀ b ∈ bs, Q b) (as.mapM f) := by
  induction as with
  | nil => exact .pure (List.forall_mem_nil _)
  | cons a as ih =>
    rw [List.mapM_cons]
    exact (hf a).bind fun b hb => ih.bind fun bs hbs => .pure (List.forall_mem_cons.2 ⟨hb, hbs⟩)

end

/-! ## Writing types -/

/-- No model stands for a type, numbers are numbers, and records keep their keys. -/
structure Setting.Plain (setting : Setting) : Prop where
  models : setting.registry.models = []
  number : setting.config.numberType = "number"
  record : setting.config.recordStyle = .keyValue

open Store Converting

/-- The types of the path are there, and none is at a place from `lo` on and before `hi`. -/
def Outside (s : Store) (path : List TypeId) (lo hi : Nat) : Prop :=
  ∀ id ∈ path, id.index < s.types.size ∧ ¬ within lo hi id.index

section
variable {setting : Setting} {fuel : Nat} {path : List TypeId} {s s' : Store} {lo hi : Nat}

/-- The types are written one after the other as texts that spell `es`, and only
cells at the places `changed` change. -/
def Writes (setting : Setting) (fuel : Nat) (path : List TypeId) (s : Store) (changed : Nat → Prop)
    (ids : List TypeId) (es : List TypeExpr) : Prop :=
  ∃ layouts s', ids.mapM (reference setting (convertIn setting fuel) path) s = some (layouts, s') ∧
    s.Keeps s' changed nowhere ∧ AllShown es (layouts.map (·.render))

theorem reference_eq (h : setting.Plain) (write : Writer) (path : List TypeId) (id : TypeId) :
    reference setting write path id = write path id := by
  rw [reference, Registry.find?, h.models]
  rfl

theorem writes_one (h : setting.Plain) {changed : Nat → Prop} {id : TypeId} {e : TypeExpr} :
    Writes setting fuel path s changed [id] [e] ↔ ∃ layout s',
      convertIn setting fuel path id s = some (layout, s') ∧ s.Keeps s' changed nowhere ∧
        Shown e layout.render := by
  constructor
  · rintro ⟨layouts, s', hrun, hkeeps, ps, hes, hts, hps⟩
    rw [List.mapM_cons, reference_eq h, bind_apply] at hrun
    cases hone : convertIn setting fuel path id s with
    | none => rw [hone] at hrun; cases hrun
    | some r =>
      rw [hone] at hrun
      cases hrun
      match ps, hes, hts with
      | [p], hes, hts =>
        have hp := hps p List.mem_cons_self
        rw [show p.1 = e by simpa using hes, show p.2 = r.1.render by simpa using hts] at hp
        exact ⟨r.1, r.2, rfl, hkeeps, hp⟩
  · rintro ⟨layout, s', hrun, hkeeps, hshown⟩
    refine ⟨[layout], s', ?_, hkeeps, .single hshown⟩
    rw [List.mapM_cons, reference_eq h, bind_apply, hrun]
    rfl

theorem Writes.append {changed changed' : Nat → Prop} {ids ids' : List TypeId} {es es' : List TypeExpr}
    (h : Writes setting fuel path s changed ids es)
    (h' : ∀ s', s.Keeps s' changed nowhere → Writes setting fuel path s' changed' ids' es') :
    Writes setting fuel path s (fun i => changed i ∨ changed' i) (ids ++ ids') (es ++ es') := by
  obtain ⟨layouts, s', hrun, hkeeps, hshown⟩ := h
  obtain ⟨layouts', s'', hrun', hkeeps', hshown'⟩ := h' s' hkeeps
  refine ⟨layouts ++ layouts', s'', mapM_append hrun hrun', ?_, ?_⟩
  · refine (hkeeps.mono (fun i _ => .inl) fun _ => id).trans hkeeps' (fun i _ => .inr) fun _ _ => id
  · rw [List.map_append]
    exact hshown.append hshown'

theorem Writes.mono {changed changed' : Nat → Prop} {ids : List TypeId} {es : List TypeExpr}
    (h : Writes setting fuel path s changed ids es) (hsub : ∀ i < s.types.size, changed i → changed' i) :
    Writes setting fuel path s changed' ids es := by
  obtain ⟨layouts, s', hrun, hkeeps, hshown⟩ := h
  exact ⟨layouts, s', hrun, hkeeps.mono hsub fun _ => id, hshown⟩

/-- However deep in a type it stands, the expression is written from its cells. -/
def CanWrite (setting : Setting) (e : TypeExpr) : Prop :=
  ∀ context lo s path fuel, s.Has lo (cells context lo e) → Outside s path lo (lo + e.cellCount) →
    e.size ≤ fuel →
    Writes setting fuel path s (within lo (lo + e.cellCount)) [e.top lo] [e.flat] ∧
      Writes setting fuel path s (within lo (lo + e.cellCount)) (e.leaves lo) e.flat.alternatives

theorem writes_all {es : List TypeExpr} (h : ∀ e ∈ es, CanWrite setting e) {context : Context}
    (hhas : s.Has lo (cellsAll context lo es)) (hpath : Outside s path lo (lo + cellCountAll es))
    (hfuel : sizeAll es ≤ fuel) :
    Writes setting fuel path s (within lo (lo + cellCountAll es)) (tops lo es) (es.map flat) ∧
      Writes setting fuel path s (within lo (lo + cellCountAll es)) (leavesAll lo es)
        (es.flatMap fun e => e.flat.alternatives) := by
  induction es generalizing s lo with
  | nil => exact ⟨⟨[], s, rfl, .refl s, .nil⟩, ⟨[], s, rfl, .refl s, .nil⟩⟩
  | cons e es ih =>
    rw [cellsAll] at hhas
    rw [sizeAll] at hfuel
    rw [cellCountAll] at hpath ⊢
    have hfirst := h e List.mem_cons_self context lo s path fuel hhas.left
      (fun id hid => ⟨(hpath id hid).1, fun hw => (hpath id hid).2 ⟨hw.1, by have := hw.2; omega⟩⟩) (by omega)
    have hrest (s' : Store) (hkeeps : s.Keeps s' (within lo (lo + e.cellCount)) nowhere) :=
      @ih s' (lo + e.cellCount) (fun d hd => h d (List.mem_cons_of_mem _ hd))
        (by
          have := hhas.right
          rw [cells_length] at this
          refine hkeeps.has this fun i hi hw => ?_
          have := hi.1; have := hw.2; omega)
        (fun id hid => ⟨Nat.lt_of_lt_of_le (hpath id hid).1 hkeeps.size, fun hw =>
          (hpath id hid).2 ⟨by have := hw.1; omega, by have := hw.2; omega⟩⟩) (by omega)
    have hsub : ∀ i < s.types.size, within lo (lo + e.cellCount) i ∨
        within (lo + e.cellCount) (lo + e.cellCount + cellCountAll es) i →
        within lo (lo + (e.cellCount + cellCountAll es)) i := by
      rintro i _ (hi | hi)
      · exact ⟨hi.1, by have := hi.2; omega⟩
      · exact ⟨by have := hi.1; omega, by have := hi.2; omega⟩
    exact ⟨(hfirst.1.append fun s' hs => (hrest s' hs).1).mono hsub,
      (hfirst.2.append fun s' hs => (hrest s' hs).2).mono hsub⟩

/-! ## One step -/

theorem convertWith_apply (write : Writer) (path : List TypeId) (id : TypeId) (s : Store) :
    convertWith setting write path id s =
      (let enter (step : List TypeId → Converting Layout) : Converting Layout :=
        if path.contains id then verbatim id .recursive else step (id :: path)
      match (s.node id).shape with
      | .string => return .text "string"
      | .number => return .text setting.config.numberType
      | .boolean => return .text "boolean"
      | .template spans => template setting write path spans
      | .array (some element) => enter fun path => arrayOf setting write path element
      | .tuple elements =>
        enter fun path => do
          return .concat ["[", .join ", " (← references setting write path elements), "]"]
      | .instantiation arguments =>
        enter fun path => instantiation setting write path id (s.node id).symbol arguments
      | .object =>
        enter fun path => do body setting write path (← setting.project.properties id)
      | .union members =>
        enter fun path => do return .union (← references setting write path members)
      | .intersection members =>
        enter fun path => do
          body setting write path (← mergedProperties setting (s.node id).text members)
      | .array none => enter fun _ => verbatim id .unsupported
      | .other => enter fun _ => verbatim id .unsupported : Converting Layout) s := rfl

theorem verbatim_apply (id : TypeId) (reason : VerbatimReason) (s : Store) :
    ∃ events, verbatim id reason s = some (.text (s.node id).text, { s with events }) :=
  ⟨_, rfl⟩

/-- A type of no known shape is written as its text, on the path or not. -/
theorem convertWith_other (write : Writer) (path : List TypeId) {id : TypeId}
    (hshape : (s.node id).shape = .other) :
    ∃ events, convertWith setting write path id s = some (.text (s.node id).text, { s with events }) := by
  rw [convertWith_apply]
  simp only [hshape]
  split
  · exact verbatim_apply id _ s
  · exact verbatim_apply id _ s

/-- A type enters a path that it is not on, and its parts lie before it. -/
theorem Outside.enter {e : TypeExpr} {n : Nat} (hn : e.cellCount = n + 1)
    (hpath : Outside s path lo (lo + e.cellCount)) (hroom : lo + e.cellCount ≤ s.types.size) :
    path.contains (e.top lo) = false ∧ Outside s (e.top lo :: path) lo (lo + n) := by
  rw [top]
  constructor
  · refine Bool.eq_false_iff.2 fun hmem => ?_
    exact (hpath _ (List.contains_iff_mem.1 hmem)).2 ⟨by simp only; omega, by simp only; omega⟩
  · intro id hid
    rcases List.mem_cons.1 hid with rfl | hid
    · exact ⟨by simp only; omega, fun hw => by have := hw.2; simp only at this; omega⟩
    · exact ⟨(hpath id hid).1, fun hw => (hpath id hid).2 ⟨hw.1, by have := hw.2; omega⟩⟩

theorem convertWith_keyword (h : setting.Plain) (write : Writer) (path : List TypeId) {id : TypeId} {name : Text}
    (hshape : (s.node id).shape = Resolving.keywordShape name) (htext : (s.node id).text = name) :
    ∃ events, convertWith setting write path id s = some (.text name, { s with events }) := by
  unfold Resolving.keywordShape at hshape
  split at hshape
  next hname =>
    rw [convertWith_apply, hname]
    simp only [hshape]
    exact ⟨s.events, rfl⟩
  split at hshape
  next hname =>
    rw [convertWith_apply, hname]
    simp only [hshape, h.number]
    exact ⟨s.events, rfl⟩
  split at hshape
  next hname =>
    rw [convertWith_apply, hname]
    simp only [hshape]
    exact ⟨s.events, rfl⟩
  next =>
    rw [← htext]
    exact convertWith_other write path hshape

theorem join_nil (parts : List Text) : Text.join [] parts = parts.flatten := by
  match parts with
  | [] => rfl
  | [t] => simp [Text.join]
  | t :: u :: rest => simp [Text.join, join_nil (u :: rest)]

theorem render_concat (parts : List Layout) :
    (Layout.concat parts).render = (parts.map (·.render)).flatten := by
  rw [Layout.concat, Layout.render, Layout.renderAll_eq_map]
  exact join_nil _

theorem render_join (sep : Text) (parts : List Layout) :
    (Layout.join sep parts).render = Text.join sep (parts.map (·.render)) := by
  rw [Layout.join, Layout.render, Layout.renderAll_eq_map]
  rfl

/-- An array is written with brackets behind its element, a union with
parentheses around it. -/
theorem arrayOf_apply (h : setting.Plain) {write : Writer} {element : TypeId} {layout : Layout}
    (hwrite : write path element s = some (layout, s')) :
    ∃ array, arrayOf setting write path element s = some (array, s') ∧
      array.render = parenthesize (s'.node element).isUnion layout.render ++ "[]" := by
  have hfind : (setting.registry.find? element).isNone = true := by
    rw [Registry.find?, h.models]
    rfl
  rw [arrayOf, reference_eq h, bind_apply, hwrite]
  show ∃ array, (if (s'.node element).isUnion && (setting.registry.find? element).isNone then
      pure (Layout.concat ["(", layout, ")[]"])
    else pure (Layout.concat [layout, "[]"]) : Converting Layout) s' = some (array, s') ∧ _
  rw [hfind, Bool.and_true]
  cases (s'.node element).isUnion with
  | true =>
    refine ⟨_, rfl, ?_⟩
    simp [render_concat, parenthesize, Layout.render]
    rfl
  | false =>
    refine ⟨_, rfl, ?_⟩
    simp [render_concat, parenthesize, Layout.render]

theorem canWrite_of_own (h : setting.Plain) {e : TypeExpr} (hunion : e.isUnion = false)
    (hown : ∀ context lo s path fuel, s.Has lo (cells context lo e) → Outside s path lo (lo + e.cellCount) →
      e.size ≤ fuel + 1 → ∃ layout s',
        convertWith setting (convertIn setting fuel) path (e.top lo) s = some (layout, s') ∧
          s.Keeps s' (within lo (lo + e.cellCount)) nowhere ∧ Shown e.flat layout.render) :
    CanWrite setting e := by
  intro context lo s path fuel hhas hpath hfuel
  have hone : Writes setting fuel path s (within lo (lo + e.cellCount)) [e.top lo] [e.flat] := by
    obtain ⟨fuel, rfl⟩ : ∃ n, fuel = n + 1 := ⟨fuel - 1, by have := e.size_pos; omega⟩
    exact (writes_one h).2 (hown context lo s path fuel hhas hpath hfuel)
  refine ⟨hone, ?_⟩
  have hleaves : e.leaves lo = [e.top lo] := by
    cases e with
    | union => cases hunion
    | _ => rfl
  rw [hleaves, alternatives_of_not_union ((isUnion_flat e).trans hunion)]
  exact hone

end

end TypeSpec

end WireSchema
