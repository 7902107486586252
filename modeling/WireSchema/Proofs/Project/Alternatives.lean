import WireSchema.Proofs.Project.Built
/-!
# The alternatives of a type

A union stands for the alternatives of its members, and an intersection for one
alternative, all its members together. Intersecting types puts their alternatives
together in all ways, each way once.
-/

namespace WireSchema

/-! ## Combinations -/

section
variable {α β γ : Type}

theorem choices_singletons (as : List α) : choices (as.map fun a => [a]) = [as] := by
  induction as with
  | nil => rfl
  | cons a as ih =>
    rw [List.map_cons, choices, ih]
    rfl

theorem choices_append (xs ys : List (List α)) :
    choices (xs ++ ys) = (choices xs).flatMap fun chosen => (choices ys).map (chosen ++ ·) := by
  induction xs with
  | nil => simp [choices]
  | cons options xs ih => simp [choices, ih, List.map_flatMap, List.flatMap_map, List.flatMap_assoc, Function.comp_def]

/-- The order of two choices does not matter. -/
theorem flatMap_swap (as : List α) (bs : List β) (f : α → β → List γ) :
    (as.flatMap fun a => bs.flatMap (f a)).Perm (bs.flatMap fun b => as.flatMap (f · b)) := by
  have h := Multiset.bind_bind (as : Multiset α) (bs : Multiset β) (f := fun a b => (f a b : Multiset γ))
  simp only [Multiset.coe_bind] at h
  exact Multiset.coe_eq_coe.1 h

/-- To choose from what is made of all members is to choose members and then from
what is made of these. -/
theorem choices_flatMap (f : α → List β) (lists : List (List α)) :
    (choices (lists.map (List.flatMap f))).Perm ((choices lists).flatMap fun chosen => choices (chosen.map f)) := by
  induction lists with
  | nil => simp [choices]
  | cons options rest ih =>
    simp only [List.map_cons, choices, List.flatMap_assoc, List.flatMap_map]
    refine List.Perm.flatMap_left _ fun a _ => ?_
    have hlater (b : β) : ((choices (rest.map (List.flatMap f))).map (b :: ·)).Perm
        ((choices rest).flatMap fun chosen => (choices (chosen.map f)).map (b :: ·)) := by
      rw [← List.map_flatMap]
      exact ih.map _
    exact (List.Perm.flatMap_left _ fun b _ => hlater b).trans (flatMap_swap (f a) (choices rest) _)

/-- All ways to take one from each list, one behind the other. -/
def combinations (lists : List (List (List α))) : List (List α) := (choices lists).map List.flatten

theorem combinations_singletons (as : List α) : combinations (as.map fun a => [[a]]) = [as] := by
  have h := choices_singletons (as.map fun a => [a])
  rw [List.map_map] at h
  rw [combinations, show (as.map fun a => [[a]]) = as.map ((fun b => [b]) ∘ fun a => [a]) from rfl, h, List.map_singleton,
    ← List.flatMap_def, List.flatMap_singleton']

theorem combinations_append (xs ys : List (List (List α))) :
    combinations (xs ++ ys) = (combinations xs).flatMap fun a => (combinations ys).map (a ++ ·) := by
  simp [combinations, choices_append, List.map_flatMap, List.flatMap_map, Function.comp_def]

theorem combinations_one (list : List (List α)) : combinations [list] = list := by
  simp [combinations, choices, List.map_flatMap]

theorem combinations_flatMap (f : α → List (List β)) (lists : List (List α)) :
    (combinations (lists.map (List.flatMap f))).Perm
      ((choices lists).flatMap fun chosen => combinations (chosen.map f)) := by
  have h := (choices_flatMap f lists).map List.flatten
  rwa [List.map_flatMap] at h

end

/-! ## The alternatives of a type -/

theorem Shape.shape_of_unionMembers? {n : TypeNode} {ts : List TypeId} (h : Shape.unionMembers? n = some ts) :
    n.shape = .union ts := by
  obtain ⟨shape, text, symbol⟩ := n
  cases shape <;> cases h
  rfl

theorem Shape.shape_of_intersectionMembers? {n : TypeNode} {ts : List TypeId}
    (h : Shape.intersectionMembers? n = some ts) : n.shape = .intersection ts := by
  obtain ⟨shape, text, symbol⟩ := n
  cases shape <;> cases h
  rfl

namespace Store

variable {s s' : Store} {t : TypeId} {types ts : List TypeId}

/-- The alternatives of a type: for a union those of its members, for an intersection
its members together, and else the type itself. -/
def alternativesOf (s : Store) (t : TypeId) : List (List TypeId) :=
  match (s.node t).shape with
  | .union members => members.flatMap fun u => if u.index < t.index then s.alternativesOf u else []
  | .intersection members => [members]
  | _ => [[t]]
termination_by t.index

theorem alternatives_union (h : s.Descends) (ht : t.index < s.types.size)
    (hts : Shape.unionMembers? (s.node t) = some ts) : s.alternativesOf t = ts.flatMap s.alternativesOf := by
  have hmembers := h t ht
  rw [Shape.unionMembers?_eq hts] at hmembers
  rw [alternativesOf, Shape.shape_of_unionMembers? hts]
  exact List.flatMap_congr fun u hu => if_pos (hmembers u hu)

theorem alternatives_intersection (hts : Shape.intersectionMembers? (s.node t) = some ts) : s.alternativesOf t = [ts] := by
  rw [alternativesOf, Shape.shape_of_intersectionMembers? hts]

theorem alternatives_plain (hunion : (s.node t).isUnion = false) (hmeet : Shape.intersectionMembers? (s.node t) = none) :
    s.alternativesOf t = [[t]] := by
  rw [TypeNode.isUnion] at hunion
  rw [Shape.intersectionMembers?] at hmeet
  rw [alternativesOf]
  split
  next members hshape => rw [hshape] at hunion; cases hunion
  next members hshape => rw [hshape] at hmeet; cases hmeet
  next => rfl

/-- More nodes do not change the alternatives. -/
theorem Grown.alternatives (h : Grown s s') (t : TypeId) (ht : t.index < s.types.size) :
    s'.alternativesOf t = s.alternativesOf t := by
  rw [Store.alternativesOf, Store.alternativesOf, h.node t ht]
  split
  next members _ =>
    refine List.flatMap_congr fun u _ => ?_
    split
    next hlt => exact h.alternatives u (Nat.lt_trans hlt ht)
    next => rfl
  next => rfl
  next => rfl
termination_by t.index

/-- The members of intersections stand for themselves. -/
theorem alternatives_of_mem (hs : s.Layered) (hts : Shape.intersectionMembers? (s.node t) = some ts) {u : TypeId}
    (hu : u ∈ ts) : s.alternativesOf u = [[u]] :=
  alternatives_plain (hs.joined t ts hts u hu).1 (hs.joined t ts hts u hu).2

/-- Opening intersections changes no combination. -/
theorem combinations_joined (hs : s.Layered) (types : List TypeId) :
    combinations ((s.joined types).map s.alternativesOf) = combinations (types.map s.alternativesOf) := by
  induction types with
  | nil => rfl
  | cons t rest ih =>
    have hfirst : combinations (((Shape.intersectionMembers? (s.node t)).getD [t]).map s.alternativesOf) = s.alternativesOf t := by
      cases hts : Shape.intersectionMembers? (s.node t) with
      | none => rw [Option.getD_none, List.map_singleton, combinations_one]
      | some ts =>
        have hmembers : ts.map s.alternativesOf = ts.map fun u => [[u]] :=
          List.map_congr_left fun u hu => alternatives_of_mem hs hts hu
        rw [Option.getD_some, hmembers, combinations_singletons, alternatives_intersection hts]
    have hone := combinations_one (s.alternativesOf t)
    calc combinations ((s.joined (t :: rest)).map s.alternativesOf)
      _ = combinations (((Shape.intersectionMembers? (s.node t)).getD [t]).map s.alternativesOf ++
            (s.joined rest).map s.alternativesOf) := by rw [joined, opened, List.flatMap_cons, List.map_append]; rfl
      _ = (s.alternativesOf t).flatMap fun a => (combinations (rest.map s.alternativesOf)).map (a ++ ·) := by
        rw [combinations_append, hfirst, ih]
      _ = combinations ((t :: rest).map s.alternativesOf) := by
        rw [List.map_cons, ← List.singleton_append, combinations_append, hone]

/-- What is left of intersections without unions is all that there is. -/
theorem combinations_plain (hs : s.Layered) (hnone : s.anyUnion (s.joined types) = false) :
    combinations (types.map s.alternativesOf) = [s.joined types] := by
  rw [anyUnion, List.any_eq_false] at hnone
  have hplain : (s.joined types).map s.alternativesOf = (s.joined types).map fun u => [[u]] :=
    List.map_congr_left fun u hu =>
      alternatives_plain (Bool.eq_false_iff.2 (hnone u hu)) (Project.intersectionMembers?_of_mem_joined hs hu)
  rw [← combinations_joined hs, hplain, combinations_singletons]

/-- The combinations of the types are those of what is chosen for them. -/
theorem combinations_options (hs : s.Layered) (hbelow : Below s.types.size types) :
    (combinations (types.map s.alternativesOf)).Perm
      ((choices (s.options types)).flatMap fun chosen => combinations (chosen.map s.alternativesOf)) := by
  have hoptions : (s.joined types).map s.alternativesOf = (s.options types).map (List.flatMap s.alternativesOf) := by
    rw [options, List.map_map]
    refine List.map_congr_left fun t ht => ?_
    show s.alternativesOf t = ((Shape.unionMembers? (s.node t)).getD [t]).flatMap s.alternativesOf
    cases hts : Shape.unionMembers? (s.node t) with
    | none => rw [Option.getD_none, List.flatMap_singleton]
    | some ts =>
      rw [Option.getD_some]
      exact alternatives_union hs.below (hbelow.joined hs.below (Nat.le_refl _) t ht) hts
  rw [← combinations_joined hs, hoptions]
  exact combinations_flatMap s.alternativesOf (s.options types)

end Store

/-! ## Intersecting types -/

namespace Project

open Resolving Store

variable {s : Store} {types : List TypeId} {n : Nat}

/-- What is chosen for types that are there is there. -/
theorem below_of_mem_choices (hs : s.Layered) (hbelow : Below s.types.size types) {ts : List TypeId}
    (hts : ts ∈ choices (s.options types)) : Below s.types.size ts := by
  obtain ⟨i, hi⟩ := List.getElem?_of_mem hts
  have hchosen := hbelow.chosen hs.below (Nat.le_refl _) [i]
  simp only [Store.chosen, hi, Option.getD_some] at hchosen
  exact hchosen

theorem unionsBelow_of_mem_choices (hs : s.Layered) (hbelow : Below s.types.size types) (hunions : UnionsBelow s (n + 1) types)
    {ts : List TypeId} (hts : ts ∈ choices (s.options types)) : UnionsBelow s n ts := by
  obtain ⟨i, hi⟩ := List.getElem?_of_mem hts
  have hchosen := hunions.choose hs hbelow i
  rwa [hi] at hchosen

/-- Several intersections, one after the other. -/
theorem intersect_all {lists : List (List TypeId)} (hs : s.Orderly) (h : ∀ ts ∈ lists, Below s.types.size ts) :
    let made := lists.mapM intersect s
    made.2.Orderly ∧ Grown s made.2 ∧ Below made.2.types.size made.1 :=
  builds_all hs fun ts hts _ hgrown hs' => intersect_builds hs' ((h ts hts).mono hgrown)

/-- A bound above the unions among the types does not matter. -/
theorem bounded_all {lists : List (List TypeId)} (hs : s.Orderly)
    (h : ∀ ts ∈ lists, Below s.types.size ts ∧ UnionsBelow s n ts) (hn : n ≤ s.types.size) :
    lists.mapM (makeIntersection (n + 1)) s = lists.mapM intersect s := by
  induction lists generalizing s with
  | nil => rfl
  | cons ts lists ih =>
    obtain ⟨hbelow, hunions⟩ := h ts List.mem_cons_self
    have hone := intersect_builds hs hbelow
    have hsame : makeIntersection (n + 1) ts s = intersect ts s :=
      ((ends n hs.toLayered hbelow hunions).enough s.types.size hn).symm
    rw [mapM_cons, mapM_cons, hsame, ih hone.orderly (fun us hus => ?_) (Nat.le_trans hn hone.grown.size)]
    obtain ⟨hbelow', hunions'⟩ := h us (List.mem_cons_of_mem ts hus)
    exact ⟨hbelow'.mono hone.grown, hunions'.mono hbelow' hone.grown⟩

/-- Types are intersected by opening intersections and intersecting all choices,
without a bound. -/
theorem intersect_eq (hs : s.Orderly) (hbelow : Below s.types.size types) :
    intersect types s =
      if s.anyUnion (s.joined types) then
        let made := (choices (s.options types)).mapM intersect s
        addNode (.union made.1) (made.2.texts " | " made.1) none made.2
      else addNode (.intersection (s.joined types)) (s.texts " & " (s.joined types)) none s := by
  show makeIntersection (s.types.size + 1) types s = _
  rw [makeIntersection_succ]
  cases hunion : s.anyUnion (s.joined types) with
  | false => rw [if_neg Bool.false_ne_true, if_neg Bool.false_ne_true]
  | true =>
    -- where there is a union there is a node
    obtain ⟨t, ht, _⟩ := List.any_eq_true.1 hunion
    have hlt := hbelow.joined hs.below (Nat.le_refl _) t ht
    obtain ⟨n, hn⟩ : ∃ n, s.types.size = n + 1 := ⟨s.types.size - 1, by omega⟩
    have hunions : UnionsBelow s (n + 1) types := fun u hu _ => hn ▸ hbelow u hu
    have hchoices (ts : List TypeId) (hts : ts ∈ choices (s.options types)) : Below s.types.size ts ∧ UnionsBelow s n ts :=
      ⟨below_of_mem_choices hs.toLayered hbelow hts, unionsBelow_of_mem_choices hs.toLayered hbelow hunions hts⟩
    rw [if_pos rfl, if_pos rfl, hn, bounded_all hs hchoices (by omega)]

/-! ## The alternatives of an intersection -/

/-- Intersecting the types combines their alternatives. -/
def Combines (s : Store) (types : List TypeId) : Prop :=
  ((intersect types s).2.alternativesOf (intersect types s).1).Perm (combinations (types.map s.alternativesOf))

/-- Intersections that are made one after the other have all their alternatives together. -/
theorem alternatives_all {lists : List (List TypeId)} (hs : s.Orderly) (h : ∀ ts ∈ lists, Below s.types.size ts)
    (hcombines : ∀ ts ∈ lists, ∀ s', Grown s s' → s'.Orderly → Combines s' ts) :
    let made := lists.mapM intersect s
    (made.1.flatMap made.2.alternativesOf).Perm (lists.flatMap fun ts => combinations (ts.map s.alternativesOf)) := by
  induction lists generalizing s with
  | nil => exact List.Perm.refl _
  | cons ts lists ih =>
    have hone := intersect_builds hs (h ts List.mem_cons_self)
    have hrest (us : List TypeId) (hus : us ∈ lists) : Below s.types.size us := h us (List.mem_cons_of_mem ts hus)
    obtain ⟨_, hgrown, _⟩ := intersect_all hone.orderly fun us hus => (hrest us hus).mono hone.grown
    have hothers := ih hone.orderly (fun us hus => (hrest us hus).mono hone.grown) fun us hus s' hgrown' =>
      hcombines us (List.mem_cons_of_mem ts hus) s' (hone.grown.trans hgrown')
    -- what the types stand for is the same in the later stores
    have hsame : (lists.flatMap fun us => combinations (us.map (intersect ts s).2.alternativesOf)) =
        lists.flatMap fun us => combinations (us.map s.alternativesOf) :=
      List.flatMap_congr fun us hus => congrArg combinations
        (List.map_congr_left fun t ht => hone.grown.alternatives t (hrest us hus t ht))
    rw [hsame] at hothers
    simp only [mapM_cons, List.flatMap_cons]
    refine List.Perm.append ?_ hothers
    rw [hgrown.alternatives _ hone.lt]
    exact hcombines ts List.mem_cons_self s (.refl s) hs

/-- A union of types that are there has their alternatives. -/
theorem alternatives_added_union (hbelow : Below s.types.size types) (text : Text) :
    (s.added (meetCell (.union types) text)).alternativesOf ⟨s.types.size⟩ = types.flatMap s.alternativesOf := by
  have hgrown := grown_added s (meetCell (.union types) text)
  rw [alternativesOf, node_added_self]
  refine List.flatMap_congr fun t ht => ?_
  rw [if_pos (hbelow t ht), hgrown.alternatives t (hbelow t ht)]

theorem combines_of_plain (hs : s.Orderly) (hbelow : Below s.types.size types)
    (hnone : s.anyUnion (s.joined types) = false) : Combines s types := by
  rw [Combines, intersect_eq hs hbelow, hnone, if_neg Bool.false_ne_true, combinations_plain hs.toLayered hnone]
  exact List.Perm.of_eq (alternatives_intersection (congrArg Shape.intersectionMembers? node_added_self))

/-- The induction is on a bound above the unions that are left to choose from. -/
theorem combines_of_unionsBelow (n : Nat) (hs : s.Orderly) (hbelow : Below s.types.size types)
    (hunions : UnionsBelow s n types) : Combines s types := by
  induction n generalizing s types with
  | zero =>
    have hnone : s.anyUnion (s.joined types) = false := by
      rw [anyUnion, List.any_eq_false]
      intro t ht hunion
      exact Nat.not_lt_zero _ (hunions t (isUnion_of_mem_joined hs.toLayered ht hunion) hunion)
    exact combines_of_plain hs hbelow hnone
  | succ n ih =>
    cases hunion : s.anyUnion (s.joined types) with
    | false => exact combines_of_plain hs hbelow hunion
    | true =>
      have hbelow' (ts : List TypeId) (hts : ts ∈ choices (s.options types)) : Below s.types.size ts :=
        below_of_mem_choices hs.toLayered hbelow hts
      obtain ⟨_, _, hvariants⟩ := intersect_all hs hbelow'
      have hall := alternatives_all hs hbelow' fun ts hts s' hgrown hs' =>
        ih hs' ((hbelow' ts hts).mono hgrown)
          ((unionsBelow_of_mem_choices hs.toLayered hbelow hunions hts).mono (hbelow' ts hts) hgrown)
      have hadded := alternatives_added_union hvariants
        (((choices (s.options types)).mapM intersect s).2.texts " | " ((choices (s.options types)).mapM intersect s).1)
      rw [Combines, intersect_eq hs hbelow, hunion, if_pos rfl]
      refine List.Perm.trans ?_ (hall.trans (combinations_options hs.toLayered hbelow).symm)
      exact List.Perm.of_eq hadded

/-- Intersecting types combines their alternatives. -/
theorem combines (hs : s.Orderly) (hbelow : Below s.types.size types) : Combines s types :=
  combines_of_unionsBelow s.types.size hs hbelow fun t ht _ => hbelow t ht

/-- Whatever types are intersected while a project is resolved, distributing the intersection ends,
and it has the combinations of their alternatives, each once. No intersection has a union or an
intersection for a member. Asking leads to no other stores than those that resolving goes through. -/
theorem intersect_alternatives (p : Project) :
    (∀ news s, p.Reached news s → p.Built s) ∧
    ∀ s types, p.Built s → Below s.types.size types →
      (∀ n, s.types.size < n → makeIntersection n types s = intersect types s) ∧
      intersect types s =
        (if s.anyUnion (s.joined types) then
          let made := (choices (s.options types)).mapM intersect s
          addNode (.union made.1) (made.2.texts " | " made.1) none made.2
        else addNode (.intersection (s.joined types)) (s.texts " & " (s.joined types)) none s) ∧
      ((intersect types s).2.alternativesOf (intersect types s).1).Perm (combinations (types.map s.alternativesOf)) ∧
      ∀ t members, Shape.intersectionMembers? (s.node t) = some members →
        ∀ u ∈ members, (s.node u).isUnion = false ∧ Shape.intersectionMembers? (s.node u) = none := by
  refine ⟨fun _ _ hreached => hreached.built, fun s types hbuilt hbelow => ?_⟩
  have hs := hbuilt.orderly
  exact ⟨fun _ hn => makeIntersection_eq_intersect hs.toLayered hbelow hn, intersect_eq hs hbelow, combines hs hbelow,
    hs.joined⟩

/-- `enum E { X, Y }`. -/
def enumeratedProject : Project where
  units := [{ name := "u", declarations := [
    { name := "E", docs := {}, body := .enumeration [{ name := "X", value := none }, { name := "Y", value := none }] }] }]

/-- The parts of `("a" | E) & ("b" | "c")`. -/
def enumeratedParts : List TypeExpr :=
  [.union [.literal "a", .reference "E" [] "E"] "a | E", .union [.literal "b", .literal "c"] "b | c"]

/-- The enumeration is a member of a union and is opened after it. -/
theorem intersect_alternatives_enumeration :
    let first : Question := .declaration ⟨0, 0⟩
    let parts := enumeratedProject.resolveAll [] { unit := 0 } enumeratedParts {}
    enumeratedProject.Reached [first] (first.ask enumeratedProject {}) ∧
      enumeratedProject.Built (first.ask enumeratedProject {}) ∧
      enumeratedProject.Built parts.2 ∧ Below parts.2.types.size parts.1 ∧
      ((intersect parts.1 parts.2).2.alternativesOf (intersect parts.1 parts.2).1).Perm
        [[⟨0⟩, ⟨5⟩], [⟨0⟩, ⟨6⟩], [⟨1⟩, ⟨5⟩], [⟨1⟩, ⟨6⟩], [⟨2⟩, ⟨5⟩], [⟨2⟩, ⟨6⟩]] := by
  intro first parts
  have hreached : enumeratedProject.Reached [first] (first.ask enumeratedProject {}) := by
    refine Reached.start.new ⟨_, rfl⟩ ?_
    rintro ⟨t, ht⟩
    cases ht
  obtain ⟨hresolved, hall⟩ := intersect_alternatives enumeratedProject
  obtain ⟨hbuilt, hbelow⟩ := (Built.empty (p := enumeratedProject)).parts [] { unit := 0 } enumeratedParts
  have hcombinations : combinations ((enumeratedProject.resolveAll [] { unit := 0 } enumeratedParts {}).1.map
      (enumeratedProject.resolveAll [] { unit := 0 } enumeratedParts {}).2.alternativesOf) =
      [[⟨0⟩, ⟨5⟩], [⟨0⟩, ⟨6⟩], [⟨1⟩, ⟨5⟩], [⟨1⟩, ⟨6⟩], [⟨2⟩, ⟨5⟩], [⟨2⟩, ⟨6⟩]] := by
    simp only [enumeratedParts, resolveAll, resolve, resolveDeclaration]
    decide +kernel
  exact ⟨hreached, hresolved _ _ hreached, hbuilt, hbelow, hcombinations ▸ (hall _ _ hbuilt hbelow).2.2.1⟩

end Project

end WireSchema
