import WireSchema.Proofs.Project.Resolved
/-!
# Intersections

An intersection is distributed over the unions among its members, one choice
after the other. Each choice makes nodes of its own, and members come before
what they are members of, so the bound on the choices is never reached.
-/

namespace WireSchema

/-- Members come before what they are members of, and an intersection is one of
types that are neither unions nor intersections. -/
structure Store.Layered (s : Store) : Prop where
  below : s.Descends
  joined : ∀ id ts, Shape.intersectionMembers? (s.node id) = some ts →
    ∀ t ∈ ts, (s.node t).isUnion = false ∧ Shape.intersectionMembers? (s.node t) = none

namespace Project

open Resolving

variable {p : Project} {s s' : Store} {c c' : Chart}

theorem Charted.layered (h : p.Charted s c) : s.Layered := ⟨h.below, h.joined⟩

theorem makeIntersection_succ (n : Nat) (types : List TypeId) (s : Store) :
    makeIntersection (n + 1) types s =
      if s.anyUnion (s.joined types) then
        let made := (choices (s.options types)).mapM (makeIntersection n) s
        addNode (.union made.1) (made.2.texts " | " made.1) none made.2
      else addNode (.intersection (s.joined types)) (s.texts " & " (s.joined types)) none s := by
  rw [makeIntersection, bind_apply]
  show (if s.anyUnion (s.joined types) then _ else _ : Resolving TypeId) s = _
  split
  · rw [bind_apply, bind_apply]
    show addNode _ (Text.join " | " (List.map (fun n : TypeNode => n.text) (List.map _ _))) none _ = _
    rw [List.map_map]
    rfl
  · rfl

/-! ## What is left to intersect -/

section
variable {root : Root} {steps choice : List Nat} {context : Context} {types : List TypeId}

/-- What a type that is left to intersect has, one of the types has. -/
theorem chosen_has (h : p.Charted s c) (hbelow : Store.Below s.types.size types) {t : TypeId}
    (ht : t ∈ s.chosen types choice) {context' : Context} {m : Property TypeExpr}
    (hm : p.OriginHas (c.types t.index) context' m) :
    ∃ u ∈ types, p.OriginHas (c.types u.index) context' m := by
  induction choice generalizing types with
  | nil => exact ⟨t, ht, hm⟩
  | cons i rest ih =>
    obtain ⟨v, hv, hm⟩ := ih (hbelow.chosen h.descends (Nat.le_refl _) [i]) ht
    have hjoined := hbelow.joined h.descends (Nat.le_refl _)
    -- a choice is one of the joined types or a member of one
    have hfound : ∃ u ∈ s.joined types, p.OriginHas (c.types u.index) context' m := by
      rcases Store.mem_getD_choices hv with ⟨hv, _⟩ | ⟨u, hu, _, hv⟩
      · exact ⟨v, hv, hm⟩
      · exact ⟨u, hu, h.has u (hjoined u hu) v hv context' m hm⟩
    obtain ⟨u, hu, hm⟩ := hfound
    rcases Store.mem_opened (fun _ _ => Shape.intersectionMembers?_eq) hu with ⟨hu, _⟩ | ⟨w, hw, hu, _⟩
    · exact ⟨u, hu, hm⟩
    · exact ⟨w, hw, h.has w (hbelow w hw) u hu context' m hm⟩

/-- What is left to intersect after one more choice. -/
theorem chosen_concat (s : Store) (types : List TypeId) (choice : List Nat) (i : Nat) :
    s.chosen types (choice ++ [i]) = (choices (s.options (s.chosen types choice)))[i]?.getD [] := by
  rw [Store.chosen_append]
  rfl

/-- The joined types are no intersections. -/
theorem intersectionMembers?_of_mem_joined (h : s.Layered) {t : TypeId} (ht : t ∈ s.joined types) :
    Shape.intersectionMembers? (s.node t) = none := by
  rcases Store.mem_opened (fun _ _ => Shape.intersectionMembers?_eq) ht with ⟨_, hnone⟩ | ⟨u, _, hmem, ts, hts⟩
  · exact hnone
  · rw [Shape.intersectionMembers?_eq hts] at hmem
    exact (h.joined u ts hts t hmem).2

theorem isUnion_of_mem_joined (h : s.Layered) {t : TypeId} (ht : t ∈ s.joined types)
    (hunion : (s.node t).isUnion = true) : t ∈ types := by
  rcases Store.mem_opened (fun _ _ => Shape.intersectionMembers?_eq) ht with ⟨ht, _⟩ | ⟨u, _, hmem, ts, hts⟩
  · exact ht
  · rw [Shape.intersectionMembers?_eq hts] at hmem
    rw [(h.joined u ts hts t hmem).1] at hunion
    cases hunion

/-- The unions among the types come before the first `n` nodes are over. -/
def UnionsBelow (s : Store) (n : Nat) (types : List TypeId) : Prop :=
  ∀ t ∈ types, (s.node t).isUnion = true → t.index < n

/-- Each choice goes from a union to an earlier node. -/
theorem UnionsBelow.choose (h : s.Layered) (hbelow : Store.Below s.types.size types) {n : Nat}
    (hunions : UnionsBelow s (n + 1) types) (i : Nat) : UnionsBelow s n ((choices (s.options types))[i]?.getD []) := by
  intro t ht hunion
  rcases Store.mem_getD_choices ht with ⟨_, hnone⟩ | ⟨u, hu, hunion', hmem⟩
  · rw [hnone] at hunion
    cases hunion
  · have hlt := hunions u (isUnion_of_mem_joined h hu hunion') hunion'
    have := h.below u (hbelow.joined h.below (Nat.le_refl _) u hu) t hmem
    omega

end

/-! ## One node of an intersection -/

section
variable {closed : List DeclarationId} {root : Root} {steps choice : List Nat} {context : Context}
  {members : List TypeExpr} {text : Text} {types : List TypeId}

/-- The cell of a union or an intersection without a name. -/
def meetCell (shape : Shape) (text : Text) : TypeCell := { node := { shape, text } }

theorem listingOk_meet (hpart : p.partType? root steps = some (context, .intersection members text)) (shape : Shape)
    (t : Text) : p.ListingOk (s.added (meetCell shape t)) (c.put s.types.size (.part root steps choice))
      ⟨s.types.size⟩ := by
  rw [ListingOk, Store.cell_added_self, Chart.put_self]
  refine ⟨List.forall_mem_nil _, ?_⟩
  rw [membersOf?_part hpart choice]

/-- What was chosen is intersected. -/
theorem fits_intersection (h : p.Charted s c)
    (hpart : p.partType? root steps = some (context, .intersection members text))
    (hparts : p.PartsDenote s c root steps context members types) (choice : List Nat)
    (hnone : s.anyUnion (s.joined (s.chosen types choice)) = false) :
    p.Fits s c
      (meetCell (.intersection (s.joined (s.chosen types choice))) (s.texts " & " (s.joined (s.chosen types choice))))
      (.part root steps choice) := by
  have hbelow : Store.Below s.types.size types := PartsDenote.below h hparts
  have hleft := hbelow.chosen h.descends (Nat.le_refl _) choice
  have hjoined := hleft.joined h.descends (Nat.le_refl _)
  have hsame {cell : TypeCell} (id : TypeId) (hid : id.index < s.types.size) : (s.added cell).node id = s.node id :=
    Store.node_added hid
  refine ⟨?_, hjoined, fun ts hts t ht => ?_, fun t ht context' m hm => ?_, listingOk_meet hpart _ _,
    fun _ _ => membersOf?_part hpart choice⟩
  · rw [NodeOk, Chart.put_self]
    refine ⟨context, _, types, hpart, hparts.mono (extends_added s c _ _), hbelow, ?_⟩
    simp only [Crosses, Store.chosen_congr h.descends hsame hbelow choice, Store.joined_congr hsame hleft,
      Store.anyUnion_congr fun t ht => hsame t (hjoined t ht), hnone, Bool.false_eq_true, if_false]
    rw [Store.node_added_self, Store.texts_congr fun t ht => hsame t (hjoined t ht)]
    rfl
  · cases hts
    refine ⟨?_, intersectionMembers?_of_mem_joined h.layered ht⟩
    rw [Store.anyUnion, List.any_eq_false] at hnone
    exact Bool.eq_false_iff.2 (hnone t ht)
  · -- a joined type is left to intersect or a member of one that is
    have hfound : ∃ u ∈ s.chosen types choice, p.OriginHas (c.types u.index) context' m := by
      rcases Store.mem_opened (fun _ _ => Shape.intersectionMembers?_eq) ht with ⟨ht, _⟩ | ⟨u, hu, ht, _⟩
      · exact ⟨t, ht, hm⟩
      · exact ⟨u, hu, h.has u (hleft u hu) t ht context' m hm⟩
    obtain ⟨u, hu, hm⟩ := hfound
    obtain ⟨v, hv, hm⟩ := chosen_has h hbelow hu hm
    obtain ⟨part, hmem, hm⟩ := PartsDenote.has h hpart hparts hv hm
    exact ⟨context, _, hpart, .intersection hmem hm⟩

/-- The variants, one for each choice, are united. -/
theorem fits_variants (h : p.Charted s c)
    (hpart : p.partType? root steps = some (context, .intersection members text))
    (hparts : p.PartsDenote s c root steps context members types) (choice : List Nat)
    (hunion : s.anyUnion (s.joined (s.chosen types choice)) = true) {variants : List TypeId}
    (hlength : variants.length = (choices (s.options (s.chosen types choice))).length)
    (heach : ∀ (i : Nat) (t : TypeId), variants[i]? = some t →
      t.index < s.types.size ∧ c.types t.index = .part root steps (choice ++ [i])) :
    p.Fits s c (meetCell (.union variants) (s.texts " | " variants)) (.part root steps choice) := by
  have hbelow : Store.Below s.types.size types := PartsDenote.below h hparts
  have hleft := hbelow.chosen h.descends (Nat.le_refl _) choice
  have hjoined := hleft.joined h.descends (Nat.le_refl _)
  have hvariants : Store.Below s.types.size variants := by
    intro t ht
    obtain ⟨i, hi⟩ := List.getElem?_of_mem ht
    exact (heach i t hi).1
  have hsame {cell : TypeCell} (id : TypeId) (hid : id.index < s.types.size) : (s.added cell).node id = s.node id :=
    Store.node_added hid
  refine ⟨?_, hvariants, (fun ts hts => by cases hts), fun t ht context' m hm => ?_, listingOk_meet hpart _ _,
    fun _ _ => membersOf?_part hpart choice⟩
  · rw [NodeOk, Chart.put_self]
    refine ⟨context, _, types, hpart, hparts.mono (extends_added s c _ _), hbelow, ?_⟩
    simp only [Crosses, Store.chosen_congr h.descends hsame hbelow choice, Store.joined_congr hsame hleft,
      Store.anyUnion_congr fun t ht => hsame t (hjoined t ht), hunion, if_true]
    refine ⟨variants, ?_, ?_, fun i t ht => ⟨(heach i t ht).1, ?_⟩⟩
    · rw [Store.node_added_self, Store.texts_congr fun t ht => hsame t (hvariants t ht)]
      rfl
    · rw [hlength, Store.options_congr h.descends hsame hleft]
    · rw [Chart.put_of_lt _ (heach i t ht).1, (heach i t ht).2]
  · obtain ⟨i, hi⟩ := List.getElem?_of_mem ht
    rw [(heach i t hi).2] at hm
    exact hm

/-! ## All choices -/

/-- The node is made for a further choice, the `k`-th one or one behind it. -/
def ChosenFrom (root : Root) (steps choice : List Nat) (k : Nat) (o : Origin) : Prop :=
  ∃ i more, k ≤ i ∧ o = .part root steps (choice ++ i :: more)

/-- The node is made for the choice or for a further one. -/
def Chosen (root : Root) (steps choice : List Nat) (o : Origin) : Prop :=
  ∃ more, o = .part root steps (choice ++ more)

theorem Chosen.under {o : Origin} (h : Chosen root steps choice o) : o.Under root steps := by
  obtain ⟨more, rfl⟩ := h
  exact ⟨[], _, rfl⟩

theorem ChosenFrom.chosen {k : Nat} {o : Origin} (h : ChosenFrom root steps choice k o) :
    Chosen root steps choice o := by
  obtain ⟨i, more, _, rfl⟩ := h
  exact ⟨i :: more, rfl⟩

theorem ChosenFrom.ne {k : Nat} {o : Origin} (h : ChosenFrom root steps choice k o) :
    o ≠ .part root steps choice := by
  obtain ⟨i, more, _, rfl⟩ := h
  intro heq
  simp at heq

/-- Intersecting what is left after some choices makes a node for them. -/
def Meets (p : Project) (closed : List DeclarationId) (root : Root) (steps : List Nat) (context : Context)
    (members : List TypeExpr) (types : List TypeId) (n : Nat) : Prop :=
  ∀ s c choice, p.Charted s c → p.Ready closed s root → p.PartsDenote s c root steps context members types →
    UnionsBelow s n (s.chosen types choice) →
    ∃ c', p.Adds closed (Chosen root steps choice) s (makeIntersection (n + 1) (s.chosen types choice) s).2 c c' ∧
      (makeIntersection (n + 1) (s.chosen types choice) s).1.index <
        (makeIntersection (n + 1) (s.chosen types choice) s).2.types.size ∧
      c'.types (makeIntersection (n + 1) (s.chosen types choice) s).1.index = .part root steps choice

theorem meets_all {n : Nat} (hmeets : p.Meets closed root steps context members types n) {lists : List (List TypeId)}
    {k : Nat} (h : p.Charted s c) (hready : p.Ready closed s root)
    (hparts : p.PartsDenote s c root steps context members types)
    (hlists : ∀ (i : Nat) (ts : List TypeId), lists[i]? = some ts → s.chosen types (choice ++ [k + i]) = ts)
    (hunions : ∀ ts ∈ lists, UnionsBelow s n ts) :
    ∃ c', p.Adds closed (ChosenFrom root steps choice k) s (lists.mapM (makeIntersection (n + 1)) s).2 c c' ∧
      (lists.mapM (makeIntersection (n + 1)) s).1.length = lists.length ∧
      ∀ (i : Nat) (t : TypeId), (lists.mapM (makeIntersection (n + 1)) s).1[i]? = some t →
        t.index < (lists.mapM (makeIntersection (n + 1)) s).2.types.size ∧
          c'.types t.index = .part root steps (choice ++ [k + i]) := by
  -- by induction on the lists; the choice that leads to each is counted from `k` on
  induction lists generalizing s c k with
  | nil => exact ⟨c, .refl h, rfl, fun i t hi => by cases hi⟩
  | cons ts lists ih =>
    have hbelow : Store.Below s.types.size types := PartsDenote.below h hparts
    have hts : s.chosen types (choice ++ [k]) = ts := hlists 0 ts rfl
    obtain ⟨c₁, hone, hlt, horigin⟩ := hmeets s c (choice ++ [k]) h hready hparts
      (by rw [hts]; exact hunions ts List.mem_cons_self)
    rw [hts] at hone hlt horigin
    have hafter := hready.after hone
    have hleft (choice : List Nat) := Store.chosen_congr h.descends hone.node hbelow choice
    obtain ⟨c₂, hothers, hlength, heach⟩ := ih (k := k + 1) hone.charted hafter (hparts.mono hone.toExtends)
      (fun i us hi => by
        rw [hleft, show k + 1 + i = k + (i + 1) by omega]
        exact hlists (i + 1) us hi)
      (fun us hus t ht hunion => by
        obtain ⟨i, hi⟩ := List.getElem?_of_mem hus
        have hlt := hbelow.chosen h.descends (Nat.le_refl _) (choice ++ [k + (i + 1)])
        rw [hlists (i + 1) us hi] at hlt
        rw [hone.node t (hlt t ht)] at hunion
        exact hunions us (List.mem_cons_of_mem _ hus) t ht hunion)
    rw [mapM_cons]
    refine ⟨c₂, (hone.trans hothers ?_ ?_).mono ?_, by rw [List.length_cons, hlength, List.length_cons], ?_⟩
    · rintro o ⟨more, rfl⟩ ⟨i, more', hi, heq⟩
      simp at heq
      omega
    · rintro o d (ho | ho) hd
      · exact (hafter.after hothers).not_declared ho.under hd
      · exact (hafter.after hothers).not_declared ho.chosen.under hd
    · rintro o (⟨more, rfl⟩ | ⟨i, more, hi, rfl⟩)
      · exact ⟨k, more, Nat.le_refl k, by simp⟩
      · exact ⟨i, more, Nat.le_of_succ_le hi, rfl⟩
    · intro i t ht
      cases i with
      | zero =>
        cases ht
        exact ⟨Nat.lt_of_lt_of_le hlt hothers.size, by rw [hothers.origin _ hlt, horigin]; rfl⟩
      | succ i =>
        have := heach i t ht
        rwa [show k + 1 + i = k + (i + 1) by omega] at this

/-- One node after those of the choices. -/
theorem meets_one {k : Nat} {cell : TypeCell} (hready : p.Ready closed s root)
    (hadds : p.Adds closed (ChosenFrom root steps choice k) s s' c c')
    (hfits : p.Fits s' c' cell (.part root steps choice)) :
    ∃ c'', p.Adds closed (Chosen root steps choice) s (s'.added cell) c c'' ∧
      s'.types.size < (s'.added cell).types.size ∧ c''.types s'.types.size = .part root steps choice := by
  have hone := Adds.one closed hadds.charted hfits
  have hafter := (hready.after hadds).after hone
  refine ⟨_, (hadds.trans hone (fun o ho heq => ho.ne heq) ?_).mono ?_, by simp, Chart.put_self _ _ _⟩
  · rintro o d (ho | rfl) hd
    · exact hafter.not_declared ho.chosen.under hd
    · exact hafter.not_declared (under_self root steps choice) hd
  · rintro o (ho | rfl)
    · exact ho.chosen
    · exact ⟨[], by rw [List.append_nil]⟩

theorem meets (hpart : p.partType? root steps = some (context, .intersection members text)) (n : Nat) :
    p.Meets closed root steps context members types n := by
  induction n with
  | zero =>
    intro s c choice h hready hparts hunions
    have hnone : s.anyUnion (s.joined (s.chosen types choice)) = false := by
      rw [Store.anyUnion, List.any_eq_false]
      intro t ht hunion
      exact Nat.not_lt_zero _ (hunions t (isUnion_of_mem_joined h.layered ht hunion) hunion)
    rw [makeIntersection_succ, hnone, if_neg Bool.false_ne_true]
    exact meets_one (k := 0) hready (.refl h) (fits_intersection h hpart hparts choice hnone)
  | succ n ih =>
    intro s c choice h hready hparts hunions
    rw [makeIntersection_succ]
    cases hunion : s.anyUnion (s.joined (s.chosen types choice)) with
    | false =>
      rw [if_neg Bool.false_ne_true]
      exact meets_one (k := 0) hready (.refl h) (fits_intersection h hpart hparts choice hunion)
    | true =>
      have hbelow : Store.Below s.types.size types := PartsDenote.below h hparts
      have hleft := hbelow.chosen h.descends (Nat.le_refl _) choice
      have hlists (i : Nat) (ts : List TypeId) (hi : (choices (s.options (s.chosen types choice)))[i]? = some ts) :
          s.chosen types (choice ++ [0 + i]) = ts := by
        rw [chosen_concat, Nat.zero_add, hi]
        rfl
      -- each combination chooses one more level, with fewer unions below it
      obtain ⟨c₁, hadds, hlength, heach⟩ := meets_all ih h hready hparts hlists (fun ts hts => by
        obtain ⟨i, hi⟩ := List.getElem?_of_mem hts
        have := hunions.choose h.layered hleft i
        rwa [hi] at this)
      have hsame := Store.chosen_congr h.descends hadds.node hbelow choice
      have hjoined := hleft.joined h.descends (Nat.le_refl _)
      rw [if_pos rfl]
      refine meets_one hready hadds
        (fits_variants hadds.charted hpart (hparts.mono hadds.toExtends) choice ?_ ?_ fun i t ht => ?_)
      · rw [hsame, Store.joined_congr hadds.node hleft, Store.anyUnion_congr fun t ht => hadds.node t (hjoined t ht),
          hunion]
      · rw [hlength, hsame, Store.options_congr h.descends hadds.node hleft]
      · have := heach i t ht
        rwa [Nat.zero_add] at this

/-- The node of an intersection, when its members have types. -/
theorem adds_intersection (hready : p.Ready closed s root)
    (hpart : p.partType? root steps = some (context, .intersection members text))
    (hadds : p.Adds closed (Origin.UnderFrom root steps 0) s s' c c')
    (hparts : p.PartsDenote s' c' root steps context members types) :
    ∃ c'', p.Adds closed (Origin.Under root steps) s (intersect types s').2 c c'' ∧
      p.Denotes (intersect types s').2 c'' root steps context (.intersection members text) (intersect types s').1 := by
  have hafter := hready.after hadds
  have hbelow : Store.Below s'.types.size types := PartsDenote.below hadds.charted hparts
  have hstep : p.Meets closed root steps context members types s'.types.size := meets hpart _
  obtain ⟨c₂, hmeets, hlt, horigin⟩ := hstep s' c' [] hadds.charted hafter hparts (fun t ht _ => hbelow t ht)
  refine ⟨c₂, (hadds.trans hmeets ?_ ?_).mono ?_, .own (fun d hd => by cases hd) hlt horigin⟩
  · rintro o ho ⟨more, heq⟩
    exact ho.ne _ heq
  · rintro o d (ho | ho) hd
    · exact (hafter.after hmeets).not_declared ho.under hd
    · exact (hafter.after hmeets).not_declared ho.under hd
  · rintro o (ho | ho)
    · exact ho.under
    · exact ho.under

end

end Project

end WireSchema

/-!
## How deep an intersection is distributed

Each choice goes from a union to an earlier node, so distributing an intersection
ends after as many choices as there are nodes. The bound that `intersect` sets is
as good as any greater one.
-/

namespace WireSchema

namespace Store

/-- The nodes are there still. -/
structure Grown (s s' : Store) : Prop where
  size : s.types.size ≤ s'.types.size
  node : ∀ id : TypeId, id.index < s.types.size → s'.node id = s.node id

variable {s s' s'' : Store} {cell : TypeCell}

theorem Grown.refl (s : Store) : Grown s s := ⟨Nat.le_refl _, fun _ _ => rfl⟩

theorem Grown.trans (h : Grown s s') (h' : Grown s' s'') : Grown s s'' where
  size := Nat.le_trans h.size h'.size
  node id hid := by rw [h'.node id (Nat.lt_of_lt_of_le hid h.size), h.node id hid]

theorem grown_added (s : Store) (cell : TypeCell) : Grown s (s.added cell) := ⟨by simp, fun _ hid => node_added hid⟩

theorem Below.mono {types : List TypeId} (h : Below s.types.size types) (hgrown : Grown s s') :
    Below s'.types.size types := fun t ht => Nat.lt_of_lt_of_le (h t ht) hgrown.size

theorem Layered.added (h : s.Layered) (hbelow : Below s.types.size cell.node.members)
    (hjoined : ∀ ts, Shape.intersectionMembers? cell.node = some ts →
      ∀ t ∈ ts, (s.node t).isUnion = false ∧ Shape.intersectionMembers? (s.node t) = none) : (s.added cell).Layered := by
  refine ⟨fun id hid t ht => ?_, fun id ts hts t ht => ?_⟩
  · rcases Project.lt_or_eq_of_lt_added hid with hid | rfl
    · rw [node_added hid] at ht
      exact h.below id hid t ht
    · rw [node_added_self] at ht
      exact hbelow t ht
  · by_cases hid : id.index < (s.added cell).types.size
    · rcases Project.lt_or_eq_of_lt_added hid with hid | rfl
      · rw [node_added hid] at hts
        have hlt := Nat.lt_trans (h.below id hid t (by rw [Shape.intersectionMembers?_eq hts]; exact ht)) hid
        rw [node_added hlt]
        exact h.joined id ts hts t ht
      · rw [node_added_self] at hts
        rw [node_added (hbelow t (by rw [Shape.intersectionMembers?_eq hts]; exact ht))]
        exact hjoined ts hts t ht
    · rw [node_of_size_le (Nat.le_of_not_lt hid)] at hts
      cases hts

end Store

namespace Project

open Resolving Store

variable {s : Store} {types : List TypeId} {n m : Nat}

theorem UnionsBelow.mono (h : UnionsBelow s n types) (hbelow : Below s.types.size types) {s' : Store}
    (hgrown : Grown s s') : UnionsBelow s' n types := by
  intro t ht hunion
  rw [hgrown.node t (hbelow t ht)] at hunion
  exact h t ht hunion

/-- The types are intersected behind all nodes that are there, and a greater bound
would not matter. -/
structure Ends (n : Nat) (s : Store) (types : List TypeId) : Prop where
  enough : ∀ m, n ≤ m → makeIntersection (m + 1) types s = makeIntersection (n + 1) types s
  layered : (makeIntersection (n + 1) types s).2.Layered
  grown : Grown s (makeIntersection (n + 1) types s).2
  lt : (makeIntersection (n + 1) types s).1.index < (makeIntersection (n + 1) types s).2.types.size

/-- Several intersections, one after the other. -/
theorem ends_all {lists : List (List TypeId)} (hs : s.Layered)
    (h : ∀ ts ∈ lists, ∀ s', Grown s s' → s'.Layered → Ends n s' ts) :
    let made := lists.mapM (makeIntersection (n + 1)) s
    (∀ m, n ≤ m → lists.mapM (makeIntersection (m + 1)) s = made) ∧ made.2.Layered ∧ Grown s made.2 ∧
      Below made.2.types.size made.1 := by
  induction lists generalizing s with
  | nil => exact ⟨fun _ _ => rfl, hs, .refl s, fun t ht => by cases ht⟩
  | cons ts lists ih =>
    have hone := h ts List.mem_cons_self s (.refl s) hs
    obtain ⟨henough, hlayered, hgrown, hbelow⟩ := ih hone.layered fun us hus s' hgrown' =>
      h us (List.mem_cons_of_mem ts hus) s' (hone.grown.trans hgrown')
    simp only [mapM_cons]
    refine ⟨fun m hm => ?_, hlayered, hone.grown.trans hgrown, List.forall_mem_cons.2 ⟨?_, hbelow⟩⟩
    · rw [hone.enough m hm, henough m hm]
    · exact Nat.lt_of_lt_of_le hone.lt hgrown.size

/-- Where nothing is left to be chosen. -/
theorem ends_joined (hs : s.Layered) (hbelow : Below s.types.size types) (hnone : s.anyUnion (s.joined types) = false) :
    Ends n s types := by
  have hrun (m : Nat) : makeIntersection (m + 1) types s =
      (⟨s.types.size⟩, s.added (meetCell (.intersection (s.joined types)) (s.texts " & " (s.joined types)))) := by
    rw [makeIntersection_succ, hnone, if_neg Bool.false_ne_true]
    rfl
  refine ⟨fun m _ => by rw [hrun, hrun], ?_, ?_, ?_⟩
  · rw [hrun]
    refine hs.added (hbelow.joined hs.below (Nat.le_refl _)) fun ts hts t ht => ?_
    cases hts
    rw [anyUnion, List.any_eq_false] at hnone
    exact ⟨Bool.eq_false_iff.2 (hnone t ht), intersectionMembers?_of_mem_joined hs ht⟩
  · rw [hrun]
    exact grown_added s _
  · rw [hrun]
    simp

/-- A bound above the unions among the types is enough. -/
theorem ends (n : Nat) (hs : s.Layered) (hbelow : Below s.types.size types) (hunions : UnionsBelow s n types) :
    Ends n s types := by
  induction n generalizing s types with
  | zero =>
    refine ends_joined hs hbelow ?_
    rw [anyUnion, List.any_eq_false]
    intro t ht hunion
    exact Nat.not_lt_zero _ (hunions t (isUnion_of_mem_joined hs ht hunion) hunion)
  | succ n ih =>
    cases hunion : s.anyUnion (s.joined types) with
    | false => exact ends_joined hs hbelow hunion
    | true =>
      -- a choice leaves one union less, also in the store that has grown meanwhile
      have hchoices (ts : List TypeId) (hts : ts ∈ choices (s.options types)) (s' : Store) (hgrown : Grown s s')
          (hs' : s'.Layered) : Ends n s' ts := by
        obtain ⟨i, hi⟩ := List.getElem?_of_mem hts
        have hleft := hunions.choose hs hbelow i
        have hlt := hbelow.chosen hs.below (Nat.le_refl _) [i]
        simp only [Store.chosen, hi, Option.getD_some] at hleft hlt
        exact ih hs' (hlt.mono hgrown) (hleft.mono hlt hgrown)
      obtain ⟨henough, hlayered, hgrown, hvariants⟩ := ends_all hs hchoices
      have hrun (m : Nat) (hm : n ≤ m) : makeIntersection (m + 2) types s =
          let made := (choices (s.options types)).mapM (makeIntersection (n + 1)) s
          (⟨made.2.types.size⟩, made.2.added (meetCell (.union made.1) (made.2.texts " | " made.1))) := by
        rw [makeIntersection_succ, hunion, if_pos rfl, henough m hm]
        rfl
      refine ⟨fun m hm => ?_, ?_, ?_, ?_⟩
      · obtain ⟨m, rfl⟩ : ∃ k, m = k + 1 := ⟨m - 1, by omega⟩
        rw [hrun m (Nat.le_of_succ_le_succ hm), hrun n (Nat.le_refl n)]
      · rw [hrun n (Nat.le_refl n)]
        exact hlayered.added hvariants fun ts hts => by cases hts
      · rw [hrun n (Nat.le_refl n)]
        exact hgrown.trans (grown_added _ _)
      · rw [hrun n (Nat.le_refl n)]
        simp

/-- The bound on the choices is never reached. -/
theorem makeIntersection_eq_intersect (hs : s.Layered) (hbelow : Below s.types.size types) (h : s.types.size < n) :
    makeIntersection n types s = intersect types s := by
  obtain ⟨m, rfl⟩ : ∃ m, n = m + 1 := ⟨n - 1, by omega⟩
  exact (ends s.types.size hs hbelow fun t ht _ => hbelow t ht).enough m (Nat.le_of_lt_succ h)

end Project

end WireSchema
