import WireSchema.Proofs.Project.Inherited
/-!
# Tidy stores

No two nodes of a tidy store are made for the same thing, and no two properties
for the same member. Nodes are there only for what has been asked for: those of
a declaration since it has its type, those of a member since its type is found,
properties since their owner is listed. All steps keep a store tidy, as long as
no interface inherits from itself.
-/

namespace WireSchema

namespace Project

open Resolving

variable {p : Project} {busy : Origin → Prop} {s s' s'' : Store} {c c' c'' : Chart}

/-! ## Stores that grow -/

/-- The later store knows all that was known, and none of its new nodes belongs to
a declaration that had its type before. -/
structure Grows (s s' : Store) (c c' : Chart) : Prop extends Later s s' c c' where
  fresh : ∀ (t : TypeId) (d : DeclarationId), s.types.size ≤ t.index → t.index < s'.types.size →
    (c'.types t.index).Of d → s.declared? d = none

theorem Later.grows (h : Later s s' c c') (hsize : s'.types.size = s.types.size) : Grows s s' c c' where
  toLater := h
  fresh t _ ht hlt := absurd hlt (by omega)

theorem declared?_eq_none_of_later (h : Later s s' c c') {d : DeclarationId} (hnone : s'.declared? d = none) :
    s.declared? d = none := by
  cases hd : s.declared? d with
  | none => rfl
  | some id =>
    rw [h.declared d id hd] at hnone
    cases hnone

namespace Grows

theorem refl (s : Store) (c : Chart) : Grows s s c c := (Later.refl s c).grows rfl

theorem trans (h : Grows s s' c c') (h' : Grows s' s'' c' c'') : Grows s s'' c c'' where
  toLater := h.toLater.trans h'.toLater
  fresh t d ht hlt hd := by
    by_cases hmid : t.index < s'.types.size
    · rw [h'.origin _ hmid] at hd
      exact h.fresh t d ht hmid hd
    · exact declared?_eq_none_of_later h.toLater (h'.fresh t d (Nat.le_of_not_lt hmid) hlt hd)

end Grows

theorem Adds.grows {closed : List DeclarationId} {mine : Origin → Prop} (h : p.Adds closed mine s s' c c')
    (hmine : ∀ o d, mine o → ¬ o.Of d) : Grows s s' c c' where
  toLater := h.later
  fresh t d ht hlt hd := by
    rcases h.fresh t.index ht hlt with hown | ⟨d', hd', hnone, _⟩
    · exact absurd hd (hmine _ d hown)
    · rw [hd.unique hd']
      exact hnone

/-! ## Tidy stores -/

/-- The properties of what the node is made for are found. -/
def HasListing (s : Store) (c : Chart) (o : Origin) : Prop :=
  ∃ (t : TypeId) (ids : List PropertyId), t.index < s.types.size ∧ c.types t.index = o ∧
    (s.cell t).properties = .listed ids

/-- The type of the member is found. -/
def HasType (s : Store) (c : Chart) (owner : Origin) (k : Nat) : Prop :=
  ∃ (q : PropertyId) (r : Property Resolution) (t : TypeId), c.properties q.index = (owner, k) ∧
    s.property? q = some r ∧ r.type = .done t

/-- The properties of what the node is made for are still to be found. -/
def Waits (s : Store) (c : Chart) (o : Origin) : Prop :=
  ∃ t : TypeId, t.index < s.types.size ∧ c.types t.index = o ∧ ∀ ids, (s.cell t).properties ≠ .listed ids

theorem HasListing.mono (h : Later s s' c c') {o : Origin} (ho : HasListing s c o) : HasListing s' c' o := by
  obtain ⟨t, ids, ht, horigin, hlisted⟩ := ho
  exact ⟨t, ids, Nat.lt_of_lt_of_le ht h.size, by rw [h.origin _ ht, horigin], h.listed t ids ht hlisted⟩

theorem HasType.mono (h : Later s s' c c') {owner : Origin} {k : Nat} (ho : HasType s c owner k) :
    HasType s' c' owner k := by
  obtain ⟨q, r, t, hplace, hr, hdone⟩ := ho
  obtain ⟨r', hr', hkept⟩ := h.record q r hr
  have hq : q.index < s.properties.size := (Array.getElem?_eq_some_iff.1 hr).1
  exact ⟨q, _, t, by rw [h.place _ hq, hplace], hr', hkept t hdone⟩

/-- The store is tidy, the properties of the `busy` being made. -/
structure Tidy (p : Project) (busy : Origin → Prop) (s : Store) (c : Chart) : Prop extends p.Charted s c where
  /-- Nodes are made for different things. -/
  unique : ∀ t u : TypeId, t.index < s.types.size → u.index < s.types.size →
    c.types t.index = c.types u.index → t = u
  /-- A declaration with nodes has its type. -/
  owned : ∀ (t : TypeId) (d : DeclarationId), t.index < s.types.size → (c.types t.index).Of d → (s.declared? d).isSome
  /-- A member with nodes has its type. -/
  found : ∀ (t : TypeId) (owner : Origin) (k : Nat) (steps choice : List Nat), t.index < s.types.size →
    c.types t.index = .part (.member owner k) steps choice → HasType s c owner k
  /-- Properties are made for different members. -/
  once : ∀ q q' : PropertyId, q.index < s.properties.size → q'.index < s.properties.size →
    c.properties q.index = c.properties q'.index → q = q'
  /-- What has properties is listed. -/
  held : ∀ q : PropertyId, q.index < s.properties.size →
    HasListing s c (c.properties q.index).1 ∨ busy (c.properties q.index).1
  /-- What is busy is not listed. -/
  waiting : ∀ o, busy o → Waits s c o
  /-- Interfaces are listed with what they inherit. -/
  inherited : ∀ (t : TypeId) (d : DeclarationId) (ids : List PropertyId), t.index < s.types.size →
    c.types t.index = .declaration d → (s.cell t).properties = .listed ids → p.InterfaceListed s c d ids

theorem cell_congr (h : s'.types = s.types) (t : TypeId) : s'.cell t = s.cell t := by
  rw [Store.cell, Store.cell, h]

theorem declared?_congr (h : s'.declared = s.declared) (d : DeclarationId) : s'.declared? d = s.declared? d := by
  rw [Store.declared?, Store.declared?, h]

/-- Nodes that are made for themselves and for declarations, before other steps
that make none. -/
theorem Tidy.made (h : p.Tidy busy s c) {closed : List DeclarationId} {mine : Origin → Prop}
    (hadds : p.Adds closed mine s s' c c') (hmine : ∀ o d, mine o → ¬ o.Of d)
    (hnew : ∀ t : TypeId, t.index < s.types.size → ¬ mine (c.types t.index)) (hcharted : p.Charted s'' c')
    (hlater : Later s' s'' c' c') (htypes : s''.types = s'.types) (hdeclared : s''.declared = s'.declared)
    (hcount : s''.properties.size = s'.properties.size)
    (hfound : ∀ owner k steps choice, mine (.part (.member owner k) steps choice) → HasType s'' c' owner k) :
    p.Tidy busy s'' c' := by
  have hall : Later s s'' c c' := hadds.later.trans hlater
  -- an old node is made for something else than a new one
  have hother (t u : TypeId) (ht : t.index < s.types.size) (hu : s.types.size ≤ u.index) (hlt : u.index < s'.types.size) :
      c'.types t.index ≠ c'.types u.index := by
    intro heq
    rw [hadds.origin _ ht] at heq
    rcases hadds.fresh u.index hu hlt with hown | ⟨d, hd, hnone, _⟩
    · rw [← heq] at hown
      exact hnew t ht hown
    · rw [← heq] at hd
      have hsome := h.owned t d ht hd
      rw [hnone] at hsome
      cases hsome
  refine ⟨hcharted, fun t u ht hu heq => ?unique, fun t d ht hd => ?owned, fun t owner k steps choice ht horigin => ?found,
    fun q q' hq hq' heq => ?once, fun q hq => ?held, fun o ho => ?waiting, fun t d ids ht horigin hlisted => ?inherited⟩
  case unique =>
    rw [htypes] at ht hu
    by_cases ht' : t.index < s.types.size
    · by_cases hu' : u.index < s.types.size
      · rw [hadds.origin _ ht', hadds.origin _ hu'] at heq
        exact h.unique t u ht' hu' heq
      · exact absurd heq (hother t u ht' (Nat.le_of_not_lt hu') hu)
    · by_cases hu' : u.index < s.types.size
      · exact absurd heq.symm (hother u t hu' (Nat.le_of_not_lt ht') ht)
      · exact congrArg TypeId.mk
          (hadds.distinct _ _ (Nat.le_of_not_lt ht') ht (Nat.le_of_not_lt hu') hu heq)
  case owned =>
    rw [htypes] at ht
    rw [declared?_congr hdeclared]
    by_cases ht' : t.index < s.types.size
    · rw [hadds.origin _ ht'] at hd
      exact Adds.isSome_of_isSome hadds.toExtends (h.owned t d ht' hd)
    · rcases hadds.fresh t.index (Nat.le_of_not_lt ht') ht with hown | ⟨d', hd', _, hsome⟩
      · exact absurd hd (hmine _ d hown)
      · rw [hd.unique hd']
        exact hsome
  case found =>
    rw [htypes] at ht
    by_cases ht' : t.index < s.types.size
    · rw [hadds.origin _ ht'] at horigin
      exact (h.found t owner k steps choice ht' horigin).mono hall
    · rcases hadds.fresh t.index (Nat.le_of_not_lt ht') ht with hown | ⟨d, hd, _⟩
      · rw [horigin] at hown
        exact hfound owner k steps choice hown
      · rw [horigin] at hd
        exact hd.elim
  case once =>
    rw [hcount, hadds.properties] at hq hq'
    rw [hadds.places] at heq
    exact h.once q q' hq hq' heq
  case held =>
    rw [hcount, hadds.properties] at hq
    rw [hadds.places]
    exact (h.held q hq).imp (fun ho => ho.mono hall) id
  case waiting =>
    obtain ⟨t, ht, horigin, hpending⟩ := h.waiting o ho
    refine ⟨t, Nat.lt_of_lt_of_le ht hall.size, by rw [hadds.origin _ ht, horigin], fun ids => ?_⟩
    rw [cell_congr htypes, hadds.cells t ht]
    exact hpending ids
  case inherited =>
    rw [htypes] at ht
    rw [cell_congr htypes] at hlisted
    by_cases ht' : t.index < s.types.size
    · rw [hadds.origin _ ht'] at horigin
      rw [hadds.cells t ht'] at hlisted
      exact (h.inherited t d ids ht' horigin hlisted).mono h.toCharted hall
    · have hmembers := hadds.unlisted t (Nat.le_of_not_lt ht') ht ids hlisted
      intro parameters bases members hbody
      rw [horigin, membersOf?, hbody] at hmembers
      cases hmembers

/-! ## Steps one after the other -/

/-- A step keeps the store tidy and leads to a result as described. -/
def Tidily {α : Type} (p : Project) (busy : Origin → Prop) (s : Store) (c : Chart) (made : α × Store)
    (post : α → Store → Chart → Prop) : Prop :=
  ∃ c', p.Tidy busy made.2 c' ∧ Grows s made.2 c c' ∧ post made.1 made.2 c'

section
variable {α β : Type} {post : α → Store → Chart → Prop}

theorem Tidily.pure (h : p.Tidy busy s c) {a : α} (ha : post a s c) :
    p.Tidily busy s c ((Pure.pure a : Resolving α) s) post :=
  ⟨c, h, .refl s c, ha⟩

theorem Tidily.bind {x : Resolving α} {f : α → Resolving β} {post' : β → Store → Chart → Prop}
    (h : p.Tidily busy s c (x s) post)
    (hf : ∀ a s' c', p.Tidy busy s' c' → Grows s s' c c' → post a s' c' → p.Tidily busy s' c' (f a s') post') :
    p.Tidily busy s c ((x >>= f) s) post' := by
  obtain ⟨c₁, htidy, hgrows, ha⟩ := h
  obtain ⟨c₂, htidy₂, hgrows₂, hb⟩ := hf _ _ _ htidy hgrows ha
  exact ⟨c₂, htidy₂, hgrows.trans hgrows₂, hb⟩

theorem Tidily.mono {made : α × Store} {post' : α → Store → Chart → Prop} (h : p.Tidily busy s c made post)
    (hpost : ∀ a s' c', p.Tidy busy s' c' → Grows s s' c c' → post a s' c' → post' a s' c') :
    p.Tidily busy s c made post' := by
  obtain ⟨c', htidy, hgrows, ha⟩ := h
  exact ⟨c', htidy, hgrows, hpost _ _ _ htidy hgrows ha⟩

theorem Tidily.mapM {f : α → Resolving β} (result : α → β → Store → Chart → Prop)
    (hkeep : ∀ a b s s' c c', p.Charted s c → Later s s' c c' → result a b s c → result a b s' c') {as : List α}
    (h : p.Tidy busy s c)
    (hstep : ∀ a ∈ as, ∀ s' c', p.Tidy busy s' c' → Grows s s' c c' → p.Tidily busy s' c' (f a s') (result a)) :
    p.Tidily busy s c (as.mapM f s) fun bs s' c' => bs.length = as.length ∧
      ∀ (i : Nat) (a : α) (b : β), as[i]? = some a → bs[i]? = some b → result a b s' c' := by
  induction as generalizing s c with
  | nil => exact ⟨c, h, .refl s c, rfl, fun i a b ha => by cases ha⟩
  | cons a as ih =>
    obtain ⟨c₁, htidy, hgrows, hb⟩ := hstep a List.mem_cons_self s c h (.refl s c)
    obtain ⟨c₂, htidy₂, hgrows₂, hlength, heach⟩ := ih htidy fun a' ha' s' c' h' hgrows' =>
      hstep a' (List.mem_cons_of_mem a ha') s' c' h' (hgrows.trans hgrows')
    rw [mapM_cons]
    refine ⟨c₂, htidy₂, hgrows.trans hgrows₂, by rw [List.length_cons, hlength, List.length_cons], ?_⟩
    intro i a' b' ha' hb'
    cases i with
    | zero =>
      cases ha'
      cases hb'
      exact hkeep _ _ _ _ _ _ htidy.toCharted hgrows₂.toLater hb
    | succ i => exact heach i a' b' ha' hb'

end

/-! ## Types -/

theorem tidy_empty (p : Project) (busy : Origin → Prop) (hbusy : ∀ o, ¬ busy o) (c : Chart) : p.Tidy busy {} c where
  nodes id hid := absurd hid (Nat.not_lt_zero _)
  below id hid := absurd hid (Nat.not_lt_zero _)
  joined id ts hts := by cases hts
  has id hid := absurd hid (Nat.not_lt_zero _)
  entries := trivial
  listings id hid := absurd hid (Nat.not_lt_zero _)
  properties q hq := absurd hq (Nat.not_lt_zero _)
  unique t u ht := absurd ht (Nat.not_lt_zero _)
  owned t d ht := absurd ht (Nat.not_lt_zero _)
  found t owner k steps choice ht := absurd ht (Nat.not_lt_zero _)
  once q q' hq := absurd hq (Nat.not_lt_zero _)
  held q hq := absurd hq (Nat.not_lt_zero _)
  waiting o ho := absurd ho (hbusy o)
  inherited t d ids ht := absurd ht (Nat.not_lt_zero _)

theorem Tidy.events (h : p.Tidy busy s c) (events : List Event) : p.Tidy busy { s with events } c :=
  h.made (adds_events [] (fun _ => False) h.toCharted events) (fun _ _ hfalse => hfalse.elim) (fun _ _ => id)
    (adds_events [] (fun _ => False) h.toCharted events).charted (.refl _ c) rfl rfl rfl
    fun _ _ _ _ hfalse => hfalse.elim

theorem report_tidy (h : p.Tidy busy s c) (event : Event) : p.Tidily busy s c (report event s) fun _ _ _ => True :=
  ⟨c, h.events _, (adds_events [] (fun _ => False) h.toCharted _).grows fun _ _ hfalse => hfalse.elim, trivial⟩

/-- A declaration gets its type. -/
theorem declarationType_tidy (h : p.Tidy busy s c) {d : DeclarationId}
    (hvalid : ∃ declaration, p.declaration? d = some declaration) :
    p.Tidily busy s c (p.declarationType d s) fun t s' _ => s'.declared? d = some t := by
  obtain ⟨c', hadds, hdeclared⟩ := declarationType_ok h.toCharted hvalid
  refine ⟨c', ?_, hadds.grows fun _ _ hfalse => hfalse.elim, hdeclared⟩
  exact h.made hadds (fun _ _ hfalse => hfalse.elim) (fun _ _ => id) hadds.charted (.refl _ c') rfl rfl rfl
    fun _ _ _ _ hfalse => hfalse.elim

/-- A property gets its type. -/
theorem propertyType_tidy (h : p.Tidy busy s c) {q : PropertyId} (hq : q.index < s.properties.size) :
    p.Tidily busy s c (p.propertyType q s) fun t s' _ => ∃ r, s'.property? q = some r ∧ r.type = .done t := by
  obtain ⟨r, hr, ⟨t, hdone, hknown⟩ | ⟨t, s₁, c₁, hpending, hfound, hadds, hcharted⟩⟩ := propertyType_cases h.toCharted hq
  · rw [hknown]
    exact ⟨c, h, .refl s c, r, hr, hdone⟩
  · have hr₁ : s₁.property? q = some r := by rw [Store.property?, hadds.properties]; exact hr
    have hplace : c₁.properties q.index = c.properties q.index := by rw [hadds.places]
    have hmine (o : Origin) (d : DeclarationId)
        (ho : o.Under (.member (c.properties q.index).1 (c.properties q.index).2) []) : ¬ o.Of d := by
      intro hd
      cases ho.of_root hd
    have hsettled := later_settled (c := c₁) hr₁ hpending (t := t)
    rw [hfound]
    refine ⟨c₁, ?_, (hadds.grows hmine).trans (hsettled.grows rfl), _, property?_settled_self hr₁ t, rfl⟩
    refine h.made hadds hmine (fun u hu hown => ?_) hcharted hsettled rfl rfl (by simp [settled])
      fun owner k steps choice hown => ?_
    · -- the property would have its type
      obtain ⟨more, choice, horigin⟩ := hown
      obtain ⟨q', r', t', hplace', hr', hdone⟩ := h.found u _ _ _ _ hu horigin
      have hq' : q'.index < s.properties.size := (Array.getElem?_eq_some_iff.1 hr').1
      rw [h.once q' q hq' hq hplace', hr] at hr'
      cases hr'
      exact hpending t' hdone
    · obtain ⟨more, choice', heq⟩ := hown
      cases heq
      exact ⟨q, _, t, hplace, property?_settled_self hr₁ t, rfl⟩

/-! ## Properties -/

/-- Properties that are placed one after the other have different places. -/
theorem Placed.eq_of_place {o : Origin} {k n : Nat} {own : List PropertyId} (h : Placed o k n own s c) {q q' : PropertyId}
    (hq : q ∈ own) (hq' : q' ∈ own) (heq : c.properties q.index = c.properties q'.index) : q = q' := by
  obtain ⟨i, hi⟩ := List.getElem?_of_mem hq
  obtain ⟨j, hj⟩ := List.getElem?_of_mem hq'
  rw [(h.2 i q hi).2, (h.2 j q' hj).2] at heq
  have hij : i = j := Nat.add_left_cancel (congrArg Prod.snd heq)
  rw [hij, hj] at hi
  exact (Option.some.inj hi).symm

/-- Properties are made for members of what has none yet. -/
theorem pendingProperties_tidy (h : p.Tidy busy s c) {o : Origin} {context : Context}
    {members : List (Property TypeExpr)} (hmembers : p.membersOf? o = some (context, members)) (hwaits : Waits s c o)
    (hfree : ∀ q : PropertyId, q.index < s.properties.size → (c.properties q.index).1 ≠ o) :
    ∃ c', p.Tidy (fun o' => busy o' ∨ o' = o) (pendingProperties context members s).2 c' ∧
      Later s (pendingProperties context members s).2 c c' ∧ (pendingProperties context members s).2.types = s.types ∧
      c'.types = c.types ∧
      Placed o 0 members.length (pendingProperties context members s).1 (pendingProperties context members s).2 c' := by
  obtain ⟨c', hcharted, hlater, htypes, hchart, hdeclared, hown, hnew⟩ :=
    pendingProperties_ok h.toCharted hmembers (k := 0) fun i m hi => by rwa [Nat.zero_add]
  refine ⟨c', ?_, hlater, htypes, hchart, hown⟩
  -- the new properties belong to this owner, and none did before
  have hplace (q : PropertyId) (hq : q ∈ (pendingProperties context members s).1) :
      (c'.properties q.index).1 = o := by
    obtain ⟨i, hi⟩ := List.getElem?_of_mem hq
    rw [(hown.2 i q hi).2]
  refine ⟨hcharted, fun t u ht hu heq => ?unique, fun t d ht hd => ?owned, fun t owner k steps choice ht horigin => ?found,
    fun q q' hq hq' heq => ?once, fun q hq => ?held, fun o' ho' => ?waiting, fun t d ids ht horigin hlisted => ?inherited⟩
  case unique =>
    rw [htypes] at ht hu
    rw [hchart] at heq
    exact h.unique t u ht hu heq
  case owned =>
    rw [htypes] at ht
    rw [hchart] at hd
    rw [declared?_congr hdeclared]
    exact h.owned t d ht hd
  case found =>
    rw [htypes] at ht
    rw [hchart] at horigin
    exact (h.found t owner k steps choice ht horigin).mono hlater
  case once =>
    rcases hnew q hq with hlt | hmem
    · rcases hnew q' hq' with hlt' | hmem'
      · rw [hlater.place _ hlt, hlater.place _ hlt'] at heq
        exact h.once q q' hlt hlt' heq
      · rw [hlater.place _ hlt] at heq
        exact absurd (by rw [heq, hplace q' hmem']) (hfree q hlt)
    · rcases hnew q' hq' with hlt' | hmem'
      · rw [hlater.place _ hlt'] at heq
        exact absurd (by rw [← heq, hplace q hmem]) (hfree q' hlt')
      · exact hown.eq_of_place hmem hmem' heq
  case held =>
    rcases hnew q hq with hlt | hmem
    · rw [hlater.place _ hlt]
      exact (h.held q hlt).imp (fun ho => ho.mono hlater) .inl
    · exact .inr (.inr (hplace q hmem))
  case waiting =>
    have hbefore : Waits s c o' := by
      rcases ho' with ho' | rfl
      · exact h.waiting o' ho'
      · exact hwaits
    obtain ⟨t, ht, horigin, hpending⟩ := hbefore
    exact ⟨t, by rw [htypes]; exact ht, by rw [hchart, horigin], fun ids => by rw [cell_congr htypes]; exact hpending ids⟩
  case inherited =>
    rw [htypes] at ht
    rw [hchart] at horigin
    rw [cell_congr htypes] at hlisted
    exact (h.inherited t d ids ht horigin hlisted).mono h.toCharted hlater

/-- The properties that have been made are listed. -/
theorem Tidy.listing {id : TypeId} (h : p.Tidy (fun o => busy o ∨ o = c.types id.index) s c)
    (hid : id.index < s.types.size) (hnot : ¬ busy (c.types id.index)) {ids : List PropertyId}
    (hlists : p.Lists s c (c.types id.index) ids)
    (hinterface : ∀ d, c.types id.index = .declaration d → p.InterfaceListed s c d ids) :
    p.Tidy busy (s.listing id ids) c := by
  -- the type is the one that waits for its list
  have hpending : ∀ ids, (s.cell id).properties ≠ .listed ids := by
    obtain ⟨t, ht, horigin, hpending⟩ := h.waiting _ (.inr rfl)
    rwa [h.unique t id ht hid horigin] at hpending
  have hlater : Later s (s.listing id ids) c c := (Later.refl s c).listing hid hpending ids
  have hsize : (s.listing id ids).types.size = s.types.size := by simp [Store.listing]
  refine ⟨h.toCharted.listing hid hlists, fun t u ht hu heq => ?unique, fun t d ht hd => ?owned,
    fun t owner k steps choice ht horigin => ?found, h.once, fun q hq => ?held, fun o ho => ?waiting,
    fun t d ids' ht horigin hlisted => ?inherited⟩
  case unique =>
    rw [hsize] at ht hu
    exact h.unique t u ht hu heq
  case owned =>
    rw [hsize] at ht
    exact h.owned t d ht hd
  case found =>
    rw [hsize] at ht
    exact (h.found t owner k steps choice ht horigin).mono hlater
  case held =>
    rcases h.held q hq with ho | ho | ho
    · exact .inl (ho.mono hlater)
    · exact .inr ho
    · exact .inl ⟨id, ids, by rw [hsize]; exact hid, ho.symm, listing_self s hid ids⟩
  case waiting =>
    obtain ⟨t, ht, horigin, hpending⟩ := h.waiting o (.inl ho)
    have hne : t ≠ id := fun heq => hnot (by rw [← heq, horigin]; exact ho)
    refine ⟨t, by rw [hsize]; exact ht, horigin, ?_⟩
    rwa [Store.cell_listing s hid, if_neg hne]
  case inherited =>
    rw [hsize] at ht
    rw [Store.cell_listing s hid] at hlisted
    by_cases heq : t = id
    · rw [if_pos heq] at hlisted
      cases hlisted
      rw [heq] at horigin
      exact (hinterface d horigin).mono h.toCharted hlater
    · rw [if_neg heq] at hlisted
      exact (h.inherited t d ids' ht horigin hlisted).mono h.toCharted hlater

/-- Properties are kept that have been found since the type was asked for. -/
theorem setProperties_tidy {type : TypeId} (h : p.Tidy (fun o => busy o ∨ o = c'.types type.index) s' c')
    (hgrows : Grows s s' c c') (htype : type.index < s.types.size)
    (hpending : ∀ ids, (s.cell type).properties ≠ .listed ids) (hnot : ¬ busy (c'.types type.index))
    {ids : List PropertyId} (hlists : p.Lists s' c' (c'.types type.index) ids)
    (hinterface : ∀ d, c'.types type.index = .declaration d → p.InterfaceListed s' c' d ids) :
    p.Tidily busy s c ((do setProperties type ids; return ids : Resolving (List PropertyId)) s')
      fun ids s'' _ => (s''.cell type).properties = .listed ids := by
  have htype' := Nat.lt_of_lt_of_le htype hgrows.size
  have hsize : (s'.listing type ids).types.size = s'.types.size := by simp [Store.listing]
  refine ⟨c', h.listing htype' hnot hlists hinterface, ⟨hgrows.toLater.listing htype hpending ids, ?_⟩,
    listing_self s' htype' ids⟩
  intro t d ht hlt hd
  exact hgrows.fresh t d ht (Nat.lt_of_lt_of_eq hlt hsize) hd

theorem mem_interfaces {d : DeclarationId} (h : p.IsInterface d) : d ∈ p.interfaces := by
  obtain ⟨parameters, bases, members, hbody⟩ := h
  rw [body?, Option.map_eq_some_iff] at hbody
  obtain ⟨declaration, hd, hbody⟩ := hbody
  refine List.mem_filter.2 ⟨mem_declarationIds hd, ?_⟩
  rw [hd]
  simp only [Option.map_some, Option.getD_some, Declaration.isInterface, hbody]

/-- The properties of a node for this may be searched for: interfaces that may not
be entered are busy, and what is busy inherits from the interface. -/
structure Enterable (p : Project) (idle : List DeclarationId) (busy : Origin → Prop) (o : Origin) : Prop where
  left : ∀ d, p.IsInterface d → d ∉ idle → busy (.declaration d)
  behind : ∀ o', busy o' → ∃ b, o' = .declaration b ∧ ∀ d, o = .declaration d → Relation.TransGen p.Inherits b d

/-- What a base of an interface comes to. -/
theorem base_tidy {d : DeclarationId} {parameters : List Text} {bases : List Base} {members : List (Property TypeExpr)}
    (hbody : p.body? d = some (.interface parameters bases members)) {base : Base} (hmem : base ∈ bases)
    (h : p.Tidy busy s c) {search : TypeId → Resolving (List PropertyId)}
    (hsearch : ∀ t s' c', p.Tidy busy s' c' → t.index < s'.types.size →
      (∀ d', c'.types t.index = .declaration d' → p.Inherits d d') →
      p.Tidily busy s' c' (search t s') fun ids s'' _ => (s''.cell t).properties = .listed ids) :
    p.Tidily busy s c (p.searchBase d search base s) fun ids s' _ => p.BaseListed s' d base ids := by
  unfold searchBase BaseListed
  cases hlookup : p.lookup? d.unit base.name with
  | none => exact (report_tidy h _).bind fun _ s' c' h' _ _ => .pure h' rfl
  | some target =>
    refine (declarationType_tidy h (lookup?_valid hlookup)).bind fun id s₁ c₁ h₁ _ hd => ?_
    have hid := h₁.entries.lt hd
    have hnode : p.Tidily busy s₁ c₁ (node id s₁) fun n s' _ => n = s'.node id ∧ s'.declared? target = some id :=
      ⟨c₁, h₁, .refl s₁ c₁, rfl, hd⟩
    refine hnode.bind ?_
    rintro _ s₂ c₂ h₂ _ ⟨rfl, hd⟩
    have hid := h₂.entries.lt hd
    -- a source that is an interface is one that the interface inherits from
    have hstep (t : TypeId) (ht : t ∈ s₂.sources id) (s' : Store) (c' : Chart) (h' : p.Tidy busy s' c')
        (hgrows : Grows s₂ s' c₂ c') :
        p.Tidily busy s' c' (search t s') fun ids s'' _ => (s''.cell t).properties = .listed ids := by
      have hlt := h₂.source_lt hid ht
      refine hsearch t s' c' h' (Nat.lt_of_lt_of_le hlt hgrows.size) fun d' hd' => ?_
      rw [hgrows.origin _ hlt] at hd'
      exact ⟨parameters, bases, members, base, target, hbody, hmem, hlookup, h₂.gives_of_source hd ht hd'⟩
    cases hparts : Shape.intersectionMembers? (s₂.node id) with
    | none =>
      have hsources : s₂.sources id = [id] := by rw [Store.sources, hparts]; rfl
      refine (hstep id (by rw [hsources]; exact List.mem_singleton_self id) s₂ c₂ h₂ (.refl s₂ c₂)).mono
        fun ids s' c' h' hgrows hlisted => ⟨id, [ids], hgrows.declared _ _ hd, ?_, by simp⟩
      rw [sources_congr (hgrows.node id hid), hsources]
      refine ⟨rfl, fun i t ids' ht hids => ?_⟩
      cases i with
      | zero =>
        cases ht
        cases hids
        exact hlisted
      | succ i => cases ht
    | some parts =>
      have hsources : s₂.sources id = parts := by rw [Store.sources, hparts]; rfl
      rw [hsources] at hstep
      refine Tidily.bind (x := parts.mapM search) (Tidily.mapM
        (fun t ids s' c' => t.index < s'.types.size ∧ (s'.cell t).properties = .listed ids) ?_ h₂
        fun t ht s' c' h' hgrows => (hstep t ht s' c' h' hgrows).mono fun ids s'' c'' _ hgrows' hlisted => ⟨?_, hlisted⟩) ?_
      · rintro t ids s' s'' c' c'' _ hlater ⟨ht, hlisted⟩
        exact ⟨Nat.lt_of_lt_of_le ht hlater.size, hlater.listed t ids ht hlisted⟩
      · have hlt := h₂.source_lt hid (by rw [hsources]; exact ht)
        exact Nat.lt_of_lt_of_le hlt (hgrows.trans hgrows').size
      · rintro found s₃ c₃ h₃ hgrows ⟨hlength, heach⟩
        refine .pure h₃ ⟨id, found, hgrows.declared _ _ hd, ?_, rfl⟩
        rw [sources_congr (hgrows.node id hid), hsources]
        exact ⟨hlength, fun i t ids ht hids => (heach i t ids ht hids).2⟩

/-- Nothing was made for the members of a type while its properties are pending. -/
theorem Tidy.not_placed (h : p.Tidy busy s c) {type : TypeId} (htype : type.index < s.types.size)
    (hnot : ¬ busy (c.types type.index)) (hpending : ∀ ids, (s.cell type).properties ≠ .listed ids) {q : PropertyId}
    (hq : q.index < s.properties.size) : (c.properties q.index).1 ≠ c.types type.index := by
  intro heq
  rcases h.held q hq with ⟨t, ids, ht, horigin, hlisted⟩ | hbusy
  · rw [h.unique t type ht htype (horigin.trans heq)] at hlisted
    exact hpending ids hlisted
  · rw [heq] at hbusy
    exact hnot hbusy

/-- Below an interface it is busy itself, and inherits from what comes there. -/
theorem Enterable.below {idle : List DeclarationId} {d : DeclarationId} (h : p.Enterable idle busy (.declaration d))
    {o : Origin} (hinherits : ∀ d', o = .declaration d' → p.Inherits d d') :
    p.Enterable (idle.erase d) (fun o => busy o ∨ o = .declaration d) o := by
  refine ⟨fun d' hd' hout => ?_, ?_⟩
  · by_cases heq : d' = d
    · exact .inr (by rw [heq])
    · exact .inl (h.left d' hd' fun hmem => hout ((List.mem_erase_of_ne heq).2 hmem))
  · rintro o' (ho' | rfl)
    · obtain ⟨b, rfl, hbehind⟩ := h.behind o' ho'
      exact ⟨b, rfl, fun d' hd' => (hbehind d rfl).tail (hinherits d' hd')⟩
    · exact ⟨d, rfl, fun d' hd' => .single (hinherits d' hd')⟩

section
variable (hacyclic : ∀ d, ¬ Relation.TransGen p.Inherits d d)
include hacyclic

theorem Enterable.not_busy {idle : List DeclarationId} {o : Origin} (h : p.Enterable idle busy o) : ¬ busy o := by
  intro ho
  obtain ⟨b, rfl, hbehind⟩ := h.behind o ho
  exact hacyclic b (hbehind b rfl)

/-- The properties of a type are found and listed. -/
theorem propertiesIn_tidy (idle : List DeclarationId) (hnodup : idle.Nodup) {busy : Origin → Prop} {s : Store}
    {c : Chart} (h : p.Tidy busy s c) {type : TypeId} (htype : type.index < s.types.size)
    (henter : p.Enterable idle busy (c.types type.index)) :
    p.Tidily busy s c (p.propertiesIn idle type s) fun ids s' _ => (s'.cell type).properties = .listed ids := by
  induction idle, type, s using propertiesIn_induction generalizing busy c with
  | listed idle type s ids hproperties hrun =>
    rw [hrun]
    exact .pure h hproperties
  | members idle type s context members hproperties hrun =>
    rw [hrun]
    have hlisting := h.listings type htype
    rw [ListingOk, hproperties] at hlisting
    obtain ⟨hmembers, hdeclaration⟩ := hlisting
    have hnot := henter.not_busy hacyclic
    have hpending : ∀ ids, (s.cell type).properties ≠ .listed ids := fun ids heq => by rw [hproperties] at heq; cases heq
    obtain ⟨c₁, h₁, hlater, htypes, hchart, hown⟩ :=
      pendingProperties_tidy h hmembers ⟨type, htype, rfl, hpending⟩ fun q hq => h.not_placed htype hnot hpending hq
    rw [← hchart] at h₁ hown hdeclaration hnot hmembers
    have hlists : p.Lists (pendingProperties context members s).2 c₁ (c₁.types type.index)
        (pendingProperties context members s).1 := by
      have hnone : p.Further (c₁.types type.index) [] (pendingProperties context members s).2 c₁ := by
        cases horigin : c₁.types type.index with
        | declaration d => exact absurd horigin (hdeclaration d)
        | _ => rfl
      have hlists := lists_own hmembers hown hnone
      rwa [List.append_nil] at hlists
    exact setProperties_tidy h₁ (hlater.grows (congrArg Array.size htypes)) htype hpending hnot hlists
      fun d hd => absurd hd (hdeclaration d)
  | missing idle type s d hproperties hnone _ =>
    have hlisting := h.listings type htype
    rw [ListingOk, hproperties] at hlisting
    obtain ⟨_, parameters, bases, members, hbody⟩ := hlisting
    exact absurd hbody (hnone parameters bases members)
  | busy idle type s d parameters bases members hproperties hbody hidle _ =>
    -- an interface that may not be entered is busy
    have hlisting := h.listings type htype
    rw [ListingOk, hproperties] at hlisting
    have hnot := henter.not_busy hacyclic
    rw [hlisting.1] at hnot
    exact absurd (henter.left d ⟨parameters, bases, members, hbody⟩ hidle) hnot
  | entered idle type s d parameters bases members hproperties hbody hidle hrun ih =>
    rw [hrun]
    have hlisting := h.listings type htype
    rw [ListingOk, hproperties] at hlisting
    have horigin := hlisting.1
    have hnot := henter.not_busy hacyclic
    have hpending : ∀ ids, (s.cell type).properties ≠ .listed ids := fun ids heq => by rw [hproperties] at heq; cases heq
    have hmembers : p.membersOf? (c.types type.index) = some ({ unit := d.unit, parameters }, members) := by
      rw [horigin, membersOf?, hbody]
    obtain ⟨c₁, h₁, hlater, htypes, hchart, hown⟩ :=
      pendingProperties_tidy h hmembers ⟨type, htype, rfl, hpending⟩ fun q hq => h.not_placed htype hnot hpending hq
    rw [horigin] at h₁ hown hnot henter hmembers
    obtain ⟨c₂, h₂, hgrows, hlength, heach⟩ := Tidily.mapM (fun base ids s' _ => p.BaseListed s' d base ids)
      (fun base ids _ _ _ _ hcharted hlater hbase => hbase.mono hcharted hlater) h₁
      fun base hmem s' c' h' _ => base_tidy hbody hmem h' fun t s'' c'' h'' ht hinherits =>
        ih t s'' (hnodup.erase d) h'' ht (henter.below hinherits)
    have htype₁ : type.index < (pendingProperties { unit := d.unit, parameters } members s).2.types.size := by
      rw [htypes]
      exact htype
    have horigin₂ : c₂.types type.index = .declaration d := by rw [hgrows.origin _ htype₁, hchart, horigin]
    rw [← horigin₂] at h₂ hnot
    refine setProperties_tidy h₂ ((hlater.grows (congrArg Array.size htypes)).trans hgrows) htype hpending hnot ?_ ?_
    · rw [horigin₂]
      refine lists_own hmembers (hown.mono hgrows.toExtends) fun q hq => ?_
      obtain ⟨ids, hids, hq⟩ := List.mem_flatten.1 (mem_withNewNames hq)
      obtain ⟨i, base, hbase, hi⟩ := exists_getElem?_of_mem hlength hids
      exact (heach i base ids hbase hi).declared h₂.toCharted hbody (List.mem_of_getElem? hbase) q hq
    · intro d' hd'
      rw [horigin₂] at hd'
      cases hd'
      intro parameters' bases' members' hbody'
      rw [hbody] at hbody'
      cases hbody'
      exact ⟨_, _, hown.mono hgrows.toExtends, hlength, heach, rfl⟩

end

end Project

end WireSchema
