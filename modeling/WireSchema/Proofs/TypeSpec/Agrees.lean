import Mathlib.Data.List.Find
import WireSchema.Proofs.Project.Twins
import WireSchema.Proofs.TypeSpec.Settled
/-!
# Converting in two stores

Two stores that come from one are converted from in the same way: if converting a
type has an answer in the one store, converting the type that was made for the
same has the same answer in the other, and the stores still come from one.
-/

namespace WireSchema.TypeSpec

open Project

/-- Two stores, each with its chart. -/
structure Sides where
  store : Store
  chart : Chart
  store' : Store
  chart' : Chart

/-- Both stores are later ones. -/
structure Sides.Later (k l : Sides) : Prop where
  first : Project.Later k.store l.store k.chart l.chart
  second : Project.Later k.store' l.store' k.chart' l.chart'

/-- The types were made for the same, each in its store. -/
structure Sides.Types (k : Sides) (t u : TypeId) : Prop where
  left : t.index < k.store.types.size
  right : u.index < k.store'.types.size
  same : k.chart.origin t = k.chart'.origin u

/-- The properties were made for the same member, each in its store. -/
structure Sides.Properties (k : Sides) (q q' : PropertyId) : Prop where
  left : q.index < k.store.properties.size
  right : q'.index < k.store'.properties.size
  same : k.chart.member q = k.chart'.member q'

variable {p : Project} {s₀ : Store} {c₀ : Chart} {k l : Sides} {t u : TypeId} {q q' : PropertyId} {α β γ δ : Type}

namespace Sides

theorem Later.refl (k : Sides) : k.Later k := ⟨.refl _ _, .refl _ _⟩

theorem Later.trans {m : Sides} (h : k.Later l) (h' : l.Later m) : k.Later m :=
  ⟨h.first.trans h'.first, h.second.trans h'.second⟩

theorem Types.mono (h : k.Later l) (ht : k.Types t u) : l.Types t u where
  left := Nat.lt_of_lt_of_le ht.left h.first.size
  right := Nat.lt_of_lt_of_le ht.right h.second.size
  same := by
    have hsame := ht.same
    rw [Chart.origin, Chart.origin] at hsame ⊢
    rw [h.first.origin _ ht.left, h.second.origin _ ht.right, hsame]

theorem Properties.mono (h : k.Later l) (hq : k.Properties q q') : l.Properties q q' where
  left := Nat.lt_of_lt_of_le hq.left h.first.count
  right := Nat.lt_of_lt_of_le hq.right h.second.count
  same := by
    have hsame := hq.same
    rw [Chart.member, Chart.member] at hsame ⊢
    rw [h.first.place _ hq.left, h.second.place _ hq.right, hsame]

/-- The two stores come from the one. -/
def Twins (p : Project) (s₀ : Store) (c₀ : Chart) (k : Sides) : Prop :=
  p.Twins s₀ c₀ k.store k.chart k.store' k.chart'

end Sides

/-! ## Steps in both stores -/

/-- If the step has an answer in the first store, the other step has one in the
second, as described, and the stores still come from one. -/
def Agrees (p : Project) (s₀ : Store) (c₀ : Chart) (k : Sides) (x : Converting α) (y : Converting β)
    (post : α → β → Sides → Prop) : Prop :=
  ∀ a s, x k.store = some (a, s) → ∃ b l, y k.store' = some (b, l.store') ∧ l.store = s ∧
    Sides.Twins p s₀ c₀ l ∧ k.Later l ∧ post a b l

section
variable {post : α → β → Sides → Prop} {post' : γ → δ → Sides → Prop}

theorem Agrees.pure (h : Sides.Twins p s₀ c₀ k) {a : α} {b : β} (hab : post a b k) :
    Agrees p s₀ c₀ k (Pure.pure a) (Pure.pure b) post := by
  intro a' s hrun
  cases hrun
  exact ⟨b, k, rfl, rfl, h, .refl k, hab⟩

theorem Agrees.bind {x : Converting α} {y : Converting β} {f : α → Converting γ} {g : β → Converting δ}
    (h : Agrees p s₀ c₀ k x y post)
    (hf : ∀ a b l, Sides.Twins p s₀ c₀ l → k.Later l → post a b l → Agrees p s₀ c₀ l (f a) (g b) post') :
    Agrees p s₀ c₀ k (x >>= f) (y >>= g) post' := by
  intro e s hrun
  obtain ⟨⟨a, s₁⟩, hx, hfx⟩ := Option.bind_eq_some_iff.1 hrun
  obtain ⟨b, l, hy, rfl, htwins, hlater, hab⟩ := h a s₁ hx
  obtain ⟨e', m, hg, hm, htwins', hlater', he⟩ := hf a b l htwins hlater hab e s hfx
  refine ⟨e', m, ?_, hm, htwins', hlater.trans hlater', he⟩
  show (y k.store').bind _ = _
  rw [hy]
  exact hg

/-- Resolving steps one after the other. -/
theorem Agrees.bindLift {x : Resolving α} {y : Resolving β} {f : α → Resolving γ} {g : β → Resolving δ}
    (h : Agrees p s₀ c₀ k (liftM x) (liftM y) post)
    (hf : ∀ a b l, Sides.Twins p s₀ c₀ l → k.Later l → post a b l → Agrees p s₀ c₀ l (liftM (f a)) (liftM (g b)) post') :
    Agrees p s₀ c₀ k (liftM (x >>= f)) (liftM (y >>= g)) post' :=
  h.bind hf

theorem Agrees.mono {x : Converting α} {y : Converting β} {post₂ : α → β → Sides → Prop}
    (h : Agrees p s₀ c₀ k x y post)
    (hpost : ∀ a b l, Sides.Twins p s₀ c₀ l → k.Later l → post a b l → post₂ a b l) : Agrees p s₀ c₀ k x y post₂ := by
  intro a s hrun
  obtain ⟨b, l, hy, hl, htwins, hlater, hab⟩ := h a s hrun
  exact ⟨b, l, hy, hl, htwins, hlater, hpost a b l htwins hlater hab⟩

/-- One after the other, with results that stay as described. -/
theorem Agrees.mapM {f : α → Converting γ} {g : β → Converting δ} {R : α → β → Prop} (result : γ → δ → Sides → Prop)
    (hkeep : ∀ a b k l, k.Later l → result a b k → result a b l) {as : List α} {bs : List β}
    (h : Sides.Twins p s₀ c₀ k) (has : List.Forall₂ R as bs)
    (hstep : ∀ a b l, R a b → Sides.Twins p s₀ c₀ l → k.Later l → Agrees p s₀ c₀ l (f a) (g b) result) :
    Agrees p s₀ c₀ k (as.mapM f) (bs.mapM g) fun xs ys l => List.Forall₂ (fun x y => result x y l) xs ys := by
  induction has generalizing k with
  | nil => exact .pure h .nil
  | @cons a b as bs hab _ ih =>
    rw [List.mapM_cons, List.mapM_cons]
    refine (hstep a b k hab h (.refl k)).bind fun x y l hl hlater hxy => ?_
    refine (ih hl fun a b m hab hm hlater' => hstep a b m hab hm (hlater.trans hlater')).bind
      fun xs ys m hm hlater' hxys => ?_
    exact .pure hm (.cons (hkeep _ _ _ _ hlater' hxy) hxys)

/-- One after the other, with the same results. -/
theorem Agrees.mapM_eq {f : α → Converting γ} {g : β → Converting γ} {R : α → β → Prop} {as : List α} {bs : List β}
    (h : Sides.Twins p s₀ c₀ k) (has : List.Forall₂ R as bs)
    (hstep : ∀ a b l, R a b → Sides.Twins p s₀ c₀ l → k.Later l → Agrees p s₀ c₀ l (f a) (g b) fun x y _ => x = y) :
    Agrees p s₀ c₀ k (as.mapM f) (bs.mapM g) fun xs ys _ => xs = ys :=
  (Agrees.mapM (fun x y _ => x = y) (fun _ _ _ _ _ hxy => hxy) h has hstep).mono fun xs ys _ _ _ hxys => by
    rwa [List.forall₂_eq_eq_eq] at hxys

/-- A resolving step that keeps both stores tidy. -/
theorem Agrees.lift (h : Sides.Twins p s₀ c₀ k) {x : Resolving α} {y : Resolving β} {first : α → Store → Chart → Prop}
    {second : β → Store → Chart → Prop} (hx : p.Tidily (fun _ => False) k.store k.chart (x k.store) first)
    (hy : p.Tidily (fun _ => False) k.store' k.chart' (y k.store') second)
    (hpost : ∀ a b l, Sides.Twins p s₀ c₀ l → k.Later l → first a l.store l.chart → second b l.store' l.chart' → post a b l) :
    Agrees p s₀ c₀ k (liftM x) (liftM y) post := by
  intro a s hrun
  have hx' : x k.store = (a, s) := Option.some.inj hrun
  rw [hx'] at hx
  obtain ⟨c₁, htidy, hgrows, hfirst⟩ := hx
  obtain ⟨c₂, htidy', hgrows', hsecond⟩ := hy
  have htwins : Sides.Twins p s₀ c₀ ⟨s, c₁, (y k.store').2, c₂⟩ :=
    ⟨h.base, htidy, htidy', h.since.trans hgrows, h.since'.trans hgrows'⟩
  have hlater : k.Later ⟨s, c₁, (y k.store').2, c₂⟩ := ⟨hgrows.toLater, hgrows'.toLater⟩
  exact ⟨_, _, rfl, rfl, htwins, hlater, hpost a _ _ htwins hlater hfirst hsecond⟩

end

/-! ## Steps that resolve -/

section
variable (hfree : p.OrderFree s₀)

theorem agrees_report (h : Sides.Twins p s₀ c₀ k) (event event' : Event) :
    Agrees p s₀ c₀ k (liftM (Resolving.report event)) (liftM (Resolving.report event')) fun _ _ _ => True :=
  .lift h (report_tidy h.first event) (report_tidy h.second event') fun _ _ _ _ _ _ _ => trivial

/-- The nodes of types that were made for the same. -/
structure SameNode (k : Sides) (t u : TypeId) (n m : TypeNode) : Prop where
  types : k.Types t u
  node : n = k.store.node t
  node' : m = k.store'.node u
  alike : n.Alike k.chart.origin k.chart'.origin m

/-- What the nodes refer to is there. -/
theorem SameNode.children_lt (h : Sides.Twins p s₀ c₀ k) {n m : TypeNode} (hnode : SameNode k t u n m) :
    (∀ v ∈ n.shape.children, v.index < k.store.types.size) ∧ ∀ v ∈ m.shape.children, v.index < k.store'.types.size := by
  rw [hnode.node, hnode.node']
  exact ⟨fun v hv => Nat.lt_trans (h.first.child_lt hnode.types.left hv) hnode.types.left,
    fun v hv => Nat.lt_trans (h.second.child_lt hnode.types.right hv) hnode.types.right⟩

include hfree

theorem agrees_node (h : Sides.Twins p s₀ c₀ k) (ht : k.Types t u) :
    Agrees p s₀ c₀ k (liftM (Resolving.node t)) (liftM (Resolving.node u)) fun n m l => SameNode l t u n m := by
  intro n s hrun
  cases hrun
  exact ⟨_, k, rfl, rfl, h, .refl k, ht, rfl, rfl, Project.Twins.node_alike h hfree ht.left ht.right ht.same⟩

theorem agrees_propertyType (h : Sides.Twins p s₀ c₀ k) (hq : k.Properties q q') :
    Agrees p s₀ c₀ k (liftM (p.propertyType q)) (liftM (p.propertyType q')) fun t u l => l.Types t u := by
  refine .lift h (propertyType_tidy h.first hq.left) (propertyType_tidy h.second hq.right) fun t u l hl hlater => ?_
  rintro ⟨r, hr, hdone⟩ ⟨r', hr', hdone'⟩
  exact ⟨done_lt hl.first.toCharted hr hdone, done_lt hl.second.toCharted hr' hdone',
    Project.Twins.type_alike hl hfree hr hdone hr' hdone' (hq.mono hlater).same⟩

theorem agrees_properties (h : Sides.Twins p s₀ c₀ k) (ht : k.Types t u) :
    Agrees p s₀ c₀ k (liftM (p.properties t)) (liftM (p.properties u)) fun ids ids' l =>
      List.Forall₂ l.Properties ids ids' := by
  -- all interfaces may be entered
  have henter (o : Origin) : p.Enterable p.interfaces (fun _ => False) o :=
    ⟨fun d hd hout => absurd (mem_interfaces hd) hout, fun _ hbusy => hbusy.elim⟩
  have hnodup := nodup_interfaces p
  refine .lift h (propertiesIn_tidy hfree.interfaces _ hnodup h.first ht.left (henter _))
    (propertiesIn_tidy hfree.interfaces _ hnodup h.second ht.right (henter _))
    fun ids ids' l hl hlater hlisted hlisted' => ?_
  have ht' := ht.mono hlater
  refine forall₂_of_map_eq (Project.Twins.listed_alike hl hfree p.interfaces ht'.left ht'.right ht'.same hlisted hlisted'
    fun b d hb hout => absurd (mem_interfaces hb) hout) fun q hq q' hq' heq => ⟨?_, ?_, heq⟩
  · exact listed_lt hl.first.toCharted ht'.left hlisted q hq
  · exact listed_lt hl.second.toCharted ht'.right hlisted' q' hq'

end

/-! ## Types that are found in both stores -/

/-- A type has the same model in both stores. -/
theorem find?_alike {r : Registry} (hold : ∀ model ∈ r.models, model.type.index < s₀.types.size)
    (h : Sides.Twins p s₀ c₀ k) (ht : k.Types t u) : r.find? t = r.find? u := by
  refine List.find?_congr fun model hmodel => ?_
  rw [Bool.eq_iff_iff, beq_iff_eq, beq_iff_eq]
  constructor
  · rintro rfl
    exact Project.Twins.eq_of_old h (hold model hmodel) ht.right ht.same
  · rintro rfl
    exact (Project.Twins.symm h).eq_of_old (hold model hmodel) ht.left ht.same.symm

theorem Sides.Types.eq_iff (h : Sides.Twins p s₀ c₀ k) {t' u' : TypeId} (ht : k.Types t u) (ht' : k.Types t' u') :
    t = t' ↔ u = u' := by
  constructor
  · rintro rfl
    exact h.second.unique u u' ht.right ht'.right (ht.same.symm.trans ht'.same)
  · rintro rfl
    exact h.first.unique t t' ht.left ht'.left (ht.same.trans ht'.same.symm)

/-- The types that are being written are the same in both stores. -/
theorem contains_alike (h : Sides.Twins p s₀ c₀ k) {path path' : List TypeId} (hpath : List.Forall₂ k.Types path path')
    (ht : k.Types t u) : path.contains t = path'.contains u := by
  induction hpath with
  | nil => rfl
  | @cons a b as bs hab _ ih =>
    have hhead : (t == a) = (u == b) := by
      rw [Bool.eq_iff_iff, beq_iff_eq, beq_iff_eq]
      exact ht.eq_iff h hab
    rw [List.contains_cons, List.contains_cons, ih, hhead]

/-- Types that a node refers to. -/
theorem forall₂_types {ts us : List TypeId} (hts : ∀ t ∈ ts, t.index < k.store.types.size)
    (hus : ∀ u ∈ us, u.index < k.store'.types.size) (h : ts.map k.chart.origin = us.map k.chart'.origin) :
    List.Forall₂ k.Types ts us :=
  forall₂_of_map_eq h fun t ht u hu heq => ⟨hts t ht, hus u hu, heq⟩

theorem forall₂_mono (h : k.Later l) {ts us : List TypeId} (hts : List.Forall₂ k.Types ts us) :
    List.Forall₂ l.Types ts us :=
  hts.imp fun _ _ ht => ht.mono h

theorem getLastD_types {ts us : List TypeId} (hts : List.Forall₂ k.Types ts us) (ht : k.Types t u) :
    k.Types (ts.getLastD t) (us.getLastD u) := by
  induction hts generalizing t u with
  | nil => exact ht
  | cons hab _ ih =>
    rw [List.getLastD_cons, List.getLastD_cons]
    exact ih hab

/-! ## Steps that write -/

/-- The same is written of types that were made for the same. -/
def Writer.Agrees (p : Project) (s₀ : Store) (c₀ : Chart) (write : Writer) : Prop :=
  ∀ path path' t u k, Sides.Twins p s₀ c₀ k → List.Forall₂ k.Types path path' → k.Types t u →
    TypeSpec.Agrees p s₀ c₀ k (write path t) (write path' u) fun a b _ => a = b

section
variable {setting : Setting} {write : Writer} {path path' : List TypeId}
variable (hfree : p.OrderFree s₀)
include hfree

theorem agrees_verbatim (h : Sides.Twins p s₀ c₀ k) (ht : k.Types t u) (reason : VerbatimReason) :
    Agrees p s₀ c₀ k (verbatim t reason) (verbatim u reason) fun a b _ => a = b := by
  refine (agrees_node hfree h ht).bind fun n m l₁ h₁ _ hnode => ?_
  refine (agrees_report h₁ _ _).bind fun _ _ l₂ h₂ _ _ => .pure h₂ ?_
  rw [hnode.alike.text]

variable (hwrite : write.Agrees p s₀ c₀) (hold : ∀ model ∈ setting.registry.models, model.type.index < s₀.types.size)
include hwrite hold

omit hfree in
theorem agrees_reference (h : Sides.Twins p s₀ c₀ k) (hpath : List.Forall₂ k.Types path path') (ht : k.Types t u) :
    Agrees p s₀ c₀ k (reference setting write path t) (reference setting write path' u) fun a b _ => a = b := by
  rw [reference, reference, find?_alike hold h ht]
  split
  · exact .pure h rfl
  · exact hwrite path path' t u k h hpath ht

omit hfree in
theorem agrees_references (h : Sides.Twins p s₀ c₀ k) (hpath : List.Forall₂ k.Types path path') {ts us : List TypeId}
    (hts : List.Forall₂ k.Types ts us) :
    Agrees p s₀ c₀ k (references setting write path ts) (references setting write path' us) fun a b _ => a = b :=
  .mapM_eq h hts fun _ _ _ ht hl hlater => agrees_reference hwrite hold hl (forall₂_mono hlater hpath) (ht.mono hlater)

omit hfree in
theorem agrees_template (h : Sides.Twins p s₀ c₀ k) (hpath : List.Forall₂ k.Types path path')
    {spans spans' : List (Span TypeId)} (hleft : ∀ t ∈ spanTypes spans, t.index < k.store.types.size)
    (hright : ∀ u ∈ spanTypes spans', u.index < k.store'.types.size)
    (hspans : spans.map (Span.map k.chart.origin) = spans'.map (Span.map k.chart'.origin)) :
    Agrees p s₀ c₀ k (template setting write path spans) (template setting write path' spans') fun a b _ => a = b := by
  let Same (a b : Span TypeId) : Prop :=
    a.map k.chart.origin = b.map k.chart'.origin ∧ (∀ t, a = .hole t → t.index < k.store.types.size) ∧
      ∀ u, b = .hole u → u.index < k.store'.types.size
  have hsame : List.Forall₂ Same spans spans' := forall₂_of_map_eq hspans fun a ha b hb heq =>
    ⟨heq, fun t ht => hleft t (mem_spanTypes (ht ▸ ha)), fun u hu => hright u (mem_spanTypes (hu ▸ hb))⟩
  refine (Agrees.mapM_eq h hsame fun a b l hab hl hlater => ?_).bind fun parts _ l₁ h₁ _ hparts => .pure h₁ (by rw [hparts])
  obtain ⟨heq, ha, hb⟩ := hab
  cases a with
  | chunk text =>
    cases b with
    | chunk text' =>
      cases heq
      exact .pure hl rfl
    | hole u => cases heq
  | hole t =>
    cases b with
    | chunk text' => cases heq
    | hole u =>
      have ht : k.Types t u := ⟨ha t rfl, hb u rfl, Span.hole.inj heq⟩
      exact (agrees_reference hwrite hold hl (forall₂_mono hlater hpath) (ht.mono hlater)).bind
        fun _ _ _ h₁ _ hwritten => .pure h₁ (by rw [hwritten])

theorem agrees_arrayOf (h : Sides.Twins p s₀ c₀ k) (hpath : List.Forall₂ k.Types path path') (ht : k.Types t u) :
    Agrees p s₀ c₀ k (arrayOf setting write path t) (arrayOf setting write path' u) fun a b _ => a = b := by
  refine (agrees_reference hwrite hold h hpath ht).bind fun written written' l₁ h₁ hlater hwritten => ?_
  refine (agrees_node hfree h₁ (ht.mono hlater)).bind fun n m l₂ h₂ hlater₂ hnode => ?_
  rw [hwritten, hnode.alike.isUnion, find?_alike hold h ht]
  split
  · exact .pure h₂ rfl
  · exact .pure h₂ rfl

omit hfree in
theorem agrees_application (h : Sides.Twins p s₀ c₀ k) (hpath : List.Forall₂ k.Types path path') (name : Text)
    {ts us : List TypeId} (hts : List.Forall₂ k.Types ts us) :
    Agrees p s₀ c₀ k (application setting write path name ts) (application setting write path' name us)
      fun a b _ => a = b :=
  (agrees_references hwrite hold h hpath hts).bind fun _ _ _ h₁ _ hwritten => .pure h₁ (by rw [hwritten])

theorem agrees_instantiation (h : Sides.Twins p s₀ c₀ k) (hpath : List.Forall₂ k.Types path path') (ht : k.Types t u)
    (symbol : Option Text) {ts us : List TypeId} (hts : List.Forall₂ k.Types ts us) :
    Agrees p s₀ c₀ k (instantiation setting write path t symbol ts) (instantiation setting write path' u symbol us)
      fun a b _ => a = b := by
  cases symbol with
  | none => exact agrees_verbatim hfree h ht _
  | some name =>
    cases hts with
    | nil => exact agrees_application hwrite hold h hpath name .nil
    | cons hfirst hrest =>
      unfold instantiation
      simp only
      split
      · exact agrees_arrayOf hfree hwrite hold h hpath hfirst
      split
      · exact agrees_application hwrite hold h hpath name (.cons (getLastD_types (.cons hfirst hrest) hfirst) .nil)
      · exact agrees_application hwrite hold h hpath name (.cons hfirst hrest)

/-- Fields are written from what properties of the same member have in common. -/
theorem agrees_field (hproject : setting.project = p) (h : Sides.Twins p s₀ c₀ k)
    (hpath : List.Forall₂ k.Types path path') (hq : k.Properties q q') :
    Agrees p s₀ c₀ k (field setting write path q) (field setting write path' q') fun a b _ => a = b := by
  obtain ⟨m, r, r', hr, hr'⟩ := h.first.property_alike h.second.toCharted hq.left hq.right hq.same
  have htyped : Agrees p s₀ c₀ k (typed setting write path { m with type := r } q)
      (typed setting write path' { m with type := r' } q') fun a b _ => a = b := by
    subst hproject
    refine (agrees_propertyType hfree h hq).bind fun t u l₁ h₁ hlater ht => ?_
    exact (agrees_reference hwrite hold h₁ (forall₂_mono hlater hpath) ht).bind
      fun _ _ _ h₂ _ hwritten => .pure h₂ (by rw [hwritten])
  intro layout s hrun
  rw [field_eq hr] at hrun
  obtain ⟨layout', l, hrun', hl, htwins, hlater, heq⟩ := htyped layout s hrun
  exact ⟨layout', l, by rw [field_eq hr']; exact hrun', hl, htwins, hlater, heq⟩

theorem agrees_body (hproject : setting.project = p) (h : Sides.Twins p s₀ c₀ k)
    (hpath : List.Forall₂ k.Types path path') {ids ids' : List PropertyId} (hids : List.Forall₂ k.Properties ids ids') :
    Agrees p s₀ c₀ k (body setting write path ids) (body setting write path' ids') fun a b _ => a = b := by
  have hempty : ids.isEmpty = ids'.isEmpty := by cases hids <;> rfl
  unfold body
  rw [hempty]
  split
  · exact .pure h rfl
  · exact (Agrees.mapM_eq h hids fun q q' l hq hl hlater =>
      agrees_field hfree hwrite hold hproject hl (forall₂_mono hlater hpath) (hq.mono hlater)).bind
        fun _ _ _ h₁ _ hfields => .pure h₁ (by rw [hfields])

omit hwrite hold in
theorem agrees_mergedProperties (hproject : setting.project = p) (h : Sides.Twins p s₀ c₀ k) (text : Text)
    {ts us : List TypeId} (hts : List.Forall₂ k.Types ts us) :
    Agrees p s₀ c₀ k (mergedProperties setting text ts) (mergedProperties setting text us)
      fun ids ids' l => List.Forall₂ l.Properties ids ids' := by
  subst hproject
  refine (Agrees.mapM (fun ids ids' l => List.Forall₂ l.Properties ids ids') ?_ h hts ?_).bind
    fun found found' l₁ h₁ _ hfound => ?_
  · exact fun ids ids' k l hlater hids => hids.imp fun _ _ hq => hq.mono hlater
  · intro t u l ht hl hlater
    refine (agrees_properties hfree hl (ht.mono hlater)).bind fun ids ids' l₁ h₁ hlater₁ hids => ?_
    have hempty : ids.isEmpty = ids'.isEmpty := by cases hids <;> rfl
    rw [hempty]
    split
    · refine (agrees_node hfree h₁ ((ht.mono hlater).mono hlater₁)).bind fun n m l₂ h₂ hlater₂ _ => ?_
      refine (agrees_report h₂ _ _).bind fun _ _ l₃ h₃ hlater₃ _ => .pure h₃ ?_
      exact hids.imp fun _ _ hq => (hq.mono hlater₂).mono hlater₃
    · exact .pure h₁ hids
  · have hall : List.Forall₂ l₁.Properties found.flatten found'.flatten := List.rel_flatten hfound
    intro ids s hrun
    cases hrun
    refine ⟨_, l₁, rfl, rfl, h₁, .refl l₁, ?_⟩
    exact withNewNames_alike hall (fun q q' hq => h₁.first.name_alike h₁.second.toCharted hq.left hq.right hq.same) []

theorem agrees_convertWith (hproject : setting.project = p) (h : Sides.Twins p s₀ c₀ k)
    (hpath : List.Forall₂ k.Types path path') (ht : k.Types t u) :
    Agrees p s₀ c₀ k (convertWith setting write path t) (convertWith setting write path' u) fun a b _ => a = b := by
  refine (agrees_node hfree h ht).bind fun n m l h₁ hlater hnode => ?_
  obtain ⟨hleft, hright⟩ := hnode.children_lt h₁
  obtain ⟨shape, text, symbol⟩ := n
  obtain ⟨shape', text', symbol'⟩ := m
  obtain ⟨ht, _, _, hshape, htext, hsymbol⟩ := hnode
  obtain rfl : text = text' := htext
  obtain rfl : symbol = symbol' := hsymbol
  -- both paths hold the type or neither does
  have hentered : List.Forall₂ l.Types (t :: path) (u :: path') := .cons ht (forall₂_mono hlater hpath)
  have henter {step step' : Converting Layout} (hstep : Agrees p s₀ c₀ l step step' fun a b _ => a = b) :
      Agrees p s₀ c₀ l (if path.contains t then verbatim t .recursive else step)
        (if path'.contains u then verbatim u .recursive else step') fun a b _ => a = b := by
    rw [contains_alike h₁ (forall₂_mono hlater hpath) ht]
    split
    · exact agrees_verbatim hfree h₁ ht _
    · exact hstep
  change shape.Alike l.chart.origin l.chart'.origin shape' at hshape
  cases hshape with
  | string => exact .pure h₁ rfl
  | number => exact .pure h₁ rfl
  | boolean => exact .pure h₁ rfl
  | template hspans => exact agrees_template hwrite hold h₁ (forall₂_mono hlater hpath) hleft hright hspans
  | @array element element' helement =>
    cases element with
    | none =>
      cases element' with
      | none => exact henter (agrees_verbatim hfree h₁ ht _)
      | some e' => cases helement
    | some e =>
      cases element' with
      | none => cases helement
      | some e' =>
        have he : l.Types e e' := ⟨hleft e List.mem_cons_self, hright e' List.mem_cons_self, Option.some.inj helement⟩
        exact henter (agrees_arrayOf hfree hwrite hold h₁ hentered he)
  | tuple helements =>
    exact henter ((agrees_references hwrite hold h₁ hentered (forall₂_types hleft hright helements)).bind
      fun _ _ _ h₂ _ hwritten => .pure h₂ (by rw [hwritten]))
  | instantiation harguments =>
    exact henter (agrees_instantiation hfree hwrite hold h₁ hentered ht symbol (forall₂_types hleft hright harguments))
  | object =>
    refine henter ?_
    subst hproject
    exact (agrees_properties hfree h₁ ht).bind fun ids ids' l₂ h₂ hlater₂ hids =>
      agrees_body hfree hwrite hold rfl h₂ (forall₂_mono hlater₂ hentered) hids
  | union hmembers =>
    exact henter ((agrees_references hwrite hold h₁ hentered (forall₂_types hleft hright hmembers)).bind
      fun _ _ _ h₂ _ hwritten => .pure h₂ (by rw [hwritten]))
  | intersection hmembers =>
    exact henter ((agrees_mergedProperties hfree hproject h₁ text (forall₂_types hleft hright hmembers)).bind
      fun ids ids' l₂ h₂ hlater₂ hids =>
        agrees_body hfree hwrite hold hproject h₂ (forall₂_mono hlater₂ hentered) hids)
  | other => exact henter (agrees_verbatim hfree h₁ ht _)

omit hwrite in
theorem agrees_convertIn (hproject : setting.project = p) (depth : Nat) : (convertIn setting depth).Agrees p s₀ c₀ := by
  induction depth with
  | zero => exact fun path path' t u k _ _ _ layout s hrun => by cases hrun
  | succ depth ih =>
    exact fun path path' t u k h hpath ht => agrees_convertWith hfree ih hold hproject h hpath ht

end

end WireSchema.TypeSpec
