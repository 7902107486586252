import Mathlib.Data.List.Forall2
import WireSchema.Proofs.Project.Resolved
import WireSchema.Proofs.Project.Extends
/-!
# Nodes that are alike

Nodes of two stores are alike if they differ in the identities only, and types
correspond if they were made for the same. Opening, distributing and joining
types that correspond gives types that correspond.
-/

namespace WireSchema

/-- The part of a template with something else interpolated. -/
def Span.map {α β : Type} (f : α → β) : Span α → Span β
  | .chunk t => .chunk t
  | .hole a => .hole (f a)

/-- What the node was made for. -/
def Chart.origin (c : Chart) (t : TypeId) : Origin := c.types t.index

/-- The member that the property was made for. -/
def Chart.member (c : Chart) (q : PropertyId) : Origin × Nat := c.properties q.index

/-- Kinds of nodes that refer to types of the same origins. -/
inductive Shape.Alike (f g : TypeId → Origin) : Shape → Shape → Prop where
  | string : Alike f g .string .string
  | number : Alike f g .number .number
  | boolean : Alike f g .boolean .boolean
  | template {spans spans' : List (Span TypeId)} : spans.map (Span.map f) = spans'.map (Span.map g) →
    Alike f g (.template spans) (.template spans')
  | array {t u : Option TypeId} : t.map f = u.map g → Alike f g (.array t) (.array u)
  | tuple {ts us : List TypeId} : ts.map f = us.map g → Alike f g (.tuple ts) (.tuple us)
  | instantiation {ts us : List TypeId} : ts.map f = us.map g → Alike f g (.instantiation ts) (.instantiation us)
  | object : Alike f g .object .object
  | union {ts us : List TypeId} : ts.map f = us.map g → Alike f g (.union ts) (.union us)
  | intersection {ts us : List TypeId} : ts.map f = us.map g → Alike f g (.intersection ts) (.intersection us)
  | other : Alike f g .other .other

/-- Nodes that differ in the identities of types only. -/
structure TypeNode.Alike (f g : TypeId → Origin) (n m : TypeNode) : Prop where
  shape : n.shape.Alike f g m.shape
  text : n.text = m.text
  symbol : n.symbol = m.symbol

section
variable {f g : TypeId → Origin} {n m : TypeNode}

theorem Shape.Alike.symm {a b : Shape} (h : a.Alike f g b) : b.Alike g f a := by
  cases h with
  | template h => exact .template h.symm
  | array h => exact .array h.symm
  | tuple h => exact .tuple h.symm
  | instantiation h => exact .instantiation h.symm
  | union h => exact .union h.symm
  | intersection h => exact .intersection h.symm
  | _ => constructor

theorem TypeNode.Alike.symm (h : n.Alike f g m) : m.Alike g f n := ⟨h.shape.symm, h.text.symm, h.symbol.symm⟩

theorem map_spanTypes {spans : List (Span TypeId)} (h : ∀ t ∈ spanTypes spans, f t = g t) :
    spans.map (Span.map f) = spans.map (Span.map g) := by
  refine List.map_congr_left fun span hspan => ?_
  cases span with
  | chunk t => rfl
  | hole t => rw [Span.map, Span.map, h t (Project.mem_spanTypes hspan)]

/-- A node is like itself where both sides know its types by the same origins. -/
theorem TypeNode.Alike.refl (h : ∀ t ∈ n.shape.children, f t = g t) : n.Alike f g n := by
  refine ⟨?_, rfl, rfl⟩
  cases hshape : n.shape with
  | template spans =>
    rw [hshape] at h
    exact .template (map_spanTypes h)
  | array element =>
    rw [hshape] at h
    refine .array ?_
    cases element with
    | none => rfl
    | some t => rw [Option.map_some, Option.map_some, h t List.mem_cons_self]
  | tuple ts =>
    rw [hshape] at h
    exact .tuple (List.map_congr_left h)
  | instantiation ts =>
    rw [hshape] at h
    exact .instantiation (List.map_congr_left h)
  | union ts =>
    rw [hshape] at h
    exact .union (List.map_congr_left h)
  | intersection ts =>
    rw [hshape] at h
    exact .intersection (List.map_congr_left h)
  | _ => constructor

theorem TypeNode.Alike.isUnion (h : n.Alike f g m) : n.isUnion = m.isUnion := by
  obtain ⟨shape, text, symbol⟩ := n
  obtain ⟨shape', text', symbol'⟩ := m
  have hshape : shape.Alike f g shape' := h.shape
  cases hshape <;> rfl

theorem TypeNode.Alike.unionMembers (h : n.Alike f g m) :
    (Shape.unionMembers? n).map (List.map f) = (Shape.unionMembers? m).map (List.map g) := by
  obtain ⟨shape, text, symbol⟩ := n
  obtain ⟨shape', text', symbol'⟩ := m
  have hshape : shape.Alike f g shape' := h.shape
  cases hshape with
  | union hmembers => exact congrArg some hmembers
  | _ => rfl

theorem TypeNode.Alike.intersectionMembers (h : n.Alike f g m) :
    (Shape.intersectionMembers? n).map (List.map f) = (Shape.intersectionMembers? m).map (List.map g) := by
  obtain ⟨shape, text, symbol⟩ := n
  obtain ⟨shape', text', symbol'⟩ := m
  have hshape : shape.Alike f g shape' := h.shape
  cases hshape with
  | intersection hmembers => exact congrArg some hmembers
  | _ => rfl

theorem TypeNode.Alike.anonymousUnion (h : n.Alike f g m) :
    (Shape.anonymousUnion? n).map (List.map f) = (Shape.anonymousUnion? m).map (List.map g) := by
  obtain ⟨shape, text, symbol⟩ := n
  obtain ⟨shape', text', symbol'⟩ := m
  have hshape : shape.Alike f g shape' := h.shape
  obtain rfl : symbol = symbol' := h.symbol
  cases hshape with
  | union hmembers =>
    cases symbol with
    | none => exact congrArg some hmembers
    | some name => rfl
  | _ => rfl

end

/-- Choosing first and mapping then is the same the other way round. -/
theorem choices_map {α β : Type} (f : α → β) (lists : List (List α)) :
    choices (lists.map (List.map f)) = (choices lists).map (List.map f) := by
  induction lists with
  | nil => rfl
  | cons options rest ih =>
    rw [List.map_cons, choices, choices, ih, List.map_flatMap, List.flatMap_map]
    simp only [List.map_map]
    rfl

/-- Lists that are the same in what their elements stand for, element by element. -/
theorem forall₂_of_map_eq {α β γ : Type} {f : α → γ} {g : β → γ} {as : List α} {bs : List β} {R : α → β → Prop}
    (h : as.map f = bs.map g) (hstep : ∀ a ∈ as, ∀ b ∈ bs, f a = g b → R a b) : List.Forall₂ R as bs := by
  induction as generalizing bs with
  | nil =>
    cases bs with
    | nil => exact .nil
    | cons b bs => cases h
  | cons a as ih =>
    cases bs with
    | nil => cases h
    | cons b bs =>
      obtain ⟨hhead, htail⟩ := List.cons.inj h
      exact .cons (hstep a List.mem_cons_self b List.mem_cons_self hhead)
        (ih htail fun a ha b hb => hstep a (List.mem_cons_of_mem _ ha) b (List.mem_cons_of_mem _ hb))

theorem map_eq_of_forall₂ {α β δ : Type} {F : α → δ} {G : β → δ} {as : List α} {bs : List β} {R : α → β → Prop}
    (h : List.Forall₂ R as bs) (hR : ∀ a b, R a b → F a = G b) : as.map F = bs.map G := by
  rw [← List.forall₂_eq_eq_eq, List.forall₂_map_left_iff, List.forall₂_map_right_iff]
  exact h.imp hR

/-- Lists whose elements correspond in one way correspond in every way that follows
from it. -/
theorem map_eq_of_map_eq {α β γ δ : Type} {f : α → γ} {g : β → γ} {F : α → δ} {G : β → δ} {as : List α} {bs : List β}
    (h : as.map f = bs.map g) (hstep : ∀ a ∈ as, ∀ b ∈ bs, f a = g b → F a = G b) : as.map F = bs.map G :=
  map_eq_of_forall₂ (forall₂_of_map_eq h hstep) fun _ _ => id

/-- Lists are the same in what their elements stand for if they are so place by place. -/
theorem map_eq_of_getElem? {α β δ : Type} {F : α → δ} {G : β → δ} {as : List α} {bs : List β}
    (hlength : as.length = bs.length) (h : ∀ (i : Nat) (a : α) (b : β), as[i]? = some a → bs[i]? = some b → F a = G b) :
    as.map F = bs.map G := by
  refine List.ext_getElem (by rw [List.length_map, List.length_map, hlength]) fun i hi hi' => ?_
  rw [List.length_map] at hi hi'
  rw [List.getElem_map, List.getElem_map]
  exact h i _ _ (List.getElem?_eq_getElem hi) (List.getElem?_eq_getElem hi')

/-! ## Types that correspond -/

/-- Types of the two stores that were made for the same have nodes that are alike,
up to the `n`-th of the first store. -/
def NodesAlike (s s' : Store) (f g : TypeId → Origin) (n : Nat) : Prop :=
  ∀ t u : TypeId, t.index < n → u.index < s'.types.size → f t = g u → (s.node t).Alike f g (s'.node u)

namespace Store

variable {s s' : Store} {f g : TypeId → Origin} {n : Nat} {ts us : List TypeId}

section
variable (hnodes : NodesAlike s s' f g n)
include hnodes

theorem opened_alike {o : TypeNode → Option (List TypeId)}
    (ho : ∀ n m : TypeNode, n.Alike f g m → (o n).map (List.map f) = (o m).map (List.map g)) (hts : Below n ts)
    (hus : Below s'.types.size us) (h : ts.map f = us.map g) : (s.opened o ts).map f = (s'.opened o us).map g := by
  rw [opened, opened, List.map_flatMap, List.map_flatMap, List.flatMap_def, List.flatMap_def]
  congr 1
  refine map_eq_of_map_eq h fun t ht u hu heq => ?_
  have hopened := ho _ _ (hnodes t u (hts t ht) (hus u hu) heq)
  cases hn : o (s.node t) with
  | none =>
    cases hm : o (s'.node u) with
    | none => exact congrArg (fun a => [a]) heq
    | some ms => rw [hn, hm] at hopened; cases hopened
  | some ns =>
    cases hm : o (s'.node u) with
    | none => rw [hn, hm] at hopened; cases hopened
    | some ms =>
      rw [hn, hm] at hopened
      exact Option.some.inj hopened

theorem joined_alike (hts : Below n ts) (hus : Below s'.types.size us) (h : ts.map f = us.map g) :
    (s.joined ts).map f = (s'.joined us).map g :=
  opened_alike hnodes (fun _ _ => TypeNode.Alike.intersectionMembers) hts hus h

theorem anyUnion_alike (hts : Below n ts) (hus : Below s'.types.size us) (h : ts.map f = us.map g) :
    s.anyUnion ts = s'.anyUnion us := by
  have hunions : (ts.map fun t => (s.node t).isUnion) = us.map fun u => (s'.node u).isUnion :=
    map_eq_of_map_eq h fun t ht u hu heq => (hnodes t u (hts t ht) (hus u hu) heq).isUnion
  have hany := congrArg (List.any · id) hunions
  simp only [List.any_map] at hany
  exact hany

theorem texts_alike (separator : Text) (hts : Below n ts) (hus : Below s'.types.size us) (h : ts.map f = us.map g) :
    s.texts separator ts = s'.texts separator us :=
  congrArg (Text.join separator)
    (map_eq_of_map_eq h fun t ht u hu heq => (hnodes t u (hts t ht) (hus u hu) heq).text)

variable (hs : s.Descends) (hs' : s'.Descends) (hn : n ≤ s.types.size)
include hs hs' hn

theorem options_alike (hts : Below n ts) (hus : Below s'.types.size us) (h : ts.map f = us.map g) :
    (s.options ts).map (List.map f) = (s'.options us).map (List.map g) := by
  rw [options, options, List.map_map, List.map_map]
  refine map_eq_of_map_eq (joined_alike hnodes hts hus h) fun t ht u hu heq => ?_
  have hopened := (hnodes t u (hts.joined hs hn t ht) (hus.joined hs' (Nat.le_refl _) u hu) heq).unionMembers
  simp only [Function.comp_apply]
  cases hn : Shape.unionMembers? (s.node t) with
  | none =>
    cases hm : Shape.unionMembers? (s'.node u) with
    | none => exact congrArg (fun a => [a]) heq
    | some ms => rw [hn, hm] at hopened; cases hopened
  | some ns =>
    cases hm : Shape.unionMembers? (s'.node u) with
    | none => rw [hn, hm] at hopened; cases hopened
    | some ms =>
      rw [hn, hm] at hopened
      exact Option.some.inj hopened

theorem chosen_alike (hts : Below n ts) (hus : Below s'.types.size us) (h : ts.map f = us.map g)
    (choice : List Nat) : (s.chosen ts choice).map f = (s'.chosen us choice).map g := by
  induction choice generalizing ts us with
  | nil => exact h
  | cons i rest ih =>
    refine ih (hts.chosen hs hn [i]) (hus.chosen hs' (Nat.le_refl _) [i]) ?_
    have hchoices := congrArg (·[i]?) (congrArg choices (options_alike hnodes hs hs' hn hts hus h))
    simp only [choices_map, List.getElem?_map] at hchoices
    cases hx : (choices (s.options ts))[i]? with
    | none =>
      rw [hx] at hchoices
      rw [Option.map_eq_none_iff.1 hchoices.symm]
      rfl
    | some xs =>
      rw [hx] at hchoices
      obtain ⟨ys, hys, heq⟩ := Option.map_eq_some_iff.1 hchoices.symm
      rw [hys]
      exact heq.symm

end

end Store

end WireSchema
