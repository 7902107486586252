import Mathlib.Algebra.GroupWithZero.Nat
import Mathlib.Algebra.Order.BigOperators.Group.Finset
import WireSchema.Proofs.Project.Resolved
import WireSchema.Proofs.Project.Listed
import WireSchema.TypeSpec.Converter
/-!
# What resolving costs

A price is set on all that a store has and on all that may still be made of it.
Resolving never adds to the sum, so it bounds what can ever be made. Unions and
intersections are free: distributing makes any number of them.

An alias is resolved once. The members of an interface become properties once,
and once more if it is met again while its properties are being found.
-/

namespace WireSchema

open Finset

/-! ## Prices -/

/-- A node for each type that the expression is made of, and a reference to each
but the expression itself. -/
def TypeExpr.price (e : TypeExpr) : Nat := 2 * e.size - 1

/-- The node is a union or an intersection. -/
def TypeNode.isMix (n : TypeNode) : Bool :=
  match n.shape with
  | .union _ => true
  | .intersection _ => true
  | _ => false

/-- A node and its references. -/
def TypeNode.price (n : TypeNode) : Nat := if n.isMix then 0 else n.shape.children.length + 1

/-- The type of a property: it is referred to, or it is still to be made. -/
def Resolution.price : Resolution → Nat
  | done _ => 1
  | pending _ e => 2 * e.size

namespace Project

variable (p : Project) (idle : List DeclarationId)

/-- How many types the members of an interface are made of. -/
def membersSize (d : DeclarationId) : Nat :=
  match p.body? d with
  | some (.interface _ _ members) => TypeExpr.sizeMembers members
  | _ => 0

/-- The properties that are still to be made. While an interface is idle, its
members may become properties twice. -/
def listingPrice : PropertyList → Nat
  | .listed _ => 0
  | .ofMembers _ members => 2 * TypeExpr.sizeMembers members
  | .ofInterface d => (if d ∈ idle then 4 else 2) * p.membersSize d

/-- A node with its properties. -/
def cellPrice (cell : TypeCell) : Nat := cell.node.price + p.listingPrice idle cell.properties

/-- How many types a declaration is made of. -/
def weightOf (d : DeclarationId) : Nat := ((p.declaration? d).map TypeSpec.declarationWeight).getD 0

/-- How many types the declarations are made of. -/
def weight : Nat := Store.total TypeSpec.declarationWeight (p.units.flatMap (·.declarations))

variable (s : Store)

/-- The nodes and what is to come of their properties. -/
def typesPrice : Nat := ∑ i ∈ range s.types.size, p.cellPrice idle (s.cell ⟨i⟩)

/-- The properties. -/
def propertiesPrice : Nat := ∑ i ∈ range s.properties.size, ((s.resolution? ⟨i⟩).map Resolution.price).getD 0

/-- The declarations that have not been asked for. -/
def declarationsPrice : Nat :=
  ∑ d ∈ p.declarationIds.toFinset, if (s.declared? d).isSome then 0 else 4 * p.weightOf d

/-- What there is and what may still be made. -/
def budget : Nat := p.typesPrice idle s + propertiesPrice s + p.declarationsPrice s

end Project

/-! ### Types of parts -/

section

theorem TypeExpr.price_succ (e : TypeExpr) : e.price + 1 = 2 * e.size := by
  have := e.size_pos
  unfold price
  omega

theorem TypeExpr.prices_eq (es : List TypeExpr) : (es.map price).sum + es.length = 2 * sizeAll es := by
  induction es with
  | nil => rfl
  | cons e rest ih =>
    have := e.price_succ
    rw [List.map_cons, List.sum_cons, List.length_cons, sizeAll]
    omega

theorem TypeExpr.sizeAll_holes (spans : List (Span TypeExpr)) : sizeAll (holes spans) = sizeSpans spans := by
  induction spans with
  | nil => rfl
  | cons span rest ih =>
    cases span with
    | chunk t => exact ih
    | hole e => rw [holes, sizeAll, sizeSpans, ih]

/-- An expression is dearer than its parts and the references to them. -/
theorem TypeExpr.prices_parts_lt (e : TypeExpr) : (e.parts.map price).sum + e.parts.length < e.price := by
  have hprice := e.price_succ
  suffices hsize : sizeAll e.parts + 1 ≤ e.size by
    rw [prices_eq]
    omega
  cases e with
  | template spans text => exact Nat.le_of_eq (congrArg (· + 1) (sizeAll_holes spans))
  | tuple elements text variadic => cases variadic <;> simp [parts, size, sizeAll]
  | _ => simp [parts, size, sizeAll]

end

namespace Project

variable {p : Project} {idle : List DeclarationId} {s : Store}

/-! ## How the budget changes -/

theorem budget_added (idle : List DeclarationId) (s : Store) (cell : TypeCell) :
    p.budget idle (s.added cell) = p.budget idle s + p.cellPrice idle cell := by
  have htypes : p.typesPrice idle (s.added cell) = p.typesPrice idle s + p.cellPrice idle cell := by
    rw [typesPrice, Store.size_added, sum_range_succ, Store.cell_added_self]
    congr 1
    exact sum_congr rfl fun i hi => by rw [Store.cell_added (mem_range.1 hi)]
  have hproperties : propertiesPrice (s.added cell) = propertiesPrice s := rfl
  have hdeclarations : p.declarationsPrice (s.added cell) = p.declarationsPrice s := rfl
  rw [budget, budget, htypes, hproperties, hdeclarations]
  omega

/-- A sum that changes at one place. -/
theorem sum_change {α : Type} [DecidableEq α] {f g : α → Nat} {S : Finset α} {a : α} (ha : a ∈ S)
    (h : ∀ b ∈ S, b ≠ a → f b = g b) : ∑ b ∈ S, f b + g a = ∑ b ∈ S, g b + f a := by
  have hf := add_sum_erase S f ha
  have hg := add_sum_erase S g ha
  have hrest : ∑ b ∈ S.erase a, f b = ∑ b ∈ S.erase a, g b :=
    sum_congr rfl fun b hb => h b (mem_of_mem_erase hb) (ne_of_mem_erase hb)
  omega

theorem declared?_declare_of_ne {d d' : DeclarationId} {id : TypeId} (h : d' ≠ d) :
    (s.declare d id).declared? d' = s.declared? d' := by
  rw [Store.declared?, Store.declare, List.lookup_cons, beq_eq_false_iff_ne.2 h]
  rfl

theorem budget_declare (idle : List DeclarationId) {d : DeclarationId} (hd : d ∈ p.declarationIds)
    (hnone : s.declared? d = none) (id : TypeId) :
    p.budget idle (s.declare d id) + 4 * p.weightOf d = p.budget idle s := by
  have hchange := sum_change (List.mem_toFinset.2 hd)
    (f := fun d' => if ((s.declare d id).declared? d').isSome then 0 else 4 * p.weightOf d')
    (g := fun d' => if (s.declared? d').isSome then 0 else 4 * p.weightOf d')
    fun d' _ hne => by simp only [declared?_declare_of_ne hne]
  simp only [declared?_declare_self, hnone, Option.isSome_some, Option.isSome_none, if_true, Bool.false_eq_true,
    if_false, Nat.add_zero] at hchange
  have htypes : p.typesPrice idle (s.declare d id) = p.typesPrice idle s := rfl
  have hproperties : propertiesPrice (s.declare d id) = propertiesPrice s := rfl
  rw [budget, budget, htypes, hproperties, declarationsPrice, declarationsPrice]
  omega

theorem budget_withProperty (idle : List DeclarationId) (s : Store) (context : Context) (m : Property TypeExpr) :
    p.budget idle (s.withProperty { m with type := .pending context m.type }) = p.budget idle s + 2 * m.type.size := by
  have hproperties : propertiesPrice (s.withProperty { m with type := .pending context m.type }) =
      propertiesPrice s + 2 * m.type.size := by
    have hsize : (s.withProperty { m with type := .pending context m.type }).properties.size = s.properties.size + 1 := by
      simp [Store.withProperty]
    rw [propertiesPrice, hsize, sum_range_succ]
    congr 1
    · refine sum_congr rfl fun i hi => ?_
      rw [Store.resolution?, Store.property?_withProperty s _ (mem_range.1 hi)]
      rfl
    · simp [Store.resolution?, Store.property?, Store.withProperty, Resolution.price]
  have htypes : p.typesPrice idle (s.withProperty { m with type := .pending context m.type }) = p.typesPrice idle s := rfl
  have hdeclarations : p.declarationsPrice (s.withProperty { m with type := .pending context m.type }) =
    p.declarationsPrice s := rfl
  rw [budget, budget, htypes, hproperties, hdeclarations]
  omega

theorem budget_settled (idle : List DeclarationId) {q : PropertyId} {r : Property Resolution}
    (hr : s.property? q = some r) (t : TypeId) :
    p.budget idle (settled s q t) + r.type.price = p.budget idle s + 1 := by
  have hq : q.index < s.properties.size := (Array.getElem?_eq_some_iff.1 hr).1
  have hsize : (settled s q t).properties.size = s.properties.size := by simp [settled]
  have hchange := sum_change (mem_range.2 hq) (f := fun i => (((settled s q t).resolution? ⟨i⟩).map Resolution.price).getD 0)
    (g := fun i => ((s.resolution? ⟨i⟩).map Resolution.price).getD 0) fun i _ hne => by
      have hne' : (⟨i⟩ : PropertyId) ≠ q := fun heq => hne (congrArg PropertyId.index heq)
      simp only [Store.resolution?, property?_settled, if_neg hne']
  have hself : (s.resolution? ⟨q.index⟩).map Resolution.price = some r.type.price := by
    rw [Store.resolution?, show s.property? ⟨q.index⟩ = some r from hr]
    rfl
  have hself' : ((settled s q t).resolution? ⟨q.index⟩).map Resolution.price = some 1 := by
    rw [Store.resolution?, show (settled s q t).property? ⟨q.index⟩ = _ from property?_settled_self hr t]
    rfl
  simp only [hself, hself', Option.getD_some] at hchange
  have htypes : p.typesPrice idle (settled s q t) = p.typesPrice idle s := rfl
  have hdeclarations : p.declarationsPrice (settled s q t) = p.declarationsPrice s := rfl
  rw [budget, budget, htypes, hdeclarations, propertiesPrice, propertiesPrice, hsize]
  omega

theorem budget_listing (idle : List DeclarationId) {t : TypeId} (ht : t.index < s.types.size) (ids : List PropertyId) :
    p.budget idle (s.listing t ids) + p.listingPrice idle (s.cell t).properties = p.budget idle s := by
  have hsize : (s.listing t ids).types.size = s.types.size := by simp [Store.listing]
  have hchange := sum_change (mem_range.2 ht) (f := fun i => p.cellPrice idle ((s.listing t ids).cell ⟨i⟩))
    (g := fun i => p.cellPrice idle (s.cell ⟨i⟩)) fun i _ hne => by
      have hne' : (⟨i⟩ : TypeId) ≠ t := fun heq => hne (congrArg TypeId.index heq)
      simp only [Store.cell_listing s ht, if_neg hne']
  have hself : p.cellPrice idle ((s.listing t ids).cell ⟨t.index⟩) = (s.cell t).node.price := by
    rw [Store.cell_listing s ht, if_pos rfl]
    rfl
  have hcell : p.cellPrice idle (s.cell ⟨t.index⟩) = (s.cell t).node.price + p.listingPrice idle (s.cell t).properties := rfl
  have hproperties : propertiesPrice (s.listing t ids) = propertiesPrice s := rfl
  have hdeclarations : p.declarationsPrice (s.listing t ids) = p.declarationsPrice s := rfl
  rw [budget, budget, hproperties, hdeclarations, typesPrice, typesPrice, hsize]
  omega

/-! ## Steps -/

end Project

namespace Store

/-- The properties of an interface are found from its own node only. -/
def Homes (s : Store) : Prop := ∀ t d, (s.cell t).properties = .ofInterface d → s.declared? d = some t

theorem cell_of_size_le {s : Store} {t : TypeId} (h : s.types.size ≤ t.index) : s.cell t = default := by
  rw [cell, Array.getD_eq_getD_getElem?, Array.getElem?_eq_none h]
  rfl

/-- A node is one of the store's, or the new one. -/
theorem cell_added_cases (s : Store) (cell : TypeCell) (t : TypeId) :
    (s.added cell).cell t = s.cell t ∨ t = ⟨s.types.size⟩ := by
  by_cases hlt : t.index < s.types.size
  · exact .inl (cell_added hlt)
  by_cases heq : t = ⟨s.types.size⟩
  · exact .inr heq
  have hne : t.index ≠ s.types.size := fun h => heq (by cases t; cases h; rfl)
  have hle : (s.added cell).types.size ≤ t.index := by
    rw [size_added]
    omega
  exact .inl (by rw [cell_of_size_le hle, cell_of_size_le (by omega)])

end Store

namespace Project

variable {p : Project} {idle : List DeclarationId} {s : Store} {d : DeclarationId}

theorem listingPrice_erase {listing : PropertyList} (h : listing ≠ .ofInterface d) :
    p.listingPrice (idle.erase d) listing = p.listingPrice idle listing := by
  cases listing with
  | ofInterface d' =>
    have hne : d' ≠ d := fun heq => h (by rw [heq])
    simp only [listingPrice, List.mem_erase_of_ne hne]
  | _ => rfl

theorem budget_erase_of_not (h : ∀ t, (s.cell t).properties ≠ .ofInterface d) :
    p.budget (idle.erase d) s = p.budget idle s := by
  have htypes : p.typesPrice (idle.erase d) s = p.typesPrice idle s :=
    sum_congr rfl fun i _ => congrArg _ (listingPrice_erase (h ⟨i⟩))
  rw [budget, budget, htypes]

/-- While the properties of an interface are being found, its members count once less. -/
theorem budget_erase (hnodup : idle.Nodup) (hd : d ∈ idle) (hs : s.Homes) {t : TypeId}
    (ht : (s.cell t).properties = .ofInterface d) :
    p.budget (idle.erase d) s + 2 * p.membersSize d = p.budget idle s := by
  have hlt : t.index < s.types.size := by
    refine Nat.lt_of_not_le fun hle => ?_
    rw [Store.cell_of_size_le hle] at ht
    cases ht
  have hchange := sum_change (mem_range.2 hlt) (f := fun i => p.cellPrice (idle.erase d) (s.cell ⟨i⟩))
    (g := fun i => p.cellPrice idle (s.cell ⟨i⟩)) fun i _ hne => by
      refine congrArg _ (listingPrice_erase fun hi => hne ?_)
      have hdeclared := hs t d ht
      rw [hs ⟨i⟩ d hi] at hdeclared
      exact congrArg TypeId.index (Option.some.inj hdeclared)
  have hleft : p.cellPrice (idle.erase d) (s.cell ⟨t.index⟩) = (s.cell t).node.price + 2 * p.membersSize d := by
    rw [cellPrice, show (s.cell ⟨t.index⟩).properties = _ from ht, listingPrice, if_neg hnodup.not_mem_erase]
  have hright : p.cellPrice idle (s.cell ⟨t.index⟩) = (s.cell t).node.price + 4 * p.membersSize d := by
    rw [cellPrice, show (s.cell ⟨t.index⟩).properties = _ from ht, listingPrice, if_pos hd]
  rw [budget, budget, typesPrice, typesPrice]
  omega

end Project

namespace Project

open Resolving

variable {p : Project} {closed idle : List DeclarationId} {s s' s'' : Store} {m n : Nat}

/-- The step costs no more than that. -/
structure Within (p : Project) (idle : List DeclarationId) (n : Nat) (s s' : Store) : Prop where
  size : s.types.size ≤ s'.types.size
  homes : s.Homes → s'.Homes
  declared : ∀ d id, s.declared? d = some id → s'.declared? d = some id
  budget : s.Homes → p.budget idle s' ≤ p.budget idle s + n

/-- The step costs no more than that, whichever interfaces are idle. It makes no
properties, and aliases that are not closed get no type. -/
structure Costs (p : Project) (closed : List DeclarationId) (n : Nat) (s s' : Store) : Prop where
  within : ∀ idle, p.Within idle n s s'
  properties : s'.properties = s.properties
  closes : ∀ d, p.IsAlias d → d ∉ closed → s.declared? d = none → s'.declared? d = none

namespace Within

theorem refl (s : Store) : p.Within idle 0 s s := ⟨Nat.le_refl _, id, fun _ _ h => h, fun _ => Nat.le_refl _⟩

theorem trans (h : p.Within idle m s s') (h' : p.Within idle n s' s'') : p.Within idle (m + n) s s'' where
  size := Nat.le_trans h.size h'.size
  homes hs := h'.homes (h.homes hs)
  declared d id hd := h'.declared d id (h.declared d id hd)
  budget hs := by
    have := h.budget hs
    have := h'.budget (h.homes hs)
    omega

theorem mono (h : p.Within idle m s s') (hmn : m ≤ n) : p.Within idle n s s' :=
  { h with budget := fun hs => Nat.le_trans (h.budget hs) (Nat.add_le_add_left hmn _) }

end Within

namespace Costs

theorem refl (s : Store) : p.Costs closed 0 s s := ⟨fun _ => .refl s, rfl, fun _ _ _ h => h⟩

theorem trans (h : p.Costs closed m s s') (h' : p.Costs closed n s' s'') : p.Costs closed (m + n) s s'' where
  within idle := (h.within idle).trans (h'.within idle)
  properties := h'.properties.trans h.properties
  closes d hd hout hnone := h'.closes d hd hout (h.closes d hd hout hnone)

theorem mono (h : p.Costs closed m s s') (hmn : m ≤ n) : p.Costs closed n s s' :=
  { h with within := fun idle => (h.within idle).mono hmn }

end Costs

/-- Steps of one price, one after the other. -/
theorem mapM_steps {α β : Type} {R : Nat → Store → Store → Prop} (hrefl : ∀ s, R 0 s s)
    (htrans : ∀ {m n s s' s''}, R m s s' → R n s' s'' → R (m + n) s s'') {f : α → Resolving β} {as : List α}
    (hstep : ∀ a ∈ as, ∀ s, R n s (f a s).2) (s : Store) : R (as.length * n) s (as.mapM f s).2 := by
  induction as generalizing s with
  | nil =>
    rw [List.length_nil, Nat.zero_mul]
    exact hrefl s
  | cons a as ih =>
    have hboth := htrans (hstep a List.mem_cons_self s) (ih (fun a' ha' => hstep a' (List.mem_cons_of_mem a ha')) _)
    rw [mapM_cons, List.length_cons, Nat.succ_mul, Nat.add_comm]
    exact hboth

theorem costs_events (closed : List DeclarationId) (s : Store) (events : List Event) : p.Costs closed 0 s { s with events } :=
  ⟨fun _ => ⟨Nat.le_refl _, id, fun _ _ h => h, fun _ => Nat.le_refl _⟩, rfl, fun _ _ _ h => h⟩

/-- A node that is not the one of an interface. -/
theorem costs_added (s : Store) {cell : TypeCell} (hplain : ∀ d, cell.properties ≠ .ofInterface d)
    (hprice : ∀ idle, p.cellPrice idle cell ≤ n) : p.Costs closed n s (s.added cell) where
  within idle :=
    { size := by simp
      homes := fun hs t d ht => by
        rcases s.cell_added_cases cell t with heq | rfl
        · rw [heq] at ht
          exact hs t d ht
        · rw [Store.cell_added_self] at ht
          exact absurd ht (hplain d)
      declared := fun _ _ h => h
      budget := fun _ => by
        have := hprice idle
        rw [budget_added]
        omega }
  properties := rfl
  closes _ _ _ h := h

/-- The declaration gets a type. What it is made of is paid for. -/
theorem Costs.declare {inner : List DeclarationId} {d : DeclarationId} (h : p.Costs inner n s s')
    (hinner : ∀ d', d' ∈ inner → d' ∈ closed) (hclosed : p.IsAlias d → d ∈ closed) (hd : d ∈ p.declarationIds)
    (hnone : s'.declared? d = none) (hpaid : n ≤ 4 * p.weightOf d) (id : TypeId) :
    p.Costs closed 0 s (s'.declare d id) where
  within idle :=
    { size := (h.within idle).size
      homes := fun hs t d' ht => declared?_declare hnone ((h.within idle).homes hs t d' ht)
      declared := fun d' id' hd' => declared?_declare hnone ((h.within idle).declared d' id' hd')
      budget := fun hs => by
        have := (h.within idle).budget hs
        have := budget_declare idle hd hnone id
        omega }
  properties := h.properties
  closes d' hd' hout hnone' := by
    have hne : d' ≠ d := by
      rintro rfl
      exact hout (hclosed hd')
    rw [declared?_declare_of_ne hne]
    exact h.closes d' hd' (fun hmem => hout (hinner d' hmem)) hnone'

/-! ## Intersections -/

theorem costs_mix {node : TypeNode} (hmix : node.isMix = true) (s : Store) :
    p.Costs closed 0 s (s.added { node }) := by
  refine costs_added s (fun d h => by cases h) fun idle => ?_
  rw [cellPrice, TypeNode.price, if_pos hmix]
  exact Nat.le_refl _

/-- What new unions and intersections do to the store, intersecting types does. -/
theorem makeIntersection_steps {R : Store → Store → Prop} (hrefl : ∀ s, R s s)
    (htrans : ∀ {s s' s''}, R s s' → R s' s'' → R s s'')
    (hmix : ∀ s {node : TypeNode}, node.isMix = true → R s (s.added { node })) (n : Nat) (types : List TypeId) (s : Store) :
    R s (makeIntersection n types s).2 := by
  induction n generalizing types s with
  | zero => exact hmix s rfl
  | succ n ih =>
    rw [makeIntersection_succ]
    split
    · apply htrans _ (hmix _ rfl)
      exact mapM_steps (R := fun _ => R) (n := 0) hrefl htrans (fun ts (_ : ts ∈ choices (s.options types)) => ih ts) s
    · exact hmix s rfl

/-- However many nodes an intersection takes, they are free. -/
theorem makeIntersection_costs (n : Nat) (types : List TypeId) (s : Store) :
    p.Costs closed 0 s (makeIntersection n types s).2 :=
  makeIntersection_steps Costs.refl (fun h h' => h.trans h') (fun s _ hmix => costs_mix hmix s) n types s

/-! ## How much there is -/

end Project

namespace Store

/-- The node, unless it is a union or an intersection, with the types it refers to. -/
def heldBy (s : Store) (t : TypeId) : List TypeId :=
  if (s.node t).isMix then [] else t :: (s.node t).shape.children

/-- All types that are no unions or intersections, and the types these refer to. -/
def held (s : Store) : List TypeId := (List.range s.types.size).flatMap fun i => s.heldBy ⟨i⟩

theorem length_heldBy (s : Store) (t : TypeId) : (s.heldBy t).length = (s.node t).price := by
  rw [heldBy, TypeNode.price]
  split <;> rfl

theorem mem_held {s : Store} {t u : TypeId} (ht : t.index < s.types.size) (hu : u ∈ s.heldBy t) : u ∈ s.held :=
  List.mem_flatMap.2 ⟨t.index, List.mem_range.2 ht, hu⟩

end Store

namespace Project

variable {p : Project}

theorem length_flatMap_range {α : Type} (f : Nat → List α) (n : Nat) :
    ((List.range n).flatMap f).length = ∑ i ∈ Finset.range n, (f i).length := by
  induction n with
  | zero => rfl
  | succ n ih => rw [List.range_succ, List.flatMap_append, List.length_append, ih, Finset.sum_range_succ]; simp

theorem length_held_le (idle : List DeclarationId) (s : Store) : s.held.length ≤ p.typesPrice idle s := by
  rw [Store.held, length_flatMap_range, typesPrice]
  refine Finset.sum_le_sum fun i _ => ?_
  rw [Store.length_heldBy]
  exact Nat.le_add_right _ _

theorem size_le_propertiesPrice (s : Store) : s.properties.size ≤ propertiesPrice s := by
  have hone : ∑ _ ∈ Finset.range s.properties.size, 1 = s.properties.size := by simp
  refine hone.symm.le.trans (Finset.sum_le_sum fun i hi => ?_)
  have hlt : i < s.properties.size := Finset.mem_range.1 hi
  have hr : s.property? ⟨i⟩ = some s.properties[i] := Array.getElem?_eq_getElem hlt
  rw [Store.resolution?, hr]
  simp only [Option.map_some, Option.getD_some]
  cases s.properties[i].type with
  | done t => exact Nat.le_refl 1
  | pending context e =>
    have := e.size_pos
    rw [Resolution.price]
    omega

end Project

end WireSchema
