import WireSchema.Layout.Sharing
import Mathlib.Data.List.Basic
/-!
# The directives that a layout asks for

Texts are totally ordered, so it does not matter in what order directives are
put into a list, nor how often. What a layout asks for are the namespaces of
its imported names, wherever they stand in it, except the scope's own.
-/

namespace WireSchema

namespace Text

section Order
variable {s t u : Text}

theorem le_cons_iff {c d : CodePoint} : le (c :: s) (d :: t) = true ↔ c.val < d.val ∨ c.val = d.val ∧ le s t = true := by
  simp only [le, Bool.or_eq_true, Bool.and_eq_true, decide_eq_true_eq, beq_iff_eq]

theorem le_total (s t : Text) : le s t = true ∨ le t s = true := by
  induction s generalizing t with
  | nil => exact .inl rfl
  | cons c s ih =>
    cases t with
    | nil => exact .inr rfl
    | cons d t =>
      rw [le_cons_iff, le_cons_iff]
      rcases Nat.lt_trichotomy c.val d.val with h | h | h
      · exact .inl (.inl h)
      · exact (ih t).imp (.inr ⟨h, ·⟩) (.inr ⟨h.symm, ·⟩)
      · exact .inr (.inl h)

theorem le_antisymm (h : le s t = true) (h' : le t s = true) : s = t := by
  induction s generalizing t with
  | nil =>
    cases t with
    | nil => rfl
    | cons d t => cases h'
  | cons c s ih =>
    cases t with
    | nil => cases h
    | cons d t =>
      rcases le_cons_iff.1 h with hlt | ⟨heq, h⟩
      · rcases le_cons_iff.1 h' with hlt' | ⟨heq', _⟩ <;> omega
      · have h' := (le_cons_iff.1 h').resolve_left (heq ▸ Nat.lt_irrefl _)
        rw [CodePoint.ext_val heq, ih h h'.2]

theorem le_trans (h : le s t = true) (h' : le t u = true) : le s u = true := by
  induction s generalizing t u with
  | nil => rfl
  | cons c s ih =>
    cases t with
    | nil => cases h
    | cons d t =>
      cases u with
      | nil => cases h'
      | cons e u =>
        rw [le_cons_iff] at h h' ⊢
        rcases h with hlt | ⟨heq, h⟩ <;> rcases h' with hlt' | ⟨heq', h'⟩
        · exact .inl (Nat.lt_trans hlt hlt')
        · exact .inl (heq' ▸ hlt)
        · exact .inl (heq ▸ hlt')
        · exact .inr ⟨heq.trans heq', ih h h'⟩

/-- The one text comes before the other. -/
def Before (s t : Text) : Prop := s ≠ t ∧ le s t = true

theorem Before.not_le (h : Before s t) : le t s = false :=
  Bool.eq_false_iff.2 fun hle => h.1 (le_antisymm h.2 hle)

theorem Before.trans (h : Before s t) (h' : Before t u) : Before s u := by
  refine ⟨?_, le_trans h.2 h'.2⟩
  rintro rfl
  rw [Before, h.not_le] at h'
  cases h'.2

theorem before_or_eq_or_before (s t : Text) : Before s t ∨ s = t ∨ Before t s := by
  by_cases heq : s = t
  · exact .inr (.inl heq)
  · rcases le_total s t with h | h
    · exact .inl ⟨heq, h⟩
    · exact .inr (.inr ⟨Ne.symm heq, h⟩)

end Order

end Text

namespace Scope

section Insert
variable {t u : Text} {rest usings : List Text}

theorem insertSorted_self (t : Text) (rest : List Text) : insertSorted t (t :: rest) = t :: rest := by
  rw [insertSorted, if_pos rfl]

theorem insertSorted_of_before (h : t.Before u) : insertSorted t (u :: rest) = t :: u :: rest := by
  rw [insertSorted, if_neg h.1, if_pos h.2]

theorem insertSorted_of_behind (h : u.Before t) : insertSorted t (u :: rest) = u :: insertSorted t rest := by
  rw [insertSorted, if_neg (Ne.symm h.1), if_neg (by rw [h.not_le]; decide)]

theorem mem_insertSorted : u ∈ insertSorted t usings ↔ u = t ∨ u ∈ usings := by
  induction usings with
  | nil => rw [insertSorted, List.mem_singleton, or_iff_left List.not_mem_nil]
  | cons v rest ih =>
    rcases t.before_or_eq_or_before v with h | rfl | h
    · rw [insertSorted_of_before h, List.mem_cons]
    · rw [insertSorted_self, or_iff_right_of_imp (fun h => h ▸ List.mem_cons_self)]
    · rw [insertSorted_of_behind h, List.mem_cons, List.mem_cons, ih, or_left_comm]

theorem insertSorted_idem (t : Text) (usings : List Text) :
    insertSorted t (insertSorted t usings) = insertSorted t usings := by
  induction usings with
  | nil => exact insertSorted_self t []
  | cons v rest ih =>
    rcases t.before_or_eq_or_before v with h | rfl | h
    · rw [insertSorted_of_before h, insertSorted_self]
    · rw [insertSorted_self, insertSorted_self]
    · rw [insertSorted_of_behind h, insertSorted_of_behind h, ih]

theorem insertSorted_comm_of_before (h : t.Before u) (usings : List Text) :
    insertSorted t (insertSorted u usings) = insertSorted u (insertSorted t usings) := by
  induction usings with
  | nil =>
    show insertSorted t [u] = insertSorted u [t]
    rw [insertSorted_of_before h, insertSorted_of_behind h, insertSorted]
  | cons v rest ih =>
    -- where `u` goes, and if it goes behind `v`, where `t` goes
    rcases u.before_or_eq_or_before v with hu | rfl | hu
    · rw [insertSorted_of_before hu, insertSorted_of_before h, insertSorted_of_before (h.trans hu),
        insertSorted_of_behind h, insertSorted_of_before hu]
    · rw [insertSorted_self, insertSorted_of_before h, insertSorted_of_behind h, insertSorted_self]
    · rw [insertSorted_of_behind hu]
      rcases t.before_or_eq_or_before v with ht | rfl | ht
      · rw [insertSorted_of_before ht, insertSorted_of_before ht, insertSorted_of_behind h, insertSorted_of_behind hu]
      · rw [insertSorted_self, insertSorted_self, insertSorted_of_behind hu]
      · rw [insertSorted_of_behind ht, insertSorted_of_behind ht, insertSorted_of_behind hu, ih]

theorem insertSorted_comm (t u : Text) (usings : List Text) :
    insertSorted t (insertSorted u usings) = insertSorted u (insertSorted t usings) := by
  rcases t.before_or_eq_or_before u with h | rfl | h
  · exact insertSorted_comm_of_before h usings
  · rfl
  · exact (insertSorted_comm_of_before h usings).symm

theorem pairwise_insertSorted (h : usings.Pairwise Text.Before) : (insertSorted t usings).Pairwise Text.Before := by
  induction usings with
  | nil => exact List.pairwise_singleton _ t
  | cons v rest ih =>
    obtain ⟨hv, hrest⟩ := List.pairwise_cons.1 h
    rcases t.before_or_eq_or_before v with ht | rfl | ht
    · rw [insertSorted_of_before ht, List.pairwise_cons]
      refine ⟨fun u hu => ?_, h⟩
      rcases List.mem_cons.1 hu with rfl | hu
      · exact ht
      · exact ht.trans (hv u hu)
    · rwa [insertSorted_self]
    · rw [insertSorted_of_behind ht, List.pairwise_cons]
      refine ⟨fun u hu => ?_, ih hrest⟩
      rcases mem_insertSorted.1 hu with rfl | hu
      · exact ht
      · exact hv u hu

end Insert

/-- Directives with more of them put in. -/
def collect (targets usings : List Text) : List Text := targets.foldl (fun all t => insertSorted t all) usings

section Collect
variable {t u : Text} {targets usings : List Text}

theorem mem_collect : u ∈ collect targets usings ↔ u ∈ usings ∨ u ∈ targets := by
  induction targets generalizing usings with
  | nil => rw [collect, List.foldl_nil, or_iff_left List.not_mem_nil]
  | cons t targets ih =>
    rw [collect, List.foldl_cons, ← collect, ih, mem_insertSorted, List.mem_cons, or_right_comm, or_comm]

theorem collect_insertSorted (t : Text) (targets usings : List Text) :
    collect targets (insertSorted t usings) = insertSorted t (collect targets usings) := by
  induction targets generalizing usings with
  | nil => rfl
  | cons u targets ih =>
    show collect targets (insertSorted u (insertSorted t usings)) = _
    rw [insertSorted_comm u t, ih]
    rfl

theorem collect_comm (first second usings : List Text) :
    collect first (collect second usings) = collect second (collect first usings) := by
  induction first generalizing usings with
  | nil => rfl
  | cons t first ih =>
    show collect first (insertSorted t (collect second usings)) = collect second (collect first (insertSorted t usings))
    rw [← collect_insertSorted, ih]

theorem collect_idem (targets usings : List Text) :
    collect targets (collect targets usings) = collect targets usings := by
  induction targets generalizing usings with
  | nil => rfl
  | cons t targets ih =>
    show collect targets (insertSorted t (collect targets (insertSorted t usings))) = collect targets (insertSorted t usings)
    rw [← collect_insertSorted, insertSorted_idem, ih]

theorem pairwise_collect (h : usings.Pairwise Text.Before) : (collect targets usings).Pairwise Text.Before := by
  induction targets generalizing usings with
  | nil => exact h
  | cons t targets ih => exact ih (pairwise_insertSorted h)

end Collect

/-- A namespace that a scope of the path needs a directive for. -/
def Foreign (path : List Text) (target : Text) : Prop := target ≠ [] ∧ target ≠ Text.join "." path

instance (path : List Text) (target : Text) : Decidable (Foreign path target) :=
  inferInstanceAs (Decidable (_ ∧ _))

theorem requireUsing_eq (s : Scope) (target : Text) : s.requireUsing target =
    if Foreign s.path target then { s with usings := insertSorted target s.usings } else s := by
  rw [requireUsing, name, ← ite_not]
  refine if_congr ?_ rfl rfl
  rw [Foreign, Bool.or_eq_true, List.isEmpty_iff, beq_iff_eq, not_or]

theorem foldl_requireUsing (s : Scope) (targets : List Text) :
    targets.foldl requireUsing s = { s with usings := collect (targets.filter (Foreign s.path ·)) s.usings } := by
  induction targets generalizing s with
  | nil => rfl
  | cons t targets ih =>
    rw [List.foldl_cons, ih, requireUsing_eq]
    by_cases h : Foreign s.path t
    · have hfilter := List.filter_cons_of_pos (p := (Foreign s.path ·)) (l := targets) (decide_eq_true h)
      rw [if_pos h, hfilter]
      rfl
    · have hfilter := List.filter_cons_of_neg (p := (Foreign s.path ·)) (l := targets) (by simpa using h)
      rw [if_neg h, hfilter]

end Scope

namespace Layout

open Scope

/-- A name in the layout, at any depth, needs a directive for the namespace. -/
inductive Imports (target : Text) : Layout → Prop where
  | imported (name : Text) : Imports target (.imported target name)
  | arranged {how : Arrangement} {parts : List Layout} {part : Layout} :
    part ∈ parts → Imports target part → Imports target (.arranged how parts)
  | template {start : Text} {values : List (Layout × Text)} {value : Layout × Text} :
    value ∈ values → Imports target value.1 → Imports target (.template start values)

section Attach
variable {t u : Text} {scope : Scope}

mutual

theorem mem_targets : ∀ layout : Layout, t ∈ layout.targets ↔ layout.Imports t
  | .text s => by
    rw [targets]
    refine iff_of_false List.not_mem_nil fun h => ?_
    cases h
  | .imported target name => by
    rw [targets, List.mem_singleton]
    constructor
    · rintro rfl
      exact .imported name
    · rintro ⟨⟩
      rfl
  | .arranged how parts => by
    rw [targets, mem_targetsAll parts]
    constructor
    · rintro ⟨part, hpart, himports⟩
      exact .arranged hpart himports
    · rintro ⟨⟩
      exact ⟨_, ‹_›, ‹_›⟩
  | .template start values => by
    rw [targets, mem_targetsValues values]
    constructor
    · rintro ⟨value, hvalue, himports⟩
      exact .template hvalue himports
    · rintro ⟨⟩
      exact ⟨_, ‹_›, ‹_›⟩

theorem mem_targetsAll : ∀ parts : List Layout, t ∈ targetsAll parts ↔ ∃ part ∈ parts, part.Imports t
  | [] => by simp [targetsAll]
  | part :: rest => by
    rw [targetsAll, List.mem_append, mem_targets part, mem_targetsAll rest, List.exists_mem_cons_iff]

theorem mem_targetsValues : ∀ values : List (Layout × Text), t ∈ targetsValues values ↔ ∃ value ∈ values, value.1.Imports t
  | [] => by simp [targetsValues]
  | (value, behind) :: rest => by
    rw [targetsValues, List.mem_append, mem_targets value, mem_targetsValues rest, List.exists_mem_cons_iff]

end

/-- What a scope of the path needs for the layout. -/
def needs (path : List Text) (layout : Layout) : List Text := layout.targets.filter (Foreign path ·)

theorem mem_needs {path : List Text} {layout : Layout} : u ∈ layout.needs path ↔ layout.Imports u ∧ Foreign path u := by
  rw [needs, List.mem_filter, mem_targets, decide_eq_true_eq]

theorem attach_eq (layout : Layout) (scope : Scope) :
    layout.attach scope = { scope with usings := collect (layout.needs scope.path) scope.usings } :=
  foldl_requireUsing scope layout.targets

theorem mem_attach {layout : Layout} : u ∈ (layout.attach scope).usings ↔
    u ∈ scope.usings ∨ layout.Imports u ∧ Foreign scope.path u := by
  rw [attach_eq, mem_collect, mem_needs]

theorem attach_idem (layout : Layout) (scope : Scope) : layout.attach (layout.attach scope) = layout.attach scope := by
  rw [attach_eq layout scope, attach_eq, collect_idem]

theorem attach_comm (layout other : Layout) (scope : Scope) :
    layout.attach (other.attach scope) = other.attach (layout.attach scope) := by
  rw [attach_eq other scope, attach_eq layout scope, attach_eq layout, attach_eq other, collect_comm]

theorem requireUsing_eq_attach (scope : Scope) (target : Text) :
    scope.requireUsing target = (imported target []).attach scope := rfl

theorem mem_requireUsing {target : Text} : u ∈ (scope.requireUsing target).usings ↔
    u ∈ scope.usings ∨ u = target ∧ Foreign scope.path u := by
  rw [requireUsing_eq_attach, mem_attach]
  refine or_congr_right (and_congr_left fun _ => ⟨?_, ?_⟩)
  · rintro ⟨⟩
    rfl
  · rintro rfl
    exact .imported []

end Attach

section Render
variable (seen : Option Scope)

mutual

theorem renderIn_eq : ∀ layout : Layout, layout.renderIn seen = layout.render
  | .text _ => rfl
  | .imported _ _ => rfl
  | .arranged how parts => by rw [renderIn, render, renderAllIn_eq parts]
  | .template start values => by rw [renderIn, render, renderValuesIn_eq start values]

theorem renderAllIn_eq : ∀ parts : List Layout, renderAllIn seen parts = renderAll parts
  | [] => rfl
  | part :: rest => by rw [renderAllIn, renderAll, renderIn_eq part, renderAllIn_eq rest]

theorem renderValuesIn_eq : ∀ (out : Text) (values : List (Layout × Text)),
    renderValuesIn seen out values = renderValues out values
  | out, [] => rfl
  | out, (value, behind) :: rest => by rw [renderValuesIn, renderValues, renderIn_eq value, renderValuesIn_eq _ rest]

end

theorem toText_eq (layout : Layout) : layout.toText seen = (layout.render, layout.attach (seen.getD {})) :=
  Prod.ext (renderIn_eq _ layout) rfl

end Render

end Layout

end WireSchema
