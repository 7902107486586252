import WireSchema.Proofs.Layout.Directives
/-!
# Attaching to scopes that share directives

An act keeps every scope that was made, with its namespace. What it asks for
reaches all scopes that keep their directives in the same set and no others, so
after any acts a scope has the directives it had and what was asked for at it
or at a scope it shares them with.
-/

namespace WireSchema

namespace Scopes

open Scope

/-- The scope with the number `i` is asked for the namespace. -/
def Act.Asks (i : Nat) (target : Text) : Act → Prop
  | .make _ | .child _ _ => False
  | .require k asked => k = i ∧ target = asked
  | .attach k layout => k = i ∧ layout.Imports target

/-- Two scopes keep their directives in one set. -/
def Shares (all : Scopes) (i j : Nat) : Prop :=
  ∃ holder other, all.holders[i]? = some holder ∧ all.holders[j]? = some other ∧ holder.kept = other.kept

/-- What is asked for at `i` becomes a directive of `j`. -/
def Reaches (all : Scopes) (i j : Nat) (target : Text) : Prop :=
  all.Shares i j ∧ ∃ holder, all.holders[i]? = some holder ∧ Foreign holder.path target

section Inversion
variable {all next : Scopes} {holder : Holder} {scope : Scope} {usings : List Text} {i j : Nat}
variable {change : Scope → Scope} {name : Text}

theorem scope?_eq_some_iff : all.scope? i = some scope ↔
    ∃ holder, all.holders[i]? = some holder ∧ holder.path = scope.path ∧ all.sets[holder.kept]? = some scope.usings := by
  simp only [scope?, Option.bind_eq_bind, Option.bind_eq_some_iff, Option.pure_def, Option.some.injEq]
  constructor
  · rintro ⟨holder, hholder, usings, husings, rfl⟩
    exact ⟨holder, hholder, rfl, husings⟩
  · rintro ⟨holder, hholder, hpath, husings⟩
    exact ⟨holder, hholder, _, husings, by rw [hpath]⟩

theorem exists_usings (h : all.holders[i]? = some holder) : ∃ usings, all.sets[holder.kept]? = some usings :=
  ⟨_, List.getElem?_eq_getElem (all.bounded holder (List.mem_of_getElem? h))⟩

theorem update_eq_some_iff : all.update i change = some next ↔
    ∃ holder usings, all.holders[i]? = some holder ∧ all.sets[holder.kept]? = some usings ∧
      next.holders = all.holders ∧ next.sets = all.sets.set holder.kept (change { path := holder.path, usings }).usings := by
  simp only [update, Option.bind_eq_bind, Option.bind_eq_some_iff, Option.pure_def, Option.some.injEq]
  constructor
  · rintro ⟨holder, hholder, usings, husings, rfl⟩
    exact ⟨holder, usings, hholder, husings, rfl, rfl⟩
  · rintro ⟨holder, usings, hholder, husings, hholders, hsets⟩
    exact ⟨holder, hholder, usings, husings, Scopes.ext hsets.symm hholders.symm⟩

theorem makeChild_eq_some_iff : all.makeChild i name = some next ↔
    ∃ holder, all.holders[i]? = some holder ∧ next.sets = all.sets ∧
      next.holders = all.holders ++ [{ holder with path := holder.path ++ [name] }] := by
  rw [makeChild]
  split
  next hnone =>
    refine iff_of_false nofun ?_
    rintro ⟨holder, hholder, _⟩
    rw [hnone] at hholder
    cases hholder
  next holder hholder =>
    rw [Option.some.injEq]
    constructor
    · rintro rfl
      exact ⟨holder, hholder, rfl, rfl⟩
    · rintro ⟨other, hother, hsets, hholders⟩
      cases hholder.symm.trans hother
      exact Scopes.ext hsets.symm hholders.symm

end Inversion

section Reach
variable {all next : Scopes} {holder other : Holder} {i j : Nat} {u : Text}

theorem reaches_iff (hi : all.holders[i]? = some holder) (hj : all.holders[j]? = some other) :
    all.Reaches i j u ↔ holder.kept = other.kept ∧ Foreign holder.path u := by
  constructor
  · rintro ⟨⟨first, second, hfirst, hsecond, hkept⟩, third, hthird, hforeign⟩
    cases hi.symm.trans hfirst
    cases hi.symm.trans hthird
    cases hj.symm.trans hsecond
    exact ⟨hkept, hforeign⟩
  · rintro ⟨hkept, hforeign⟩
    exact ⟨⟨holder, other, hi, hj, hkept⟩, holder, hi, hforeign⟩

/-- Scopes that share see the same. -/
theorem Shares.usings_eq {scope scope' : Scope} (h : all.Shares i j) (hi : all.scope? i = some scope)
    (hj : all.scope? j = some scope') : scope.usings = scope'.usings := by
  obtain ⟨first, second, hfirst, hsecond, hkept⟩ := h
  obtain ⟨holder, hholder, -, husings⟩ := scope?_eq_some_iff.1 hi
  obtain ⟨other, hother, -, husings'⟩ := scope?_eq_some_iff.1 hj
  cases hfirst.symm.trans hholder
  cases hsecond.symm.trans hother
  rw [hkept, husings'] at husings
  exact (Option.some.inj husings).symm

end Reach

/-! ## One act -/

section Act
variable {all next : Scopes} {holder : Holder} {scope : Scope} {i j : Nat} {u : Text} {a : Act}
variable {change : Scope → Scope}

/-- The scopes stay, with their numbers and namespaces. -/
theorem act_holders (h : all.act a = some next) : all.holders <+: next.holders := by
  cases a with
  | make path =>
    cases h
    exact List.prefix_append _ _
  | child i name =>
    obtain ⟨holder, -, -, hholders⟩ := makeChild_eq_some_iff.1 h
    exact hholders ▸ List.prefix_append _ _
  | require i target =>
    rw [act] at h
    obtain ⟨-, -, -, -, hholders, -⟩ := update_eq_some_iff.1 h
    exact hholders ▸ List.prefix_refl _
  | attach i layout =>
    obtain ⟨-, -, -, -, hholders, -⟩ := update_eq_some_iff.1 h
    exact hholders ▸ List.prefix_refl _

theorem holder_of_prefix (h : all.holders <+: next.holders) (hi : all.holders[i]? = some holder) :
    next.holders[i]? = some holder := by
  obtain ⟨rest, hrest⟩ := h
  rw [← hrest, List.getElem?_append_left (List.getElem?_eq_some_iff.1 hi).1, hi]

theorem Act.Asks.made (hasks : a.Asks i u) (h : all.act a = some next) : ∃ holder, all.holders[i]? = some holder := by
  cases a with
  | make path => cases hasks
  | child k name => cases hasks
  | require k target =>
    rw [act] at h
    obtain ⟨holder, -, hholder, -⟩ := update_eq_some_iff.1 h
    exact ⟨holder, hasks.1 ▸ hholder⟩
  | attach k layout =>
    obtain ⟨holder, -, hholder, -⟩ := update_eq_some_iff.1 h
    exact ⟨holder, hasks.1 ▸ hholder⟩

/-- What a changed scope has more is what it was asked for and what reaches it. -/
theorem scope?_update {P : Text → Prop} (h : all.update i change = some next)
    (hchange : ∀ s u, u ∈ (change s).usings ↔ u ∈ s.usings ∨ P u ∧ Foreign s.path u) (hj : all.scope? j = some scope) :
    ∃ usings, next.scope? j = some { scope with usings } ∧ ∀ u, u ∈ usings ↔ u ∈ scope.usings ∨ P u ∧ all.Reaches i j u := by
  obtain ⟨holder, usings, hholder, husings, hholders, hsets⟩ := update_eq_some_iff.1 h
  obtain ⟨other, hother, hpath, husings'⟩ := scope?_eq_some_iff.1 hj
  by_cases hkept : holder.kept = other.kept
  · have heq : usings = scope.usings := Option.some.inj (husings.symm.trans (hkept ▸ husings'))
    refine ⟨(change { path := holder.path, usings }).usings, scope?_eq_some_iff.2 ⟨other, hholders ▸ hother, hpath, ?_⟩,
      fun u => ?_⟩
    · have hlt : holder.kept < all.sets.length := (List.getElem?_eq_some_iff.1 husings).1
      rw [hsets, ← hkept, List.getElem?_set_self hlt]
    · rw [hchange, reaches_iff hholder hother, and_iff_right hkept, heq]
  · refine ⟨scope.usings, scope?_eq_some_iff.2 ⟨other, hholders ▸ hother, hpath, ?_⟩, fun u => ?_⟩
    · rw [hsets, List.getElem?_set_ne hkept, husings']
    · rw [reaches_iff hholder hother, or_iff_left fun h => hkept h.2.1]

/-- An act leaves a scope its directives, and adds what was asked for and reaches it. -/
theorem scope?_act (h : all.act a = some next) (hj : all.scope? j = some scope) :
    ∃ usings, next.scope? j = some { scope with usings } ∧
      ∀ u, u ∈ usings ↔ u ∈ scope.usings ∨ ∃ i, a.Asks i u ∧ all.Reaches i j u := by
  obtain ⟨holder, hholder, hpath, husings⟩ := scope?_eq_some_iff.1 hj
  have hlt : holder.kept < all.sets.length := (List.getElem?_eq_some_iff.1 husings).1
  have hholder' : next.holders[j]? = some holder := holder_of_prefix (act_holders h) hholder
  cases a with
  | make path =>
    cases h
    refine ⟨scope.usings, scope?_eq_some_iff.2 ⟨holder, hholder', hpath, ?_⟩, fun u => ?_⟩
    · rw [make, List.getElem?_append_left hlt, husings]
    · exact (or_iff_left (fun ⟨_, hasks, _⟩ => hasks)).symm
  | child k name =>
    obtain ⟨-, -, hsets, -⟩ := makeChild_eq_some_iff.1 h
    refine ⟨scope.usings, scope?_eq_some_iff.2 ⟨holder, hholder', hpath, hsets ▸ husings⟩, fun u => ?_⟩
    exact (or_iff_left (fun ⟨_, hasks, _⟩ => hasks)).symm
  | require k target =>
    rw [act] at h
    obtain ⟨usings, hnext, hmem⟩ := scope?_update h (fun _ _ => Layout.mem_requireUsing) hj
    exact ⟨usings, hnext, fun u => by simp only [hmem, Act.Asks, and_assoc, exists_eq_left']⟩
  | attach k layout =>
    obtain ⟨usings, hnext, hmem⟩ := scope?_update (P := layout.Imports) h (fun _ _ => Layout.mem_attach) hj
    exact ⟨usings, hnext, fun u => by simp only [hmem, Act.Asks, and_assoc, exists_eq_left']⟩

/-- A scope for a namespace inside another one shares its directives with it. -/
theorem child_shares {name : Text} (h : all.act (.child i name) = some next) :
    next.Shares i all.holders.length ∧ ∃ parent, next.scope? i = some parent ∧
      next.scope? all.holders.length = some (parent.child name) := by
  have hprefix := act_holders h
  obtain ⟨holder, hholder, hsets, hholders⟩ := makeChild_eq_some_iff.1 h
  obtain ⟨usings, husings⟩ := exists_usings hholder
  rw [← hsets] at husings
  have hparent : next.holders[i]? = some holder := holder_of_prefix hprefix hholder
  have hchild : next.holders[all.holders.length]? = some { holder with path := holder.path ++ [name] } := by
    rw [hholders, List.getElem?_concat_length]
  refine ⟨⟨holder, _, hparent, hchild, rfl⟩, { path := holder.path, usings }, ?_, ?_⟩
  · exact scope?_eq_some_iff.2 ⟨holder, hparent, rfl, husings⟩
  · exact scope?_eq_some_iff.2 ⟨_, hchild, rfl, husings⟩

end Act

/-! ## All acts -/

section Run
variable {before after : Scopes} {holder : Holder} {scope : Scope} {i j : Nat} {u : Text} {acts : List Act} {a : Act}

theorem run_cons : before.run (a :: acts) = some after ↔
    ∃ next, before.act a = some next ∧ next.run acts = some after := by
  rw [run, List.foldlM_cons]
  exact Option.bind_eq_some_iff

theorem run_holders (h : before.run acts = some after) : before.holders <+: after.holders := by
  induction acts generalizing before with
  | nil =>
    cases h
    exact List.prefix_refl _
  | cons a acts ih =>
    obtain ⟨next, hact, hrun⟩ := run_cons.1 h
    exact (act_holders hact).trans (ih hrun)

theorem holder_run (h : before.run acts = some after) (hi : before.holders[i]? = some holder) :
    after.holders[i]? = some holder :=
  holder_of_prefix (run_holders h) hi

theorem Shares.run (h : before.run acts = some after) (hshares : before.Shares i j) : after.Shares i j := by
  obtain ⟨holder, other, hi, hj, hkept⟩ := hshares
  exact ⟨holder, other, holder_run h hi, holder_run h hj, hkept⟩

/-- What was asked for reaches the same scopes later. -/
theorem reaches_run (h : before.run acts = some after) (hi : ∃ holder, before.holders[i]? = some holder)
    (hj : ∃ holder, before.holders[j]? = some holder) : after.Reaches i j u ↔ before.Reaches i j u := by
  obtain ⟨holder, hi⟩ := hi
  obtain ⟨other, hj⟩ := hj
  rw [reaches_iff hi hj, reaches_iff (holder_run h hi) (holder_run h hj)]

theorem scope?_run (h : before.run acts = some after) (hj : before.scope? j = some scope) :
    ∃ usings, after.scope? j = some { scope with usings } ∧
      ∀ u, u ∈ usings ↔ u ∈ scope.usings ∨ ∃ a ∈ acts, ∃ i, a.Asks i u ∧ after.Reaches i j u := by
  induction acts generalizing before scope with
  | nil =>
    cases h
    refine ⟨scope.usings, hj, fun u => (or_iff_left ?_).symm⟩
    rintro ⟨a, ha, -⟩
    cases ha
  | cons a acts ih =>
    obtain ⟨next, hact, hrun⟩ := run_cons.1 h
    obtain ⟨usings, hnext, hmem⟩ := scope?_act hact hj
    obtain ⟨usings', hafter, hmem'⟩ := ih hrun hnext
    have hholder : ∃ holder, before.holders[j]? = some holder :=
      (scope?_eq_some_iff.1 hj).imp fun _ h => h.1
    have hreaches : ∀ u, (∃ i, a.Asks i u ∧ after.Reaches i j u) ↔ ∃ i, a.Asks i u ∧ before.Reaches i j u :=
      fun u => exists_congr fun i => and_congr_right fun hasks => reaches_run h (hasks.made hact) hholder
    exact ⟨usings', hafter, fun u => by rw [hmem', hmem, List.exists_mem_cons_iff, hreaches, or_assoc]⟩

theorem child_run {name : Text} (h : before.run (.child i name :: acts) = some after) :
    ∃ parent, after.scope? i = some parent ∧ after.scope? before.holders.length = some (parent.child name) := by
  obtain ⟨next, hact, hrun⟩ := run_cons.1 h
  obtain ⟨hshares, parent, hparent, hchild⟩ := child_shares hact
  obtain ⟨usings, hparent, -⟩ := scope?_run hrun hparent
  obtain ⟨usings', hchild, -⟩ := scope?_run hrun hchild
  have heq : usings = usings' := (hshares.run hrun).usings_eq hparent hchild
  exact ⟨_, hparent, heq ▸ hchild⟩

end Run

/-! ## Attaching once, twice and in another order -/

section Attach
variable {all next : Scopes} {holder : Holder} {usings : List Text} {i j : Nat} {layout other : Layout}

/-- What attaching does, and that it does it only if the scope was made. -/
theorem attach_eq_some_iff : all.act (.attach i layout) = some next ↔
    ∃ holder usings, all.holders[i]? = some holder ∧ all.sets[holder.kept]? = some usings ∧
      next.holders = all.holders ∧ next.sets = all.sets.set holder.kept (collect (layout.needs holder.path) usings) := by
  simp only [act, update_eq_some_iff, Layout.attach_eq]

theorem exists_attach (layout : Layout) (hholder : all.holders[i]? = some holder)
    (husings : all.sets[holder.kept]? = some usings) :
    ∃ next, all.act (.attach i layout) = some next ∧ next.holders = all.holders ∧
      next.sets = all.sets.set holder.kept (collect (layout.needs holder.path) usings) := by
  refine ⟨⟨all.sets.set _ _, all.holders, ?_⟩, attach_eq_some_iff.2 ⟨_, usings, hholder, husings, rfl, rfl⟩, rfl, rfl⟩
  rw [List.length_set]
  exact all.bounded

theorem attach_again (h : all.act (.attach i layout) = some next) : next.act (.attach i layout) = some next := by
  obtain ⟨holder, usings, hholder, husings, hholders, hsets⟩ := attach_eq_some_iff.1 h
  have hlt : holder.kept < all.sets.length := (List.getElem?_eq_some_iff.1 husings).1
  refine attach_eq_some_iff.2 ⟨holder, collect (layout.needs holder.path) usings, hholders ▸ hholder, ?_, rfl, ?_⟩
  · rw [hsets, List.getElem?_set_self hlt]
  · rw [hsets, List.set_set, collect_idem]

theorem scope?_attach (h : all.act (.attach i layout) = some next) :
    ∃ scope, all.scope? i = some scope ∧ next.scope? i = some (layout.attach scope) := by
  obtain ⟨holder, usings, hholder, husings, hholders, hsets⟩ := attach_eq_some_iff.1 h
  have hlt : holder.kept < all.sets.length := (List.getElem?_eq_some_iff.1 husings).1
  refine ⟨{ path := holder.path, usings }, scope?_eq_some_iff.2 ⟨holder, hholder, rfl, husings⟩, ?_⟩
  rw [Layout.attach_eq]
  exact scope?_eq_some_iff.2 ⟨holder, hholders ▸ hholder, rfl, by rw [hsets, List.getElem?_set_self hlt]⟩

/-- Scopes that do not share with the one attached to stay as they are. -/
theorem scope?_attach_of_not_shares (h : all.act (.attach i layout) = some next) (hshares : ¬all.Shares i j) :
    next.scope? j = all.scope? j := by
  obtain ⟨holder, usings, hholder, husings, hholders, hsets⟩ := attach_eq_some_iff.1 h
  rw [scope?, scope?, hholders]
  cases hj : all.holders[j]? with
  | none => rfl
  | some other =>
    have hkept : holder.kept ≠ other.kept := fun hkept => hshares ⟨holder, other, hholder, hj, hkept⟩
    simp only [Option.bind_eq_bind, Option.bind_some, hsets, List.getElem?_set_ne hkept]

theorem attach_swap (h : all.run [.attach i layout, .attach j other] = some next) :
    all.run [.attach j other, .attach i layout] = some next := by
  obtain ⟨middle, hfirst, hrest⟩ := run_cons.1 h
  obtain ⟨last, hsecond, hlast⟩ := run_cons.1 hrest
  cases hlast
  obtain ⟨holder, usings, hi, husings, hholders, hsets⟩ := attach_eq_some_iff.1 hfirst
  obtain ⟨holder', usings', hj, husings', hholders', hsets'⟩ := attach_eq_some_iff.1 hsecond
  rw [hholders] at hj hholders'
  rw [hsets] at husings' hsets'
  obtain ⟨start, hstart⟩ := exists_usings hj
  obtain ⟨middle', hfirst', hmiddle, hmiddleSets⟩ := exists_attach other hj hstart
  have hlt : holder.kept < all.sets.length := (List.getElem?_eq_some_iff.1 husings).1
  refine run_cons.2 ⟨middle', hfirst', run_cons.2 ⟨next, ?_, rfl⟩⟩
  by_cases hkept : holder.kept = holder'.kept
  · -- both are put into one set, the one behind the other
    rw [← hkept, List.getElem?_set_self hlt, Option.some.injEq] at husings'
    rw [← hkept, husings, Option.some.injEq] at hstart
    refine attach_eq_some_iff.2 ⟨holder, collect (other.needs holder'.path) usings, hmiddle ▸ hi, ?_,
      by rw [hholders', hmiddle], ?_⟩
    · rw [hmiddleSets, ← hkept, List.getElem?_set_self hlt, hstart]
    · rw [hsets', hmiddleSets, ← hkept, List.set_set, List.set_set, ← husings', collect_comm]
  · rw [List.getElem?_set_ne hkept, hstart, Option.some.injEq] at husings'
    refine attach_eq_some_iff.2 ⟨holder, usings, hmiddle ▸ hi, ?_, by rw [hholders', hmiddle], ?_⟩
    · rw [hmiddleSets, List.getElem?_set_ne (Ne.symm hkept), husings]
    · rw [hsets', hmiddleSets, List.set_comm _ _ hkept, husings']

end Attach

/-- Attaching collects the directives that a layout needs, and nothing else comes
of it. A scope gets those of its imported names' namespaces that are neither
empty nor its own, at whatever depth the names stand and whether or not they are
printed; attaching once more changes nothing, and the order of two layouts does
not matter. Of scopes that share directives each sees what was asked for at any
of them, whatever else is done in between, and a scope made inside another one
shares with it. What is printed does not depend on scopes. -/
theorem attaching_exact (layout other : Layout) :
    (∀ scope : Scope,
      (layout.attach scope).path = scope.path ∧
      (∀ u, u ∈ (layout.attach scope).usings ↔
        u ∈ scope.usings ∨ layout.Imports u ∧ u ≠ [] ∧ u ≠ scope.name) ∧
      (scope.usings.Pairwise Text.Before → (layout.attach scope).usings.Pairwise Text.Before) ∧
      layout.attach (layout.attach scope) = layout.attach scope ∧
      layout.attach (other.attach scope) = other.attach (layout.attach scope)) ∧
    (∀ seen : Option Scope, layout.renderIn seen = layout.render ∧
      layout.toText seen = (layout.render, layout.attach (seen.getD {}))) ∧
    (∀ (all : Scopes) (i : Nat), i < all.holders.length → ∃ next scope,
      all.act (.attach i layout) = some next ∧ next.act (.attach i layout) = some next ∧
      all.scope? i = some scope ∧ next.scope? i = some (layout.attach scope) ∧
      ∀ j, ¬all.Shares i j → next.scope? j = all.scope? j) ∧
    (∀ (all : Scopes) (i j : Nat),
      all.run [.attach i layout, .attach j other] = all.run [.attach j other, .attach i layout]) ∧
    (∀ (before after : Scopes) (acts : List Act), before.run acts = some after →
      (∀ j scope, before.scope? j = some scope → ∃ usings, after.scope? j = some { scope with usings } ∧
        ∀ u, u ∈ usings ↔ u ∈ scope.usings ∨ ∃ a ∈ acts, ∃ i, a.Asks i u ∧ after.Reaches i j u) ∧
      (∀ i j scope scope', after.Shares i j → after.scope? i = some scope → after.scope? j = some scope' →
        scope.usings = scope'.usings)) ∧
    (∀ (before after : Scopes) (i : Nat) (name : Text) (acts : List Act),
      before.run (.child i name :: acts) = some after → ∃ parent, after.scope? i = some parent ∧
        after.scope? before.holders.length = some (parent.child name)) := by
  refine ⟨fun scope => ⟨?_, fun u => Layout.mem_attach, ?_, Layout.attach_idem layout scope,
    Layout.attach_comm layout other scope⟩, fun seen => ⟨Layout.renderIn_eq seen layout, Layout.toText_eq seen layout⟩,
    fun all i hi => ?_, fun all i j => Option.ext fun next => ⟨attach_swap, attach_swap⟩,
    fun before after acts hrun => ⟨fun j scope => scope?_run hrun, fun i j scope scope' => Shares.usings_eq⟩,
    fun before after i name acts => child_run⟩
  · rw [Layout.attach_eq]
  · rw [Layout.attach_eq]
    exact pairwise_collect
  · have hholder := List.getElem?_eq_getElem hi
    obtain ⟨usings, husings⟩ := exists_usings hholder
    obtain ⟨next, hact, -, -⟩ := exists_attach layout hholder husings
    obtain ⟨scope, hscope, hnext⟩ := scope?_attach hact
    exact ⟨next, scope, hact, attach_again hact, hscope, hnext, fun j => scope?_attach_of_not_shares hact⟩

/-- A part that is not printed is attached to the inner scope and asks for a
directive of the outer one. -/
theorem attaching_exact_unprinted :
    let layout := Layout.stanzas [.template " " [(.imported "Http" "", " ")], .text "x"]
    layout.render = "x" ∧
    ∃ after usings,
      (make .empty ["Api"]).run [.child 0 "V1", .attach 1 layout, .require 0 "Api"] = some after ∧
      after.scope? 0 = some { path := ["Api"], usings } ∧ Text.ofString "Http" ∈ usings := by
  intro layout
  refine ⟨rfl, ?_⟩
  obtain ⟨-, -, -, -, hruns, -⟩ := attaching_exact layout layout
  obtain ⟨hkept, -⟩ := hruns (make .empty ["Api"]) _ [.child 0 "V1", .attach 1 layout, .require 0 "Api"] rfl
  obtain ⟨usings, hafter, hmem⟩ := hkept 0 { path := ["Api"] } rfl
  refine ⟨_, usings, rfl, hafter, (hmem _).2 (.inr ⟨.attach 1 layout, by simp, 1, ⟨rfl, ?_⟩, ?_⟩)⟩
  · exact .arranged (.head _) (.template (.head _) (.imported _))
  · exact ⟨⟨_, _, rfl, rfl, rfl⟩, _, rfl, by decide⟩

end Scopes

end WireSchema
