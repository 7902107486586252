import Mathlib.Data.List.Induction
import WireSchema.Project.Basic
/-!
# The history of a project

Units are added one after the other, and a call that fails is not the end of
them. A catalog keeps the units by name and the declarations of all units in a
table where the first entry of a name stays. `addUnit` changes the one after the
other and may stop in between. Whatever calls are made, the catalog answers as
the project does, and both answer with the first declaration there is.
-/

namespace WireSchema

/-! ## Tables of names -/

/-- Names with what they stand for, in the order they were entered. -/
abbrev NameTable (α : Type) := List (Text × α)

namespace NameTable

variable {α : Type} {t : NameTable α} {name other : Text} {a : α}

/-- The table with one more entry, unless the name has one. -/
def enter (t : NameTable α) (name : Text) (a : α) : NameTable α :=
  if (t.lookup name).isSome then t else t ++ [(name, a)]

/-- The table with entries entered in order. -/
def enterAll (t entries : NameTable α) : NameTable α := entries.foldl (fun t e => t.enter e.1 e.2) t

/-- An entry stays what it is, and a new one is found where there was none. -/
theorem lookup_enter : (t.enter name a).lookup other = (t ++ [(name, a)]).lookup other := by
  rw [enter]
  split
  next hfound =>
    rw [List.lookup_append]
    by_cases hname : other = name
    · obtain ⟨b, hb⟩ := Option.isSome_iff_exists.1 hfound
      rw [hname, hb, Option.some_or]
    · rw [List.lookup_cons, beq_eq_false_iff_ne.2 hname, List.lookup_nil, Option.or_none]
  · rfl

/-- Entering finds what comes first. -/
theorem lookup_enterAll (entries : NameTable α) :
    (t.enterAll entries).lookup other = (t ++ entries).lookup other := by
  induction entries generalizing t with
  | nil => rw [enterAll, List.foldl_nil, List.append_nil]
  | cons e entries ih =>
    have hstep := ih (t := t.enter e.1 e.2)
    rw [enterAll] at hstep ⊢
    rw [List.foldl_cons, hstep, List.lookup_append, lookup_enter, ← List.lookup_append, List.append_assoc,
      List.singleton_append]

end NameTable

namespace SourceUnit

/-- The declarations of the unit by name, where `f` says what stands for the one
at an index. -/
def entries {α : Type} (u : SourceUnit) (f : Nat → α) : NameTable α :=
  u.declarations.zipIdx.map fun (d, index) => (d.name, f index)

/-- The table of the unit's own names. -/
def names (u : SourceUnit) : NameTable Nat := NameTable.enterAll [] (u.entries id)

theorem lookup_entries {α : Type} (u : SourceUnit) (f : Nat → α) (name : Text) :
    (u.entries f).lookup name = (u.declarations.findIdx? (·.name == name)).map f := by
  have hfrom (ds : List Declaration) (first : Nat) :
      ((ds.zipIdx first).map fun (d, index) => (d.name, f index)).lookup name =
        (ds.findIdx? (·.name == name)).map fun index => f (first + index) := by
    induction ds generalizing first with
    | nil => rfl
    | cons d ds ih =>
      rw [List.zipIdx_cons, List.map_cons, List.lookup_cons, List.findIdx?_cons, Bool.beq_comm, ih]
      cases d.name == name with
      | true => rfl
      | false =>
        show Option.map _ _ = Option.map _ (Option.map _ _)
        rw [Option.map_map]
        refine congrArg (Option.map · _) (funext fun index => ?_)
        exact congrArg f (Nat.add_right_comm first 1 index)
  simpa [entries] using hfrom u.declarations 0

theorem lookup_names (u : SourceUnit) (name : Text) :
    u.names.lookup name = u.declarations.findIdx? (·.name == name) := by
  rw [names, NameTable.lookup_enterAll, List.nil_append, lookup_entries, Option.map_id]
  rfl

end SourceUnit

/-! ## Catalogs -/

/-- The units by name, and the declarations of all of them. -/
structure Catalog where
  units : NameTable SourceUnit := []
  globals : NameTable DeclarationId := []

namespace Catalog

/-- What changes a catalog and may stop; what was changed before stays changed. -/
abbrev Keeping := ExceptT UnitError (StateM Catalog)

/-- Adds a unit and then its names, one by one. -/
def addUnit (name source : Text) : Keeping SourceUnit := do
  if ((← get).units.lookup name).isSome then throw (.duplicate name)
  let unit ← liftExcept (Project.readUnit name source)
  let place := (← get).units.length
  modify fun c => { c with units := c.units.enter name unit }
  (unit.entries fun index => ({ unit := place, index } : DeclarationId)).forM fun e =>
    modify fun c => { c with globals := c.globals.enter e.1 e.2 }
  return unit

/-- What a name means in the unit at a place. -/
def lookup? (c : Catalog) (place : Nat) (name : Text) : Option DeclarationId :=
  match c.units[place]?.bind fun entry => entry.2.names.lookup name with
  | some index => some { unit := place, index }
  | none => c.globals.lookup name

/-- The catalog behind a call, and what came of the call. -/
def call (c : Catalog) (name source : Text) : Except UnitError SourceUnit × Catalog :=
  (addUnit name source).run.run c

/-- The catalog behind a call. -/
def behind (c : Catalog) (call : Text × Text) : Catalog := (c.call call.1 call.2).2

/-- The catalog behind calls. -/
def after (calls : List (Text × Text)) : Catalog := calls.foldl behind {}

end Catalog

namespace Project

/-- What a name means where no unit comes first. -/
def global? (p : Project) (name : Text) : Option DeclarationId :=
  (List.range p.units.length).findSome? (p.findIn? · name)

/-- The project behind a call; one that fails leaves it alone. -/
def behind (p : Project) (call : Text × Text) : Project := (p.add call.1 call.2).toOption.getD p

/-- The project behind calls. -/
def after (calls : List (Text × Text)) : Project := calls.foldl behind {}

variable {p p' : Project} {name source other : Text}

theorem lookup?_eq (place : Nat) : p.lookup? place name = (p.findIn? place name).or (p.global? name) := by
  rw [lookup?, global?]
  cases p.findIn? place name <;> rfl

/-! ## One call -/

/-- A unit is added where its name is new and its source can be read. -/
theorem add_eq_ok : p.add name source = .ok p' ↔ name ∉ p.units.map (·.name) ∧
    ∃ unit, readUnit name source = .ok unit ∧ p' = { units := p.units ++ [unit] } := by
  rw [add]
  by_cases hmem : name ∈ p.units.map (·.name)
  · have hany : p.units.any (·.name == name) = true := by simpa using hmem
    rw [if_pos hany]
    exact ⟨nofun, fun h => absurd hmem h.1⟩
  · have hany : p.units.any (·.name == name) = false := by simpa using hmem
    rw [hany]
    cases hread : readUnit name source with
    | error e => exact ⟨nofun, fun ⟨_, _, h, _⟩ => nomatch h⟩
    | ok unit =>
      constructor
      · rintro ⟨⟩
        exact ⟨hmem, unit, rfl, rfl⟩
      · rintro ⟨_, _, ⟨⟩, rfl⟩
        rfl

theorem name_readUnit {unit : SourceUnit} (h : readUnit name source = .ok unit) :
    unit.name = name ∧ Declaration.parse source = .ok unit.declarations := by
  rw [readUnit] at h
  split at h
  next ds hparse =>
    cases h
    exact ⟨rfl, hparse⟩
  all_goals cases h

end Project

namespace Catalog

open Project

/-- The catalog holds what the project holds. -/
structure Keeps (c : Catalog) (p : Project) : Prop where
  units : c.units = p.units.map fun u => (u.name, u)
  globals : ∀ name, c.globals.lookup name = p.global? name

variable {c : Catalog} {p p' : Project} {name source : Text}

theorem run_bind {α β : Type} (x : Keeping α) (f : α → Keeping β) :
    (x >>= f).run.run c =
      match x.run.run c with
      | (.ok a, c') => (f a).run.run c'
      | (.error e, c') => (.error e, c') := by
  unfold ExceptT.run StateT.run
  simp only [bind, ExceptT.bind, ExceptT.mk, StateT.bind, ExceptT.bindCont]
  cases x c with
  | mk r c' => cases r <;> rfl

theorem run_enterAll (entries : NameTable DeclarationId) (c : Catalog) :
    (entries.forM fun e => (modify fun c => { c with globals := c.globals.enter e.1 e.2 } : Keeping PUnit)).run.run c =
      (.ok (), { c with globals := c.globals.enterAll entries }) := by
  induction entries generalizing c with
  | nil => rfl
  | cons e entries ih => exact ih _

/-- What comes of a call, in three cases. -/
theorem call_eq : c.call name source =
    if (c.units.lookup name).isSome then (.error (.duplicate name), c)
    else
      match Project.readUnit name source with
      | .error e => (.error e, c)
      | .ok unit => (.ok unit,
          { units := c.units.enter name unit
            globals := c.globals.enterAll (unit.entries fun index => { unit := c.units.length, index }) }) := by
  have hget : (get : Keeping Catalog).run.run c = (.ok c, c) := rfl
  rw [call, addUnit, run_bind, hget]
  show (if _ then _ else _ : Keeping SourceUnit).run.run c = _
  split
  · rfl
  · rw [run_bind]
    cases Project.readUnit name source with
    | error e => rfl
    | ok unit =>
      -- the unit, then its names
      show (do
        modify fun c => { c with units := c.units.enter name unit }
        (unit.entries fun index => ({ unit := c.units.length, index } : DeclarationId)).forM fun e =>
          modify fun c => { c with globals := c.globals.enter e.1 e.2 }
        return unit : Keeping SourceUnit).run.run c = _
      rw [run_bind]
      show (do _ : Keeping SourceUnit).run.run { c with units := c.units.enter name unit } = _
      rw [run_bind, run_enterAll]
      rfl

end Catalog

/-! ## What names mean behind a call -/

namespace Project

variable {p p' : Project} {name source other : Text} {unit : SourceUnit} {id : DeclarationId} {place : Nat}

theorem findIn?_eq (p : Project) (place : Nat) (name : Text) :
    p.findIn? place name = p.units[place]?.bind fun u =>
      (u.declarations.findIdx? (·.name == name)).map fun index => { unit := place, index } := by
  rw [findIn?, unit?]
  cases p.units[place]? with
  | none => rfl
  | some u =>
    show (u.declarations.findIdx? (·.name == name)).bind _ = Option.map _ (u.declarations.findIdx? (·.name == name))
    cases u.declarations.findIdx? (·.name == name) <;> rfl

theorem findIn?_append_of_lt (h : place < p.units.length) :
    ({ units := p.units ++ [unit] } : Project).findIn? place name = p.findIn? place name := by
  rw [findIn?_eq, findIn?_eq, List.getElem?_append_left h]

/-- The names of a new unit come last. -/
theorem global?_append :
    ({ units := p.units ++ [unit] } : Project).global? name =
      (p.global? name).or ((unit.entries fun index => ({ unit := p.units.length, index } : DeclarationId)).lookup name) := by
  have hold : (List.range p.units.length).findSome? (({ units := p.units ++ [unit] } : Project).findIn? · name) =
      (List.range p.units.length).findSome? (p.findIn? · name) := by
    have hmap := List.map_congr_left (l := List.range p.units.length)
      (f := (({ units := p.units ++ [unit] } : Project).findIn? · name)) (g := (p.findIn? · name))
      fun place hplace => findIn?_append_of_lt (List.mem_range.1 hplace)
    have hfirst (f : Nat → Option DeclarationId) (l : List Nat) : l.findSome? f = (l.map f).findSome? id := by
      rw [List.findSome?_map]
      rfl
    rw [hfirst, hmap, ← hfirst]
  have hnew : ({ units := p.units ++ [unit] } : Project).findIn? p.units.length name =
      (unit.entries fun index => ({ unit := p.units.length, index } : DeclarationId)).lookup name := by
    rw [findIn?_eq, SourceUnit.lookup_entries, List.getElem?_append_right (Nat.le_refl _), Nat.sub_self]
    rfl
  rw [global?, List.length_append, List.length_singleton, List.range_succ, List.findSome?_append, hold, global?,
    List.findSome?_cons, hnew]
  cases (unit.entries fun index => ({ unit := p.units.length, index } : DeclarationId)).lookup name <;> rfl

theorem declaration?_append (h : id.unit < p.units.length) :
    ({ units := p.units ++ [unit] } : Project).declaration? id = p.declaration? id := by
  rw [declaration?, declaration?, unit?, unit?, List.getElem?_append_left h]

end Project

namespace Catalog

open Project

variable {c : Catalog} {p p' : Project} {name source : Text}

theorem Keeps.lookup_isSome (h : c.Keeps p) : (c.units.lookup name).isSome = p.units.any (·.name == name) := by
  rw [h.units]
  induction p.units with
  | nil => rfl
  | cons u units ih =>
    rw [List.map_cons, List.lookup_cons, List.any_cons, Bool.beq_comm, ← ih]
    cases u.name == name <;> rfl

/-- A call does to the catalog what it does to the project, and nothing if it fails. -/
theorem Keeps.call (h : c.Keeps p) (name source : Text) :
    match p.add name source with
    | .ok p' => (∃ unit, (c.call name source).1 = .ok unit) ∧ (c.call name source).2.Keeps p'
    | .error e => c.call name source = (.error e, c) := by
  rw [call_eq, h.lookup_isSome, add]
  cases hany : p.units.any (·.name == name) with
  | true => rfl
  | false =>
    cases hread : readUnit name source with
    | error e => rfl
    | ok unit =>
      obtain ⟨hname, _⟩ := name_readUnit hread
      have hnew : ¬ (c.units.lookup name).isSome = true := by
        rw [h.lookup_isSome, hany]
        exact Bool.false_ne_true
      refine ⟨⟨unit, rfl⟩, ?_, fun other => ?_⟩
      · show c.units.enter name unit = (p.units ++ [unit]).map _
        rw [NameTable.enter, if_neg hnew, List.map_append, ← h.units, List.map_singleton, hname]
      · show (c.globals.enterAll _).lookup other = _
        rw [NameTable.lookup_enterAll, List.lookup_append, h.globals, global?_append, h.units, List.length_map]

theorem Keeps.isOk_call (h : c.Keeps p) (name source : Text) :
    (c.call name source).1.isOk = (p.add name source).isOk := by
  have hcall := h.call name source
  cases hadd : p.add name source with
  | ok p' =>
    rw [hadd] at hcall
    obtain ⟨⟨unit, hunit⟩, _⟩ := hcall
    rw [hunit]
    rfl
  | error e =>
    rw [hadd] at hcall
    rw [hcall]
    rfl

theorem Keeps.behind (h : c.Keeps p) (call : Text × Text) : (c.behind call).Keeps (p.behind call) := by
  have hcall := h.call call.1 call.2
  rw [Catalog.behind, Project.behind]
  cases hadd : p.add call.1 call.2 with
  | ok p' =>
    rw [hadd] at hcall
    exact hcall.2
  | error e =>
    rw [hadd] at hcall
    rw [hcall]
    exact h

theorem keeps_after (calls : List (Text × Text)) : (after calls).Keeps (Project.after calls) := by
  have hrun (c : Catalog) (p : Project) (h : c.Keeps p) : (calls.foldl Catalog.behind c).Keeps (calls.foldl Project.behind p) := by
    induction calls generalizing c p with
    | nil => exact h
    | cons call calls ih => exact ih _ _ (h.behind call)
  exact hrun {} {} ⟨rfl, fun _ => rfl⟩

theorem Keeps.lookup?_eq (h : c.Keeps p) (place : Nat) (name : Text) :
    c.lookup? place name = p.lookup? place name := by
  have hlocal : (c.units[place]?.bind fun entry => entry.2.names.lookup name) =
      p.units[place]?.bind fun u => u.declarations.findIdx? (·.name == name) := by
    rw [h.units, List.getElem?_map]
    cases p.units[place]? with
    | none => rfl
    | some u => exact SourceUnit.lookup_names u name
  rw [lookup?, Project.lookup?_eq, findIn?_eq, hlocal, h.globals]
  cases p.units[place]? with
  | none => rfl
  | some u =>
    show _ = Option.or (Option.map _ (u.declarations.findIdx? (·.name == name))) _
    cases hfound : u.declarations.findIdx? (·.name == name) with
    | none => simp [hfound]
    | some index => simp [hfound]

end Catalog

/-! ## What comes first -/

/-- The declaration stands before another one: in an earlier unit, or earlier in
the same. -/
def DeclarationId.Before (a b : DeclarationId) : Prop := a.unit < b.unit ∨ a.unit = b.unit ∧ a.index < b.index

namespace Project

variable {p p' : Project} {name source other : Text} {unit : SourceUnit} {id : DeclarationId} {place : Nat}

/-- The identity is one of a declaration of the name. -/
def Called (p : Project) (id : DeclarationId) (name : Text) : Prop :=
  ∃ d, p.declaration? id = some d ∧ d.name = name

/-- The first declaration of the name in the unit at a place. -/
def FirstIn (p : Project) (place : Nat) (name : Text) (id : DeclarationId) : Prop :=
  p.Called id name ∧ id.unit = place ∧ ∀ other : DeclarationId, other.unit = place → other.Before id → ¬ p.Called other name

/-- The first declaration of the name in all units. -/
def First (p : Project) (name : Text) (id : DeclarationId) : Prop :=
  p.Called id name ∧ ∀ other : DeclarationId, other.Before id → ¬ p.Called other name

theorem called_iff {index : Nat} (h : p.units[place]? = some unit) :
    p.Called { unit := place, index } name ↔ ∃ d, unit.declarations[index]? = some d ∧ d.name = name := by
  rw [Called, declaration?, unit?, h]
  rfl

theorem findIn?_eq_some_iff : p.findIn? place name = some id ↔ p.FirstIn place name id := by
  obtain ⟨unitPlace, index⟩ := id
  rw [findIn?_eq]
  constructor
  · intro h
    obtain ⟨u, hu, h⟩ := Option.bind_eq_some_iff.1 h
    obtain ⟨_, hindex, ⟨⟩⟩ := Option.map_eq_some_iff.1 h
    obtain ⟨hlt, hname, hbefore⟩ := List.findIdx?_eq_some_iff_getElem.1 hindex
    refine ⟨(called_iff hu).2 ⟨_, List.getElem?_eq_getElem hlt, beq_iff_eq.1 hname⟩, rfl, ?_⟩
    rintro ⟨_, j⟩ rfl (hlater | ⟨_, hj⟩) hother
    · exact Nat.lt_irrefl _ hlater
    · obtain ⟨d, hd, hdname⟩ := (called_iff hu).1 hother
      obtain ⟨_, rfl⟩ := List.getElem?_eq_some_iff.1 hd
      exact hbefore j hj (beq_iff_eq.2 hdname)
  · rintro ⟨⟨d, hd, hname⟩, rfl, hbefore⟩
    obtain ⟨u, hu, hd⟩ := Option.bind_eq_some_iff.1 hd
    have hu : p.units[unitPlace]? = some u := hu
    obtain ⟨hlt, rfl⟩ := List.getElem?_eq_some_iff.1 hd
    have hindex : u.declarations.findIdx? (·.name == name) = some index := by
      refine List.findIdx?_eq_some_iff_getElem.2 ⟨hlt, beq_iff_eq.2 hname, fun j hj hjname => ?_⟩
      refine hbefore { unit := unitPlace, index := j } rfl (.inr ⟨rfl, hj⟩) ((called_iff hu).2 ?_)
      exact ⟨_, List.getElem?_eq_getElem (Nat.lt_trans hj hlt), beq_iff_eq.1 hjname⟩
    rw [hu, Option.bind_some, hindex]
    rfl

theorem findIn?_eq_none_iff : p.findIn? place name = none ↔ ∀ id, id.unit = place → ¬ p.Called id name := by
  constructor
  · rintro h ⟨_, index⟩ rfl hnames
    obtain ⟨d, hd, hname⟩ := hnames
    obtain ⟨u, hu, hd⟩ := Option.bind_eq_some_iff.1 hd
    have hu : p.units[_]? = some u := hu
    rw [findIn?_eq, hu, Option.bind_some, Option.map_eq_none_iff, List.findIdx?_eq_none_iff] at h
    exact absurd hname (by simpa using h d (List.mem_of_getElem? hd))
  · intro h
    cases hfound : p.findIn? place name with
    | none => rfl
    | some id =>
      obtain ⟨hnames, hunit, _⟩ := findIn?_eq_some_iff.1 hfound
      exact absurd hnames (h id hunit)

/-- Only the units there are declare names. -/
theorem Called.lt (h : p.Called id name) : id.unit < p.units.length := by
  obtain ⟨d, hd, _⟩ := h
  obtain ⟨u, hu, _⟩ := Option.bind_eq_some_iff.1 hd
  exact (List.getElem?_eq_some_iff.1 hu).1

theorem global?_eq_none_iff : p.global? name = none ↔ ∀ id, ¬ p.Called id name := by
  rw [global?, List.findSome?_eq_none_iff]
  refine ⟨fun h id hid => ?_, fun h place _ => findIn?_eq_none_iff.2 fun id _ => h id⟩
  exact findIn?_eq_none_iff.1 (h id.unit (List.mem_range.2 hid.lt)) id rfl hid

theorem findSome?_range {α : Type} {f : Nat → Option α} {n : Nat} {a : α} :
    (List.range n).findSome? f = some a ↔ ∃ i < n, f i = some a ∧ ∀ j < i, f j = none := by
  induction n with
  | zero => simp
  | succ n ih =>
    rw [List.range_succ, List.findSome?_append, Option.or_eq_some_iff, ih, List.findSome?_eq_none_iff,
      List.findSome?_singleton]
    constructor
    · rintro (⟨i, hi, hfound⟩ | ⟨hnone, hfound⟩)
      · exact ⟨i, Nat.lt_succ_of_lt hi, hfound⟩
      · exact ⟨n, Nat.lt_succ_self n, hfound, fun j hj => hnone j (List.mem_range.2 hj)⟩
    · rintro ⟨i, hi, hfound, hnone⟩
      rcases Nat.lt_succ_iff_lt_or_eq.1 hi with hlt | rfl
      · exact .inl ⟨i, hlt, hfound, hnone⟩
      · exact .inr ⟨fun j hj => hnone j (List.mem_range.1 hj), hfound⟩

theorem global?_eq_some_iff : p.global? name = some id ↔ p.First name id := by
  rw [global?, findSome?_range]
  constructor
  · rintro ⟨place, _, hfound, hnone⟩
    obtain ⟨hnames, rfl, hbefore⟩ := findIn?_eq_some_iff.1 hfound
    refine ⟨hnames, fun other hother hnamed => ?_⟩
    rcases hother with hlt | ⟨hunit, hlt⟩
    · exact findIn?_eq_none_iff.1 (hnone _ hlt) other rfl hnamed
    · exact hbefore other hunit (.inr ⟨hunit, hlt⟩) hnamed
  · rintro ⟨hnames, hbefore⟩
    refine ⟨id.unit, hnames.lt, ?_, fun place hplace => ?_⟩
    · exact findIn?_eq_some_iff.2 ⟨hnames, rfl, fun other _ => hbefore other⟩
    · exact findIn?_eq_none_iff.2 fun other hunit => hbefore other (.inl (hunit ▸ hplace))

/-! ## Any number of calls -/

/-- The source of a call can be read. -/
def canRead (call : Text × Text) : Bool := (Declaration.parse call.2).isOk

theorem isOk_readUnit (name source : Text) : (readUnit name source).isOk = canRead (name, source) := by
  rw [readUnit, canRead]
  cases Declaration.parse source with
  | ok ds => rfl
  | error fault => cases fault <;> rfl

/-- A call fails on a name that is there and on a source that cannot be read. -/
theorem isOk_add (p : Project) (name source : Text) :
    (p.add name source).isOk = false ↔ name ∈ p.units.map (·.name) ∨ canRead (name, source) = false := by
  rw [← isOk_readUnit]
  cases hadd : p.add name source with
  | ok p' =>
    obtain ⟨hnew, unit, hread, _⟩ := add_eq_ok.1 hadd
    rw [hread]
    exact ⟨nofun, fun h => h.elim (absurd · hnew) nofun⟩
  | error e =>
    refine ⟨fun _ => ?_, fun _ => rfl⟩
    by_cases hmem : name ∈ p.units.map (·.name)
    · exact .inl hmem
    · cases hread : readUnit name source with
      | error e' => exact .inr rfl
      | ok unit => exact nomatch hadd.symm.trans (add_eq_ok.2 ⟨hmem, unit, hread, rfl⟩)

theorem after_append (calls more : List (Text × Text)) : after (calls ++ more) = more.foldl behind (after calls) :=
  List.foldl_append

theorem behind_of_error {call : Text × Text} {e : UnitError} (h : p.add call.1 call.2 = .error e) :
    p.behind call = p := by
  rw [behind, h]
  rfl

/-- A call leaves the project alone or adds one unit to it. -/
theorem behind_cases (p : Project) (call : Text × Text) :
    p.behind call = p ∧ (call.1 ∈ p.units.map (·.name) ∨ canRead call = false) ∨
      ∃ unit : SourceUnit, p.behind call = { units := p.units ++ [unit] } ∧ unit.name = call.1 ∧
        call.1 ∉ p.units.map (·.name) ∧ canRead call = true := by
  have hfails := isOk_add p call.1 call.2
  cases hadd : p.add call.1 call.2 with
  | error e =>
    rw [hadd] at hfails
    exact .inl ⟨behind_of_error hadd, hfails.1 rfl⟩
  | ok p' =>
    obtain ⟨hnew, unit, hread, rfl⟩ := add_eq_ok.1 hadd
    refine .inr ⟨unit, ?_, (name_readUnit hread).1, hnew, ?_⟩
    · rw [behind, hadd]
      rfl
    · have hok := isOk_readUnit call.1 call.2
      rw [hread] at hok
      exact hok.symm

/-- The names of the units are those of the calls that can be read, each where
it first comes. -/
theorem names_after (calls : List (Text × Text)) :
    (after calls).units.map (·.name) = ((calls.filter canRead).map (·.1)).eraseDups := by
  induction calls using List.reverseRecOn with
  | nil => rfl
  | append_singleton calls call ih =>
    rw [after_append, List.foldl_cons, List.foldl_nil, List.filter_append, List.map_append, List.eraseDups_append]
    have hmem : call.1 ∈ (calls.filter canRead).map (·.1) ↔ call.1 ∈ (after calls).units.map (·.name) := by
      rw [ih, List.mem_eraseDups]
    rcases behind_cases (after calls) call with ⟨hsame, hknown⟩ | ⟨unit, hmore, hname, hnew, hread⟩
    · rw [hsame, ih]
      cases hread : canRead call with
      | false => simp [hread]
      | true =>
        have := hmem.2 (hknown.resolve_right (by simp [hread]))
        simp [hread, List.removeAll, this]
    · have hfresh : call.1 ∉ (calls.filter canRead).map (·.1) := fun h => hnew (hmem.1 h)
      have hkept : [call.1].removeAll ((calls.filter canRead).map (·.1)) = [call.1] := by
        rw [List.removeAll, List.filter_cons_of_pos (by simpa using hfresh), List.filter_nil]
      simp [hmore, ih, hread, hname, hkept, List.eraseDups_cons]

theorem nodup_after (calls : List (Text × Text)) : ((after calls).units.map (·.name)).Nodup := by
  induction calls using List.reverseRecOn with
  | nil => exact List.nodup_nil
  | append_singleton calls call ih =>
    rw [after_append, List.foldl_cons, List.foldl_nil]
    rcases behind_cases (after calls) call with ⟨hsame, _⟩ | ⟨unit, hmore, hname, hnew, _⟩
    · rwa [hsame]
    · rw [hmore, List.map_append, List.map_singleton, hname, List.nodup_append]
      refine ⟨ih, List.pairwise_singleton _ _, fun name hmem other hother => ?_⟩
      rintro rfl
      exact hnew (List.mem_singleton.1 hother ▸ hmem)

/-- What a name means stays, and so does the declaration that it means. -/
theorem global?_behind (h : p.global? name = some id) (call : Text × Text) :
    (p.behind call).global? name = some id ∧ (p.behind call).declaration? id = p.declaration? id := by
  rcases behind_cases p call with ⟨hsame, _⟩ | ⟨unit, hmore, _⟩
  · rw [hsame]
    exact ⟨h, rfl⟩
  · rw [hmore, global?_append, h]
    exact ⟨rfl, declaration?_append (global?_eq_some_iff.1 h).1.lt⟩

theorem global?_later (calls more : List (Text × Text)) (h : (after calls).global? name = some id) :
    (after (calls ++ more)).global? name = some id ∧
      (after (calls ++ more)).declaration? id = (after calls).declaration? id := by
  induction more using List.reverseRecOn with
  | nil => rw [List.append_nil]; exact ⟨h, rfl⟩
  | append_singleton more call ih =>
    obtain ⟨hglobal, hdeclaration⟩ := ih
    obtain ⟨hnext, hsame⟩ := global?_behind hglobal call
    rw [← List.append_assoc, after_append]
    exact ⟨hnext, hsame.trans hdeclaration⟩

/-- What holds of the catalog and the project behind calls. -/
structure Recorded (calls : List (Text × Text)) : Prop where
  /-- The catalog holds the units of the project and what names mean in it. -/
  keeps : (Catalog.after calls).Keeps (after calls)
  distinct : ((after calls).units.map (·.name)).Nodup
  /-- The units come as they were first added with success. -/
  order : (after calls).units.map (·.name) = ((calls.filter canRead).map (·.1)).eraseDups
  found : ∀ place name id, (Catalog.after calls).lookup? place name = some id ↔
    (after calls).FirstIn place name id ∨
      (∀ other : DeclarationId, other.unit = place → ¬ (after calls).Called other name) ∧ (after calls).First name id
  missing : ∀ place name, (Catalog.after calls).lookup? place name = none ↔ ∀ id, ¬ (after calls).Called id name
  same : ∀ place name, (after calls).lookup? place name = (Catalog.after calls).lookup? place name
  /-- An entry of the table of names never changes. -/
  stays : ∀ more name id, (Catalog.after calls).globals.lookup name = some id →
    (Catalog.after (calls ++ more)).globals.lookup name = some id ∧
      (after (calls ++ more)).declaration? id = (after calls).declaration? id
  /-- A call fails on a name that is there and on a source that cannot be read. -/
  fails : ∀ name source, ((Catalog.after calls).call name source).1.isOk = false ↔
    name ∈ (after calls).units.map (·.name) ∨ canRead (name, source) = false
  /-- A call that fails changes nothing. -/
  unchanged : ∀ name source e, ((Catalog.after calls).call name source).1 = .error e →
    (Catalog.after calls).call name source = (.error e, Catalog.after calls) ∧
      (after calls).add name source = .error e ∧ after (calls ++ [(name, source)]) = after calls

theorem lookup?_eq_none_iff : p.lookup? place name = none ↔ ∀ id, ¬ p.Called id name := by
  rw [lookup?_eq, Option.or_eq_none_iff, global?_eq_none_iff, findIn?_eq_none_iff]
  exact ⟨fun h => h.2, fun h => ⟨fun id _ => h id, h⟩⟩

theorem lookup?_eq_some_iff : p.lookup? place name = some id ↔ p.FirstIn place name id ∨
    (∀ other : DeclarationId, other.unit = place → ¬ p.Called other name) ∧ p.First name id := by
  rw [lookup?_eq, Option.or_eq_some_iff, findIn?_eq_some_iff, findIn?_eq_none_iff, global?_eq_some_iff]

/-- Whatever calls are made, units and names are kept as the first of them that
succeeded left them, and those that fail change nothing. -/
theorem recorded (calls : List (Text × Text)) : Recorded calls := by
  have hkeeps := Catalog.keeps_after calls
  refine ⟨hkeeps, nodup_after calls, names_after calls, fun place name id => ?found, fun place name => ?missing,
    fun place name => (hkeeps.lookup?_eq place name).symm, fun more name id h => ?stays, fun name source => ?fails,
    fun name source e h => ?unchanged⟩
  case found => rw [hkeeps.lookup?_eq, lookup?_eq_some_iff]
  case missing => rw [hkeeps.lookup?_eq, lookup?_eq_none_iff]
  case stays =>
    rw [hkeeps.globals] at h
    rw [(Catalog.keeps_after (calls ++ more)).globals]
    exact global?_later calls more h
  case fails => rw [← isOk_add, ← hkeeps.isOk_call]
  case unchanged =>
    have hcall := hkeeps.call name source
    cases hadd : (after calls).add name source with
    | ok p' =>
      rw [hadd, h] at hcall
      exact nomatch hcall.1
    | error e' =>
      rw [hadd] at hcall
      obtain rfl : e' = e := Except.error.inj ((congrArg Prod.fst hcall).symm.trans h)
      refine ⟨hcall, rfl, ?_⟩
      rw [after_append, List.foldl_cons, List.foldl_nil]
      exact behind_of_error hadd

end Project
end WireSchema
