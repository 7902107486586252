import WireSchema.Proofs.TypeSpec.Agrees
import WireSchema.Proofs.TypeSpec.Outcome
/-!
# Units by themselves

The section of a unit is the same whichever units are converted with it and
before it, unless types depend on what is asked for first.
-/

namespace WireSchema

open Project TypeSpec

variable {p : Project} {config : Config} {s₀ : Store} {c₀ : Chart} {k l : Sides} {t u : TypeId} {n : Nat}

/-! ## Models -/

namespace TypeSpec

variable {setting : Setting}

section
variable (hfree : p.OrderFree s₀)
include hfree

theorem agrees_anyProperties {ts us : List TypeId} (hts : List.Forall₂ k.Types ts us) (h : Sides.Twins p s₀ c₀ l)
    (hlater : k.Later l) :
    Agrees p s₀ c₀ l (liftM (isModelLike.anyProperties p ts)) (liftM (isModelLike.anyProperties p us))
      fun a b _ => a = b := by
  induction hts generalizing l with
  | nil => exact .pure h rfl
  | @cons t u ts us ht _ ih =>
    unfold isModelLike.anyProperties
    refine (agrees_properties hfree h (ht.mono hlater)).bindLift fun ids ids' l₁ h₁ hlater₁ hids => ?_
    have hempty : ids.isEmpty = ids'.isEmpty := by cases hids <;> rfl
    rw [hempty]
    split
    · exact ih h₁ (hlater.trans hlater₁)
    · exact .pure h₁ rfl

theorem agrees_isModelLike (h : Sides.Twins p s₀ c₀ k) (ht : k.Types t u) :
    Agrees p s₀ c₀ k (liftM (isModelLike p t)) (liftM (isModelLike p u)) fun a b _ => a = b := by
  unfold isModelLike
  refine (agrees_node hfree h ht).bindLift fun node node' l h₁ hlater hnode => ?_
  obtain ⟨hleft, hright⟩ := hnode.children_lt h₁
  obtain ⟨shape, text, symbol⟩ := node
  obtain ⟨shape', text', symbol'⟩ := node'
  have hshape : shape.Alike l.chart.origin l.chart'.origin shape' := hnode.alike.shape
  cases hshape with
  | object =>
    refine (agrees_properties hfree h₁ (ht.mono hlater)).bindLift fun ids ids' l₂ h₂ _ hids => .pure h₂ ?_
    cases hids <;> rfl
  | intersection hmembers => exact agrees_anyProperties hfree (forall₂_types hleft hright hmembers) h₁ (.refl l)
  | _ => exact .pure h₁ rfl

omit hfree in
theorem agrees_depth (hdepth : setting.depth = some n) (h : Sides.Twins p s₀ c₀ k) :
    Agrees p s₀ c₀ k (depth setting) (depth setting) fun a b _ => a = b := by
  have hrun (s : Store) : depth setting s = some (n, s) := by
    show some (setting.depth.getD _, s) = _
    rw [hdepth]
    rfl
  intro a s ha
  rw [hrun] at ha
  cases ha
  exact ⟨n, k, hrun _, rfl, h, .refl k, rfl⟩

/-- A model is written in the same way in both stores. -/
theorem agrees_convertModel (hproject : setting.project = p) (hdepth : setting.depth = some n)
    (hold : ∀ model ∈ setting.registry.models, model.type.index < s₀.types.size) (h : Sides.Twins p s₀ c₀ k)
    {model : Model} (hmodel : model ∈ setting.registry.models) :
    Agrees p s₀ c₀ k (convertModel setting model) (convertModel setting model) fun a b _ => a = b := by
  have ht : k.Types model.type model.type :=
    ⟨Nat.lt_of_lt_of_le (hold model hmodel) h.since.size, Nat.lt_of_lt_of_le (hold model hmodel) h.since'.size,
      Project.Twins.origin_old h (hold model hmodel)⟩
  have hconvert : Agrees p s₀ c₀ k (convert setting model.type) (convert setting model.type) fun a b _ => a = b := by
    refine (agrees_depth hdepth h).bind fun depth depth' l₁ h₁ hlater hsame => ?_
    rw [hsame]
    exact agrees_convertIn hfree hold hproject depth' [] [] model.type model.type l₁ h₁ .nil (ht.mono hlater)
  refine hconvert.bind fun written written' l₁ h₁ hlater hwritten => ?_
  subst hproject
  refine (agrees_isModelLike hfree h₁ (ht.mono hlater)).bind fun modelLike modelLike' l₂ h₂ _ hmodelLike => ?_
  rw [hwritten, hmodelLike]
  split
  · exact .pure h₂ rfl
  · exact .pure h₂ rfl

end

end TypeSpec

/-! ## Units -/

namespace Document

variable {setting : Setting} {s s' : Store} {c c' : Chart}

/-- A unit is converted in the same way in both stores. -/
theorem agrees_convertUnit (hfree : p.OrderFree s₀) (hproject : setting.project = p) (hdepth : setting.depth = some n)
    (hold : ∀ model ∈ setting.registry.models, model.type.index < s₀.types.size) (h : Sides.Twins p s₀ c₀ k)
    (name : Text) : Agrees p s₀ c₀ k (convertUnit setting name) (convertUnit setting name) fun a b _ => a = b := by
  unfold convertUnit
  cases setting.project.findUnit? name with
  | none => exact (agrees_report h _ _).bind fun _ _ _ h₁ _ _ => .pure h₁ rfl
  | some place =>
    have hmodels : List.Forall₂ (fun model model' => model = model' ∧ model ∈ setting.registry.models)
        (setting.registry.modelsIn place) (setting.registry.modelsIn place) :=
      List.forall₂_same.2 fun model hmodel => ⟨rfl, (List.mem_filter.1 hmodel).1⟩
    refine (Agrees.mapM_eq h hmodels fun model model' l hsame hl _ => ?_).bind fun layouts layouts' l₁ h₁ _ hlayouts => ?_
    · obtain ⟨rfl, hmodel⟩ := hsame
      exact agrees_convertModel hfree hproject hdepth hold hl hmodel
    · rw [hlayouts]
      exact (agrees_report h₁ _ _).bind fun _ _ _ h₂ _ _ => .pure h₂ rfl

/-- The store has grown from the first one and is tidy. -/
structure Grown (p : Project) (s₀ : Store) (c₀ : Chart) (s : Store) (c : Chart) : Prop where
  tidy : p.Tidy (fun _ => False) s c
  grows : Grows s₀ s c₀ c

/-- The sections of several units, converted one after the other from a store that
others have used, are those of each unit from the first store. -/
theorem mapM_convertUnit_iff (hfree : p.OrderFree s₀) (hproject : setting.project = p) (hdepth : setting.depth = some n)
    (hold : ∀ model ∈ setting.registry.models, model.type.index < s₀.types.size)
    (h₀ : p.Tidy (fun _ => False) s₀ c₀) (h : Grown p s₀ c₀ s c) (names : List Text) (sections : List Section) :
    (∃ s', names.mapM (convertUnit setting) s = some (sections, s')) ↔
      List.Forall₂ (fun name one => ∃ s', convertUnit setting name s₀ = some (one, s')) names sections := by
  -- a conversion in one of the stores can be done in every other, and leaves a store that has grown
  have hsame {s t s' : Store} {c d : Chart} (hs : Grown p s₀ c₀ s c) (ht : Grown p s₀ c₀ t d) {name : Text}
      {one : Section} (hrun : convertUnit setting name s = some (one, s')) :
      ∃ t' d', convertUnit setting name t = some (one, t') ∧ Grown p s₀ c₀ t' d' := by
    have htwins : Sides.Twins p s₀ c₀ ⟨s, c, t, d⟩ := ⟨h₀.toCharted, hs.tidy, ht.tidy, hs.grows, ht.grows⟩
    obtain ⟨_, l, hrun', _, hl, _, rfl⟩ := agrees_convertUnit hfree hproject hdepth hold htwins name one s' hrun
    exact ⟨l.store', l.chart', hrun', hl.second, hl.since'⟩
  have hfirst : Grown p s₀ c₀ s₀ c₀ := ⟨h₀, .refl s₀ c₀⟩
  induction names generalizing s c sections with
  | nil =>
    rw [List.forall₂_nil_left_iff]
    constructor
    · rintro ⟨s', hrun⟩
      cases hrun
      rfl
    · rintro rfl
      exact ⟨s, rfl⟩
  | cons name names ih =>
    rw [List.mapM_cons]
    constructor
    · rintro ⟨s', hrun⟩
      obtain ⟨⟨one, s₁⟩, hname, hrun⟩ := Option.bind_eq_some_iff.1 hrun
      obtain ⟨⟨rest, _⟩, hnames, hrun⟩ := Option.bind_eq_some_iff.1 hrun
      cases hrun
      obtain ⟨t, d, hagain, hgrown⟩ := hsame h h hname
      rw [hname] at hagain
      cases hagain
      obtain ⟨t, _, halone, _⟩ := hsame h hfirst hname
      exact .cons ⟨t, halone⟩ ((ih hgrown rest).1 ⟨_, hnames⟩)
    · rintro (_ | ⟨⟨t, halone⟩, hrest⟩)
      obtain ⟨s₁, c₁, hname, hgrown⟩ := hsame hfirst h halone
      obtain ⟨s₂, hnames⟩ := (ih hgrown _).2 hrest
      refine ⟨s₂, ?_⟩
      show (convertUnit setting name s).bind _ = _
      rw [hname]
      show (names.mapM (convertUnit setting) s₁).bind _ = _
      rw [hnames]
      rfl

/-- The sections of units are those that each of them has when it is converted by
itself, whichever units they are and in whichever order. -/
def Independent (p : Project) (config : Config) : Prop :=
  ∀ names sections, (∃ s, convertUnits p config names {} = some (sections, s)) ↔
    List.Forall₂ (fun name one => ∃ s, convertUnits p config [name] {} = some ([one], s)) names sections

/-- Units are independent if nothing depends on what is asked for first once the
registry is built. -/
theorem sections_independent (hfree : p.OrderFree (Registry.build p config {}).2) : Independent p config := by
  intro names sections
  obtain ⟨c₀, h₀, hcovers⟩ := Registry.exists_build p config
  have hold (model : Model) (hmodel : model ∈ (Registry.build p config {}).1.models) :
      model.type.index < (Registry.build p config {}).2.types.size := by
    obtain ⟨d, hd⟩ := hcovers.sound model hmodel
    exact h₀.entries.lt hd.type
  have hall (names : List Text) (sections : List Section) :
      (∃ s, convertUnits p config names {} = some (sections, s)) ↔
        List.Forall₂ (fun name one => ∃ s, convertUnit (settingFrom p config (Registry.build p config {})) name
          (Registry.build p config {}).2 = some (one, s)) names sections := by
    rw [convertUnits_eq rfl]
    exact mapM_convertUnit_iff hfree rfl rfl hold h₀ ⟨h₀, .refl _ c₀⟩ names sections
  have halone (name : Text) (one : Section) := hall [name] [one]
  simp only [List.forall₂_cons, List.forall₂_nil_left_iff, and_true] at halone
  simp only [halone]
  exact hall names sections

/-! ### Types that two units share -/

/-- The docs of an exported declaration. -/
def exported : DocComment := { tags := [{ name := "model", text := [] }] }

/-- A required member without docs. -/
def member (name : Text) (type : TypeExpr) : Property TypeExpr := { name, isOptional := false, type, docs := {} }

/-- `[string, Node]` -/
def nodeType : TypeExpr := .tuple [.keyword "string", .reference "Node" [] "Node"] "[string, Node]" false

/-- `type Node = [string, Node]`, `interface Base { name: string }` and
`interface X extends Base { node: Node }`; in a unit of its own,
`interface Y extends Base { node: Node }`. `X` and `Y` are exported. -/
def sharedProject : Project where
  units := [
    { name := "u", declarations := [
      { name := "Node", docs := {}, body := .typeAlias [] nodeType },
      { name := "Base", docs := {}, body := .interface [] [] [member "name" (.keyword "string")] },
      { name := "X", docs := exported,
        body := .interface [] [{ name := "Base", arguments := [], text := "Base" }]
          [member "node" (.reference "Node" [] "Node")] }] },
    { name := "v", declarations := [
      { name := "Y", docs := exported,
        body := .interface [] [{ name := "Base", arguments := [], text := "Base" }]
          [member "node" (.reference "Node" [] "Node")] }] }]

theorem body?_sharedProject {d : DeclarationId} {body : DeclarationBody} (h : sharedProject.body? d = some body) :
    (d = ⟨0, 0⟩ ∧ body = .typeAlias [] nodeType) ∨
      (d = ⟨0, 1⟩ ∧ body = .interface [] [] [member "name" (.keyword "string")]) ∨
      ((d = ⟨0, 2⟩ ∨ d = ⟨1, 0⟩) ∧ body = .interface [] [{ name := "Base", arguments := [], text := "Base" }]
        [member "node" (.reference "Node" [] "Node")]) := by
  obtain ⟨unit, index⟩ := d
  rcases unit with _ | _ | unit
  · rcases index with _ | _ | _ | index
    · cases h
      exact .inl ⟨rfl, rfl⟩
    · cases h
      exact .inr (.inl ⟨rfl, rfl⟩)
    · cases h
      exact .inr (.inr ⟨.inl rfl, rfl⟩)
    · cases h
  · rcases index with _ | index
    · cases h
      exact .inr (.inr ⟨.inr rfl, rfl⟩)
    · cases h
  · cases h

theorem partAt_nodeType {steps : List Nat} {e : TypeExpr} (h : nodeType.partAt steps = some e) :
    e = nodeType ∨ e = .keyword "string" ∨ e = .reference "Node" [] "Node" := by
  induction steps generalizing e with
  | nil =>
    cases h
    exact .inl rfl
  | cons i steps ih =>
    obtain ⟨whole, hwhole, hi⟩ := Option.bind_eq_some_iff.1 h
    rcases ih hwhole with rfl | rfl | rfl
    · rcases i with _ | _ | i
      · cases hi
        exact .inr (.inl rfl)
      · cases hi
        exact .inr (.inr rfl)
      · cases hi
    · cases hi
    · cases hi

/-- The alias leads to nothing but itself. -/
theorem leads_sharedProject {a b : DeclarationId} (h : sharedProject.Leads a b) : a = b := by
  induction h with
  | refl d => rfl
  | @step a b d hnames _ ih =>
    obtain ⟨steps, context, e, hpart, htarget⟩ := hnames
    obtain ⟨whole, hroot, hat⟩ := partType?_eq_some.1 hpart
    rw [rootType?] at hroot
    cases hbody : sharedProject.body? a with
    | none => rw [hbody] at hroot; cases hroot
    | some body =>
      rw [hbody] at hroot
      rcases body?_sharedProject hbody with ⟨rfl, rfl⟩ | ⟨rfl, rfl⟩ | ⟨_, rfl⟩
      · cases hroot
        rw [← ih]
        rcases partAt_nodeType hat with rfl | rfl | rfl
        · cases htarget
        · cases htarget
        · exact Option.some.inj (Eq.trans rfl htarget)
      · cases hroot
      · cases hroot

/-- What inherits does so from the base, which has no bases itself. -/
theorem inherits_sharedProject {a b : DeclarationId} (h : sharedProject.Inherits a b) : a ≠ ⟨0, 1⟩ ∧ b = ⟨0, 1⟩ := by
  obtain ⟨parameters, bases, members, base, target, hbody, hmem, hlookup, hgives⟩ := h
  rcases body?_sharedProject hbody with ⟨_, hkind⟩ | ⟨_, hkind⟩ | ⟨hd, hkind⟩
  · cases hkind
  · cases hkind
    cases hmem
  · cases hkind
    rw [List.mem_singleton.1 hmem] at hlookup
    have htarget : target = ⟨0, 1⟩ := by
      rcases hd with rfl | rfl
      · exact Option.some.inj (hlookup.symm.trans rfl)
      · exact Option.some.inj (hlookup.symm.trans rfl)
    subst htarget
    refine ⟨?_, ?_⟩
    · rcases hd with rfl | rfl <;> decide
    · cases hgives with
      | itself => rfl
      | aliased halias _ => cases halias

theorem sharedProject_free : sharedProject.OrderFree (Registry.build sharedProject {} {}).2 where
  aliases a b hne hleads _ := absurd (leads_sharedProject hleads) hne
  interfaces d hcycle := by
    have hends {a b : DeclarationId} (h : Relation.TransGen sharedProject.Inherits a b) : a ≠ ⟨0, 1⟩ ∧ b = ⟨0, 1⟩ := by
      induction h with
      | single h => exact inherits_sharedProject h
      | tail _ h ih => exact ⟨ih.1, (inherits_sharedProject h).2⟩
    exact (hends hcycle).1 (hends hcycle).2

theorem sharedProject_first : ∃ s, convertUnits sharedProject {} ["u"] {} =
    some ([.converted "u" "model X \x7b\n  node: [string, Node];\n  name: string;\n\x7d;" []], s) := by
  generalize h : convertUnits sharedProject {} ["u"] {} = r
  conv at h => lhs; cbv
  subst h
  exact ⟨_, rfl⟩

theorem sharedProject_second : ∃ s, convertUnits sharedProject {} ["v"] {} =
    some ([.converted "v" "model Y \x7b\n  node: [string, Node];\n  name: string;\n\x7d;" []], s) := by
  generalize h : convertUnits sharedProject {} ["v"] {} = r
  conv at h => lhs; cbv
  subst h
  exact ⟨_, rfl⟩

/-- The sections of both units, from those of each by itself. -/
theorem sections_independent_shared : ∃ s, convertUnits sharedProject {} ["v", "u"] {} =
    some ([.converted "v" "model Y \x7b\n  node: [string, Node];\n  name: string;\n\x7d;" [],
      .converted "u" "model X \x7b\n  node: [string, Node];\n  name: string;\n\x7d;" []], s) :=
  (sections_independent sharedProject_free _ _).2 (.cons sharedProject_second (.cons sharedProject_first .nil))

/-! ### Types that depend on what is asked for first -/

/-- `interface X { a: A }`, `type A = [B]` and `type B = [A]`; in a unit of its own,
`interface Y { b: B }`. `X` and `Y` are exported. -/
def loopProject : Project where
  units := [
    { name := "u", declarations := [
      { name := "X", docs := exported, body := .interface [] [] [member "a" (.reference "A" [] "A")] },
      { name := "A", docs := {}, body := .typeAlias [] (.tuple [.reference "B" [] "B"] "[B]" false) },
      { name := "B", docs := {}, body := .typeAlias [] (.tuple [.reference "A" [] "A"] "[A]" false) }] },
    { name := "v", declarations := [
      { name := "Y", docs := exported, body := .interface [] [] [member "b" (.reference "B" [] "B")] }] }]

/-- The first unit asks for `A`, so the definition of `B` ends in the name of `A`. -/
theorem loopProject_both : ∃ s, convertUnits loopProject {} ["u", "v"] {} =
    some ([.converted "u" "model X \x7b\n  a: [[A]];\n\x7d;" [],
      .converted "v" "model Y \x7b\n  b: [A];\n\x7d;" []], s) := by
  generalize h : convertUnits loopProject {} ["u", "v"] {} = r
  conv at h => lhs; cbv
  subst h
  exact ⟨_, rfl⟩

theorem loopProject_alone : ∃ s, convertUnits loopProject {} ["v"] {} =
    some ([.converted "v" "model Y \x7b\n  b: [[B]];\n\x7d;" []], s) := by
  generalize h : convertUnits loopProject {} ["v"] {} = r
  conv at h => lhs; cbv
  subst h
  exact ⟨_, rfl⟩

/-- `interface A extends B { a: string }` and `interface B extends C { b: string }`;
in a unit of its own, `interface C extends A { c: string }`. `A` and `C` are
exported. -/
def ringProject : Project where
  units := [
    { name := "u", declarations := [
      { name := "A", docs := exported,
        body := .interface [] [{ name := "B", arguments := [], text := "B" }] [member "a" (.keyword "string")] },
      { name := "B", docs := {},
        body := .interface [] [{ name := "C", arguments := [], text := "C" }] [member "b" (.keyword "string")] }] },
    { name := "v", declarations := [
      { name := "C", docs := exported,
        body := .interface [] [{ name := "A", arguments := [], text := "A" }] [member "c" (.keyword "string")] }] }]

/-- The first unit lists `A`, so `C` is listed while `A` has its own members only. -/
theorem ringProject_both : ∃ s, convertUnits ringProject {} ["u", "v"] {} =
    some ([.converted "u" "model A \x7b\n  a: string;\n  b: string;\n  c: string;\n\x7d;" [],
      .converted "v" "model C \x7b\n  c: string;\n  a: string;\n\x7d;" []], s) := by
  generalize h : convertUnits ringProject {} ["u", "v"] {} = r
  conv at h => lhs; cbv
  subst h
  exact ⟨_, rfl⟩

theorem ringProject_alone : ∃ s, convertUnits ringProject {} ["v"] {} =
    some ([.converted "v" "model C \x7b\n  c: string;\n  a: string;\n  b: string;\n\x7d;" []], s) := by
  generalize h : convertUnits ringProject {} ["v"] {} = r
  conv at h => lhs; cbv
  subst h
  exact ⟨_, rfl⟩

/-- A unit that has two sections is not independent of the others. -/
theorem not_independent {p : Project} {config : Config} {first name : Text} {one two alone : Section}
    (hboth : ∃ s, convertUnits p config [first, name] {} = some ([one, two], s))
    (halone : ∃ s, convertUnits p config [name] {} = some ([alone], s)) (hne : two ≠ alone) : ¬ Independent p config := by
  intro h
  obtain ⟨s, halone⟩ := halone
  have hsections := (h _ _).1 hboth
  rw [List.forall₂_cons, List.forall₂_cons] at hsections
  obtain ⟨_, ⟨s', hsecond⟩, _⟩ := hsections
  rw [halone] at hsecond
  cases hsecond
  exact hne rfl

/-- Aliases that lead to each other and interfaces that inherit from themselves are
not independent of what is asked for first. -/
theorem sections_depend : ¬ Independent loopProject {} ∧ ¬ Independent ringProject {} := by
  constructor
  · exact not_independent loopProject_both loopProject_alone (by decide)
  · exact not_independent ringProject_both ringProject_alone (by decide)

end Document

end WireSchema
