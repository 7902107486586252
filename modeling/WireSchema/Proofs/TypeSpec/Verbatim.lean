import WireSchema.Proofs.Grammar.Grouped
import WireSchema.Proofs.TypeSpec.Blocks
import WireSchema.Proofs.TypeSpec.Endless
import WireSchema.Proofs.TypeSpec.Vacant
/-!
# Types that are written as they stand

A type of a shape that TypeSpec lacks, and a type that is met again inside of
itself, is written as its text in the source. In arrays and unions the text stays
whole where nothing that comes behind gets into it.
-/

namespace WireSchema

open Source Project

namespace TypeSpec

variable {setting : Setting} {path members : List TypeId} {s s' : Store} {t element : TypeId} {layout : Layout} {n : Nat}

/-! ## The fallback -/

/-- The type is written as it stands: it is met again on the path, or its shape is
none of TypeSpec. -/
inductive FallsBack (s : Store) (path : List TypeId) (t : TypeId) : Prop where
  | recursive : Tracked (s.node t) → t ∈ path → FallsBack s path t
  | other : (s.node t).shape = .other → FallsBack s path t
  | list : (s.node t).shape = .array none → FallsBack s path t
  | unnamed {arguments : List TypeId} : (s.node t).shape = .instantiation arguments → (s.node t).symbol = none →
    FallsBack s path t

theorem convertIn_fallsBack (setting : Setting) (h : FallsBack s path t) (n : Nat) :
    ∃ events, convertIn setting (n + 1) path t s = some (.text (s.node t).text, { s with events }) := by
  by_cases hrecursive : Tracked (s.node t) ∧ t ∈ path
  · rw [convertIn_of_mem hrecursive.1 hrecursive.2]
    exact verbatim_apply t _ s
  · have hout (htracked : Tracked (s.node t)) : path.contains t = false := by
      simpa using fun hmem => hrecursive ⟨htracked, hmem⟩
    cases h with
    | recursive htracked hmem => exact absurd ⟨htracked, hmem⟩ hrecursive
    | other hshape => exact convertWith_other _ path hshape
    | list hshape =>
      have hpath := hout (by simp [Tracked, hshape])
      rw [convertIn, convertWith_apply]
      simp only [hshape, hpath, Bool.false_eq_true, if_false]
      exact verbatim_apply t _ s
    | unnamed hshape hsymbol =>
      have hpath := hout (by simp [Tracked, hshape])
      rw [convertIn, convertWith_apply]
      simp only [hshape, hpath, Bool.false_eq_true, if_false, instantiation, hsymbol]
      exact verbatim_apply t _ s

/-! ## Arrays and unions of such types -/

/-- The type is written as an array of another: a list or the generic type `Array`. -/
inductive IsArrayOf (node : TypeNode) (element : TypeId) : Prop where
  | list : node.shape = .array (some element) → IsArrayOf node element
  | generic {rest : List TypeId} : node.symbol = some "Array" → node.shape = .instantiation (element :: rest) →
    IsArrayOf node element

theorem convertIn_array (h : IsArrayOf (s.node t) element) (ht : t ∉ path) (n : Nat) :
    convertIn setting (n + 1) path t s = arrayOf setting (convertIn setting n) (t :: path) element s := by
  have hpath : path.contains t = false := by simpa using ht
  rw [convertIn, convertWith_apply]
  cases h with
  | list hshape => simp only [hshape, hpath, Bool.false_eq_true, if_false]
  | generic hsymbol hshape =>
    simp only [hshape, hpath, Bool.false_eq_true, if_false, instantiation, hsymbol]
    rfl

/-- The text of the element gets parentheses if it is a union. -/
theorem array_written (h : IsArrayOf (s.node t) element) (ht : t ∉ path) (hmodel : setting.registry.find? element = none)
    (hfalls : FallsBack s (t :: path) element) (n : Nat) : ∃ events layout,
      convertIn setting (n + 2) path t s = some (layout, { s with events }) ∧
        layout.render = if (s.node element).isUnion then "(" ++ (s.node element).text ++ ")[]"
          else (s.node element).text ++ "[]" := by
  obtain ⟨events, hrun⟩ := convertIn_fallsBack setting hfalls n
  have hreference : reference setting (convertIn setting (n + 1)) (t :: path) element =
      convertIn setting (n + 1) (t :: path) element := by rw [reference, hmodel]
  rw [convertIn_array h ht, arrayOf, hreference, Converting.bind_apply, hrun, Option.bind_some, Converting.bind_apply,
    Converting.lift_apply, Option.bind_some]
  cases hunion : (s.node element).isUnion with
  | true =>
    have hboth : ((s.node element).isUnion && (setting.registry.find? element).isNone) = true := by rw [hunion, hmodel]; rfl
    exact ⟨events, .concat ["(", .text (s.node element).text, ")[]"], congrFun (if_pos hboth) _, by
      simp [render_concat, Layout.render]⟩
  | false =>
    have hnot : ¬ ((s.node element).isUnion && (setting.registry.find? element).isNone) = true := by simp [hunion]
    exact ⟨events, .concat [.text (s.node element).text, "[]"], congrFun (if_neg hnot) _, by
      simp [render_concat, Layout.render]⟩

theorem FallsBack.of_node (h : FallsBack s path t) (hnode : s'.node t = s.node t) : FallsBack s' path t := by
  cases h with
  | recursive htracked hmem => exact .recursive (hnode ▸ htracked) hmem
  | other hshape => exact .other (hnode ▸ hshape)
  | list hshape => exact .list (hnode ▸ hshape)
  | unnamed hshape hsymbol => exact .unnamed (hnode ▸ hshape) (hnode ▸ hsymbol)

/-- The text is the type's own, if the type has no model and is written as it stands. -/
def Stands (setting : Setting) (s : Store) (path : List TypeId) (t : TypeId) (text : Text) : Prop :=
  t.index < s.types.size → setting.registry.find? t = none → FallsBack s path t → text = (s.node t).text

theorem stands_reference (hrun : reference setting (convertIn setting n) path t s = some (layout, s')) :
    Stands setting s path t layout.render := by
  intro _ hmodel hfalls
  rw [reference, hmodel] at hrun
  cases n with
  | zero => cases hrun
  | succ n =>
    obtain ⟨events, hwritten⟩ := convertIn_fallsBack setting hfalls n
    cases hwritten.symm.trans hrun
    rw [Layout.render]

/-- The members of a union that are written as they stand have their texts there;
writing the others leaves those alone. -/
theorem references_stand {written : List Layout}
    (hrun : references setting (convertIn setting n) path members s = some (written, s')) :
    List.Forall₂ (Stands setting s path) members (written.map (·.render)) := by
  induction members generalizing s written with
  | nil =>
    cases hrun
    exact .nil
  | cons t members ih =>
    rw [references, List.mapM_cons, Converting.bind_apply, Option.bind_eq_some_iff] at hrun
    obtain ⟨⟨first, s₁⟩, hfirst, hrun⟩ := hrun
    rw [Converting.bind_apply, Option.bind_eq_some_iff] at hrun
    obtain ⟨⟨others, s₂⟩, hrest, hrun⟩ := hrun
    cases hrun
    have hkeeping := keeping_unfolds setting.project
    have hunfolds : setting.project.Unfolds s s₁ :=
      follows_reference hkeeping (follows_convertIn hkeeping rfl n) path t s first s₁ hfirst
    refine .cons (stands_reference hfirst) ((ih hrest).imp fun u w hstands hlt hmodel hfalls => ?_)
    have hnode := hunfolds.node u hlt
    rw [← hnode]
    exact hstands (Nat.lt_of_lt_of_le hlt hunfolds.size) hmodel (hfalls.of_node hnode)

/-- A union is written as its members with bars between them. -/
theorem union_written (hshape : (s.node t).shape = .union members) (ht : t ∉ path)
    (hrun : convertIn setting n path t s = some (layout, s')) : ∃ written : List Text,
      layout.render = Text.join " | " written ∧ List.Forall₂ (Stands setting s (t :: path)) members written := by
  have hpath : path.contains t = false := by simpa using ht
  cases n with
  | zero => cases hrun
  | succ n =>
    rw [convertIn, convertWith_apply] at hrun
    simp only [hshape, hpath, Bool.false_eq_true, if_false] at hrun
    rw [Converting.bind_apply, Option.bind_eq_some_iff] at hrun
    obtain ⟨⟨written, s₁⟩, hwritten, hrun⟩ := hrun
    cases hrun
    have hjoin : (Layout.union written).render = Text.join " | " (written.map (·.render)) := render_join " | " written
    exact ⟨written.map (·.render), hjoin, references_stand hwritten⟩

/-! ## What is read back -/

/-- The text of a type that is written as it stands is the text of one element of
an array that is read back, if it may stand before brackets or is a union, and
that of one member of a union that is read back, if it may stand between bars. -/
theorem standing_grouped (setting : Setting) (n : Nat) (s : Store) (path : List TypeId) (a : TypeId) (ha : a ∉ path) :
    (∀ element (t : TypeText), IsArrayOf (s.node a) element → setting.registry.find? element = none →
      FallsBack s (a :: path) element → t.text = (s.node element).text → (s.node element).isUnion = true ∨ t.IsElement →
      ∃ layout s' text, convertIn setting (n + 2) path a s = some (layout, s') ∧
        TypeExpr.parse layout.render = .ok (.array t.type text) ∧ t.type.text = (s.node element).text) ∧
    ∀ members layout s', (s.node a).shape = .union members → convertIn setting n path a s = some (layout, s') →
      ∃ written : List Text, layout.render = Text.join " | " written ∧
        List.Forall₂ (Stands setting s (a :: path)) members written ∧
        ∀ ts : List TypeText, ts.map (·.text) = written → 2 ≤ ts.length → (∀ t ∈ ts, t.IsMember) →
          (∀ t ∈ ts.dropLast, t.IsClosed) → ∃ types text, TypeExpr.parse layout.render = .ok (.union types text) ∧
            List.Forall₂ (fun m e => Stands setting s (a :: path) m e.text) members types := by
  refine ⟨fun element t harray hmodel hfalls htext hkept => ?_, fun members layout s' hshape hrun => ?_⟩
  · obtain ⟨events, layout, hrun, hwritten⟩ := array_written harray ha hmodel hfalls n
    rw [← htext] at hwritten
    have hread : ∃ text, TypeExpr.parse layout.render = .ok (.array t.type text) := by
      rw [hwritten]
      cases hunion : (s.node element).isUnion with
      | true => exact t.parse_parenthesized_array
      | false => exact t.parse_array (hkept.resolve_left (by simp [hunion]))
    obtain ⟨text, hread⟩ := hread
    exact ⟨layout, _, text, hrun, hread, t.whole.trans htext⟩
  · obtain ⟨written, hrender, hstand⟩ := union_written hshape ha hrun
    refine ⟨written, hrender, hstand, fun ts htexts hmany hmembers hclosed => ?_⟩
    obtain ⟨t, t', ts, rfl⟩ : ∃ t t' rest, ts = t :: t' :: rest := by
      match ts, hmany with
      | t :: t' :: rest, _ => exact ⟨t, t', rest, rfl⟩
    obtain ⟨text, hread⟩ := TypeText.parse_union t (t' :: ts) nofun hmembers hclosed
    rw [htexts, ← hrender] at hread
    refine ⟨_, text, hread, List.forall₂_map_right_iff.2 ?_⟩
    rw [← htexts, List.forall₂_map_right_iff] at hstand
    exact hstand.imp fun m t hstands => t.whole.symm ▸ hstands

/-- A query, as a text that is read as one type. -/
def queryText : TypeText where
  text := "typeof x"
  tokens := [flatToken .word "typeof" 0 6 false [], flatToken .word "x" 7 8 true []]
  last := flatToken .endOfInput [] 8 8 false []
  type := .verbatim "typeof x" .typeQuery
  lexed := by cbv
  tight := rfl
  nested := by unfold Nested; cbv
  read := rfl
  whole := rfl

theorem queryText_isMember : queryText.IsMember := ⟨rfl, nofun, nofun⟩

/-- A function, as a text that is read as one type. -/
def functionText : TypeText where
  text := "() => void"
  tokens := [flatToken .mark "(" 0 1 false [], flatToken .mark ")" 1 2 false [], flatToken .mark "=>" 3 5 true [],
    flatToken .word "void" 6 10 true []]
  last := flatToken .endOfInput [] 10 10 false []
  type := .verbatim "() => void" .function
  lexed := by cbv
  tight := rfl
  nested := by unfold Nested; cbv
  read := rfl
  whole := rfl

theorem functionText_isMember : functionText.IsMember := ⟨rfl, nofun, nofun⟩

/-- A union of a name and an array, as a text that is read as one type. -/
def treeText : TypeText where
  text := "Leaf | Tree[]"
  tokens := [flatToken .word "Leaf" 0 4 false [], flatToken .mark "|" 5 6 true [], flatToken .word "Tree" 7 11 true [],
    flatToken .mark "[" 11 12 false [], flatToken .mark "]" 12 13 false []]
  last := flatToken .endOfInput [] 13 13 false []
  type := .union [.reference "Leaf" [] "Leaf", .array (.reference "Tree" [] "Tree") "Tree[]"] "Leaf | Tree[]"
  lexed := by cbv
  tight := rfl
  nested := by unfold Nested; cbv
  read := rfl
  whole := rfl

/-- A query, an array of it, a function, a union of the two, and one with an array of itself in it. -/
def standingStore : Store := bareStore [
  { shape := .other, text := "typeof x" },
  { shape := .array (some ⟨0⟩), text := "(typeof x)[]" },
  { shape := .other, text := "() => void" },
  { shape := .union [⟨0⟩, ⟨2⟩], text := "typeof x | (() => void)" },
  { shape := .union [⟨0⟩, ⟨5⟩], text := "Leaf | Tree[]" },
  { shape := .array (some ⟨4⟩), text := "Tree[]" }]

/-- Arrays of the query and of the union keep them whole, and so does the union of the query and the function. -/
theorem standing_grouped_query :
    (∃ layout s' text, convertIn { registry := {} } 2 [] ⟨1⟩ standingStore = some (layout, s') ∧
      TypeExpr.parse layout.render = .ok (.array (.verbatim "typeof x" .typeQuery) text)) ∧
    (∃ layout s' text, convertIn { registry := {} } 2 [⟨4⟩] ⟨5⟩ standingStore = some (layout, s') ∧
      TypeExpr.parse layout.render = .ok (.array treeText.type text)) ∧
    ∃ layout s' types text, convertIn { registry := {} } 2 [] ⟨3⟩ standingStore = some (layout, s') ∧
      TypeExpr.parse layout.render = .ok (.union types text) ∧ types.map (·.text) = ["typeof x", "() => void"] := by
  refine ⟨?_, ?_, ?_⟩
  · obtain ⟨layout, s', text, hrun, hread, _⟩ := (standing_grouped { registry := {} } 0 standingStore [] ⟨1⟩ List.not_mem_nil).1 ⟨0⟩
      queryText (.list rfl) rfl (.other rfl) rfl (.inr ⟨rfl, by decide⟩)
    exact ⟨layout, s', text, hrun, hread⟩
  · obtain ⟨layout, s', text, hrun, hread, _⟩ :=
      (standing_grouped { registry := {} } 0 standingStore [⟨4⟩] ⟨5⟩ (by decide)).1 ⟨4⟩ treeText (.list rfl) rfl
        (.recursive trivial (by decide)) rfl (.inl rfl)
    exact ⟨layout, s', text, hrun, hread⟩
  · have htexts : (convertIn { registry := {} } 2 [] ⟨3⟩ standingStore).map (·.1.render) =
        some ("typeof x | () => void" : Text) := by cbv
    obtain ⟨⟨layout, s'⟩, hrun, htext⟩ := Option.map_eq_some_iff.1 htexts
    obtain ⟨written, hwritten, hstand, hread⟩ :=
      (standing_grouped { registry := {} } 2 standingStore [] ⟨3⟩ List.not_mem_nil).2 _ layout s' rfl hrun
    obtain ⟨first, _, hfirst, hrest, rfl⟩ := List.forall₂_cons_left_iff.1 hstand
    obtain ⟨second, _, hsecond, hnone, rfl⟩ := List.forall₂_cons_left_iff.1 hrest
    cases hnone
    obtain rfl : first = "typeof x" := hfirst (by decide) rfl (.other rfl)
    obtain rfl : second = "() => void" := hsecond (by decide) rfl (.other rfl)
    obtain ⟨types, text, hread, hkept⟩ := hread [queryText, functionText] rfl (Nat.le_refl 2)
      (by simpa using ⟨queryText_isMember, functionText_isMember⟩) (by simpa using .inl rfl)
    refine ⟨layout, s', types, text, hrun, hread, ?_⟩
    obtain ⟨_, _, hfirst, hrest, rfl⟩ := List.forall₂_cons_left_iff.1 hkept
    obtain ⟨_, _, hsecond, hnone, rfl⟩ := List.forall₂_cons_left_iff.1 hrest
    cases hnone
    rw [List.map_cons, List.map_singleton, hfirst (by decide) rfl (.other rfl), hsecond (by decide) rfl (.other rfl)]
    rfl

/-! ## An array of functions -/

/-- An exported array of functions. -/
def functionCalls : List (Text × Text) := [("u", "/** @model */ type X = (() => void)[];")]

def functionProject : Project where
  units := [{ name := "u", declarations := [
    { name := "X", docs := { tags := [{ name := "model", text := [] }] },
      body := .typeAlias [] (.array (.verbatim "() => void" .function) "(() => void)[]") }] }]

set_option maxRecDepth 4000 in
theorem after_functionCalls : Project.after functionCalls = functionProject := by
  have htokens : Source.tokenize "/** @model */ type X = (() => void)[];" 0
      ("/** @model */ type X = (() => void)[];" : Text).length =
      .ok [flatToken .word "type" 14 18 true ["/** @model */"], flatToken .word "X" 19 20 true [],
        flatToken .mark "=" 21 22 true [], flatToken .mark "(" 23 24 true [], flatToken .mark "(" 24 25 false [],
        flatToken .mark ")" 25 26 false [], flatToken .mark "=>" 27 29 true [], flatToken .word "void" 30 34 true [],
        flatToken .mark ")" 34 35 false [], flatToken .mark "[" 35 36 false [], flatToken .mark "]" 36 37 false [],
        flatToken .mark ";" 37 38 false [], flatToken .endOfInput [] 38 38 false []] := by cbv
  refine Project.after_parse ?_
  rw [Declaration.parse]
  exact (congrArg (· >>= _) htokens).trans rfl

/-- What a conversion of the array goes by. -/
def functionSetting : Setting where
  project := functionProject
  registry := (Registry.build functionProject {} {}).1

/-- Brackets behind a function type are read as brackets of its result. -/
theorem parse_function_brackets : TypeExpr.parse "() => void[]" = .ok (.verbatim "() => void[]" .function) := by
  have htokens : Source.tokenize "() => void[]" 0 ("() => void[]" : Text).length =
      .ok [flatToken .mark "(" 0 1 false [], flatToken .mark ")" 1 2 false [], flatToken .mark "=>" 3 5 true [],
        flatToken .word "void" 6 10 true [], flatToken .mark "[" 10 11 false [], flatToken .mark "]" 11 12 false [],
        flatToken .endOfInput [] 12 12 false []] := by cbv
  rw [TypeExpr.parse]
  exact (congrArg (· >>= _) htokens).trans rfl

/-- The types of the array once the registry is built. -/
def functionStore : Store := (Registry.build functionProject {} {}).2

/-- An array of functions is written as a function whose result is an array. -/
theorem function_array_regrouped : Project.after functionCalls = functionProject ∧
    ∃ model ∈ functionSetting.registry.models, ∃ (element : TypeId) (layout : Layout) (s' : Store),
      IsArrayOf (functionStore.node model.type) element ∧ functionSetting.registry.find? element = none ∧
      FallsBack functionStore [model.type] element ∧ (functionStore.node element).text = "() => void" ∧
      convert functionSetting model.type functionStore = some (layout, s') ∧ layout.render = "() => void[]" ∧
      ∀ e text, TypeExpr.parse layout.render ≠ .ok (.array e text) := by
  have htexts : (functionSetting.registry.models.map fun model =>
      (model.type, (convert functionSetting model.type functionStore).map (·.1.render))) =
      [((⟨1⟩ : TypeId), some ("() => void[]" : Text))] := by cbv
  obtain ⟨model, hmodels, hrun⟩ := List.map_eq_singleton_iff.1 htexts
  obtain ⟨htype, hrun⟩ := Prod.mk.inj hrun
  obtain ⟨⟨layout, s'⟩, hrun, htext⟩ := Option.map_eq_some_iff.1 hrun
  refine ⟨after_functionCalls, model, hmodels ▸ List.mem_singleton_self model, ⟨0⟩, layout, s',
    ?_, by cbv, .other (by cbv), by cbv, hrun, htext, fun e text => ?_⟩
  · rw [htype]
    exact .list (by cbv)
  · rw [htext, parse_function_brackets]
    simp

end TypeSpec

end WireSchema
