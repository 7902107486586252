import WireSchema.Proofs.Grammar.Moves
import WireSchema.Proofs.Lexing.Strings
import WireSchema.Proofs.TypeSpec.Placed
/-!
# Literals

A string, a template without holes and a member of an enumeration that is given
as a string are written alike wherever they stand, with the quotes of JSON.
These leave the start of an interpolation as it is, so it is a TypeSpec literal
just for the texts without one.
-/

namespace WireSchema

open Source Project TypeSpec

/-- The type is a string or a template without holes, and this is its text. -/
inductive LiteralOf (v : Text) : TypeExpr → Prop where
  | string : LiteralOf v (.literal (Text.quote v))
  | template {spans : List (Span TypeExpr)} {text : Text} :
    Resolving.plainTemplate? spans = some v → LiteralOf v (.template spans text)

variable {p : Project} {config : Config} {s : Store} {c : Chart} {root : Root} {steps : List Nat} {context : Context}
  {e : TypeExpr} {t : TypeId} {setting : Setting} {v : Text}

theorem LiteralOf.target? (h : LiteralOf v e) : p.target? context e = none := by
  cases h <;> rfl

/-- The node of a literal is its quoted text. -/
theorem Stands.literal (h : Stands p s c root steps context e t) (hcharted : p.Charted s c) (he : LiteralOf v e) :
    s.node t = { shape := .other, text := Text.quote v } := by
  obtain ⟨types, _, hnode⟩ := h.node hcharted he.target? (by cases he <;> rfl)
  rw [hnode]
  cases he with
  | string => rfl
  | template hplain => rw [nodeOf, hplain]

/-- The type of an enumeration is the union of its values. -/
theorem enumeration_values (h : p.Charted s c) {d : DeclarationId} {declaration : Declaration} {members : List EnumMember}
    (hd : p.declaration? d = some declaration) (hbody : declaration.body = .enumeration members)
    (ht : s.declared? d = some t) :
    ∃ values : List TypeId, (s.node t).shape = .union values ∧ values.length = members.length ∧
      ∀ (i : Nat) (m : EnumMember) (u : TypeId), members[i]? = some m → values[i]? = some u → c.types u.index = .value d i ∧
        s.node u = { shape := .other, text := m.value.getD (declaration.name ++ "." ++ m.name) } := by
  have hwhole : p.body? d = some (.enumeration members) := by rw [body?, hd, ← hbody]; rfl
  obtain ⟨earlier, ⟨hlt, _, hentry⟩, _⟩ := h.entries.entry ht
  rw [hwhole] at hentry
  have hnode := h.nodes t hlt
  rw [NodeOk, show c.types t.index = _ from hentry] at hnode
  obtain ⟨declaration', hd', hnode⟩ := hnode
  rw [hd] at hd'
  cases hd'
  rw [hbody] at hnode
  obtain ⟨values, hnode, hlength, hvalues⟩ := hnode
  refine ⟨values, by rw [hnode], hlength, fun i m u hm hu => ?_⟩
  obtain ⟨hbefore, horigin⟩ := hvalues i u hu
  refine ⟨horigin, ?_⟩
  have hvalue := h.nodes u (Nat.lt_trans hbefore hlt)
  rw [NodeOk, horigin] at hvalue
  obtain ⟨declaration', members', m', hd', hbody', hm', hvalue⟩ := hvalue
  rw [hd] at hd'
  cases hd'
  rw [hbody] at hbody'
  cases hbody'
  rw [hm] at hm'
  cases hm'
  exact hvalue

namespace Document

variable {names : List Text} {sections : List Section}

theorem Outcome.literal (h : Outcome p config names sections s setting c)
    (hstands : Stands p s c root steps context e t) (he : LiteralOf v e) :
    WrittenInFull setting s t (Text.quote v) ∧ (Inner root steps → ReferredToAs setting s t (Text.quote v)) := by
  have hfull : WrittenInFull setting s t _ := writtenInFull_other (hstands.literal h.charted he)
  exact ⟨hfull, fun hinner => referredToAs_of_find? hfull (h.unregistered hinner (hstands.origin he.target?).2)⟩

theorem Outcome.values (h : Outcome p config names sections s setting c) {d : DeclarationId} {declaration : Declaration}
    {members : List EnumMember} (hd : p.declaration? d = some declaration)
    (hbody : declaration.body = .enumeration members) (ht : s.declared? d = some t) :
    ∃ values : List TypeId, (s.node t).shape = .union values ∧ values.length = members.length ∧
      ∀ (i : Nat) (m : EnumMember) u v, members[i]? = some m → values[i]? = some u →
        m.value = some (Text.quote v) → ReferredToAs setting s u (Text.quote v) := by
  obtain ⟨values, hshape, hlength, hvalues⟩ := enumeration_values h.charted hd hbody ht
  refine ⟨values, hshape, hlength, fun i m u v hm hu hv => ?_⟩
  obtain ⟨horigin, hnode⟩ := hvalues i m u hm hu
  rw [hv, Option.getD_some] at hnode
  refine referredToAs_of_find? (writtenInFull_other hnode) (h.registry.find?_eq_none h.charted ?_)
  rw [horigin]
  exact not_isWhole_value d i

end Document

/-- Literals are written with the quotes of JSON, at any depth. -/
theorem literals_written {names : List Text} {sections : List Section}
    (h : Document.convertUnits p config names {} = some (sections, s)) :
    ∃ setting c, Document.Outcome p config names sections s setting c ∧
      (∀ root steps context e t v, Stands p s c root steps context e t → LiteralOf v e →
        WrittenInFull setting s t (Text.quote v) ∧ (Inner root steps → ReferredToAs setting s t (Text.quote v))) ∧
      (∀ d declaration members t, p.declaration? d = some declaration → declaration.body = .enumeration members →
        s.declared? d = some t → ∃ values : List TypeId, (s.node t).shape = .union values ∧
          values.length = members.length ∧ ∀ (i : Nat) (m : EnumMember) u v, members[i]? = some m →
            values[i]? = some u → m.value = some (Text.quote v) → ReferredToAs setting s u (Text.quote v)) ∧
      ∀ v, Text.quote v = Text.literal v ↔ ¬ Text.interpolation <:+: v := by
  obtain ⟨setting, c, houtcome⟩ := Document.outcome h
  exact ⟨setting, c, houtcome, fun _ _ _ _ _ _ hstands he => houtcome.literal hstands he,
    fun _ _ _ _ hd hbody ht => houtcome.values hd hbody ht, Text.quote_eq_literal⟩

/-! ## An interpolation that is none -/

/-- Three literals, each of them the text of an interpolation's start. -/
def dollarProject : Project where
  units := [{ name := "u", declarations := [
    { name := "Words", docs := { tags := [{ name := "model", text := [] }] },
      body := .typeAlias [] (.tuple [.literal (Text.quote Text.interpolation), .template [.chunk Text.interpolation] []]
        [] false) },
    { name := "Mark", docs := { tags := [{ name := "model", text := [] }] },
      body := .enumeration [{ name := "Open", value := some (Text.quote Text.interpolation) }] }] }]

theorem dollarProject_converts : ∃ s, Document.convertUnits dollarProject {} ["u"] {} =
    some ([.converted "u" "alias Words = [\"$\x7b\", \"$\x7b\"];\n\nalias Mark = \"$\x7b\";" []], s) := by
  have hrun : (Document.convertUnits dollarProject {} ["u"] {}).map (·.1) =
      some [.converted "u" "alias Words = [\"$\x7b\", \"$\x7b\"];\n\nalias Mark = \"$\x7b\";" []] := by cbv
  obtain ⟨⟨sections, s⟩, hs, rfl⟩ := Option.map_eq_some_iff.1 hrun
  exact ⟨s, hs⟩

/-- The string and the template stand in the tuple. -/
theorem dollarProject_stands {names : List Text} {sections : List Section}
    (h : Document.Outcome dollarProject {} names sections s setting c) (i : Nat) (e : TypeExpr)
    (he : [TypeExpr.literal (Text.quote Text.interpolation), .template [.chunk Text.interpolation] []][i]? = some e) :
    ∃ t, Stands dollarProject s c (.body ⟨0, 0⟩) [i] { unit := 0 } e t := by
  obtain ⟨t, ht⟩ := h.exists_body (d := ⟨0, 0⟩) rfl rfl rfl rfl
  exact ht.exists_part h.charted rfl rfl he

theorem literals_written_dollar : ∃ s setting c t,
    Document.Outcome dollarProject {} ["u"]
      [.converted "u" "alias Words = [\"$\x7b\", \"$\x7b\"];\n\nalias Mark = \"$\x7b\";" []] s setting c ∧
    Stands dollarProject s c (.body ⟨0, 0⟩) [1] { unit := 0 } (.template [.chunk Text.interpolation] []) t ∧
    ReferredToAs setting s t (Text.quote Text.interpolation) := by
  obtain ⟨s, hs⟩ := dollarProject_converts
  obtain ⟨setting, c, houtcome, hwritten, _⟩ := literals_written hs
  obtain ⟨t, ht⟩ := dollarProject_stands houtcome 1 _ rfl
  exact ⟨s, setting, c, t, houtcome, ht,
    (hwritten _ _ _ _ _ _ ht (.template rfl)).2 fun _ _ => List.cons_ne_nil _ _⟩

/-- Neither the string nor the template has the guard of a TypeSpec literal. -/
theorem literal_not_guarded : ∃ s setting c t u,
    Document.Outcome dollarProject {} ["u"]
      [.converted "u" "alias Words = [\"$\x7b\", \"$\x7b\"];\n\nalias Mark = \"$\x7b\";" []] s setting c ∧
    Stands dollarProject s c (.body ⟨0, 0⟩) [0] { unit := 0 } (.literal (Text.quote Text.interpolation)) t ∧
    ¬ ReferredToAs setting s t (Text.literal Text.interpolation) ∧
    Stands dollarProject s c (.body ⟨0, 0⟩) [1] { unit := 0 } (.template [.chunk Text.interpolation] []) u ∧
    ¬ ReferredToAs setting s u (Text.literal Text.interpolation) := by
  obtain ⟨s, hs⟩ := dollarProject_converts
  obtain ⟨setting, c, houtcome⟩ := Document.outcome hs
  have hguard : Text.quote Text.interpolation ≠ Text.literal Text.interpolation := by decide
  have hinner (i : Nat) : Inner (.body ⟨0, 0⟩) [i] := fun _ _ => List.cons_ne_nil _ _
  obtain ⟨t, ht⟩ := dollarProject_stands houtcome 0 _ rfl
  obtain ⟨u, hu⟩ := dollarProject_stands houtcome 1 _ rfl
  refine ⟨s, setting, c, t, u, houtcome, ht, fun h => ?_, hu, fun h => ?_⟩
  · exact hguard (((houtcome.literal ht .string).2 (hinner 0)).unique h)
  · exact hguard (((houtcome.literal hu (.template rfl)).2 (hinner 1)).unique h)

end WireSchema
