import WireSchema.Proofs.Steps
import WireSchema.Proofs.Layout.Shown
import WireSchema.Proofs.Project.Legible
import WireSchema.Registry
/-!
# Names on one row

The names of declarations are words of their sources, and the name that a model is
displayed by is one of those or a word of a documentation tag. So it never breaks the
row that it stands on.
-/

namespace WireSchema

open Source Source.Cursor Source.Parser

variable {source : Text} {limit other : Nat} {rules : Rules} {c d : Cursor}

/-! ## Declarations -/

namespace DeclarationGrammar

theorem names_expectName (h : c.Reading source limit) : Answers expectName c fun name _ => Text.isName name = true := by
  simp only [expectName, answers_peek_bind]
  refine .ite (fun hword => .next fun _ _ => .pure ((h.2.peek 0).word ?_)) fun _ => answers_reject
  simpa [Token.isWord] using hword

theorem names_interface {docs : DocComment} (h : c.Reading source limit) :
    Answers (interface rules docs) c fun d _ => Text.isName d.name = true :=
  (ends_expect "interface" h.here).answers.bind fun _ _ h₁ =>
    (names_expectName (h.on h₁.on)).bind fun _ _ hname =>
      .next fun _ _ => .next fun _ _ => .next fun _ _ => .pure hname

theorem names_typeAlias {docs : DocComment} (h : c.Reading source limit) :
    Answers (typeAlias rules docs) c fun d _ => Text.isName d.name = true :=
  (ends_expect "type" h.here).answers.bind fun _ _ h₁ =>
    (names_expectName (h.on h₁.on)).bind fun _ _ hname =>
      .next fun _ _ => .next fun _ _ => .next fun _ _ => .next fun _ _ => .pure hname

theorem names_enumeration {docs : DocComment} (h : c.Reading source limit) :
    Answers (enumeration docs) c fun d _ => Text.isName d.name = true :=
  (ends_expect "enum" h.here).answers.bind fun _ _ h₁ =>
    (names_expectName (h.on h₁.on)).bind fun _ _ hname =>
      .next fun _ _ => .next fun _ _ => .next fun _ _ => .pure hname

end DeclarationGrammar

/-- The name of a declaration that is read is a word. -/
theorem Declaration.names_of_parse {source : Text} {declarations : List Declaration}
    (h : parse source = .ok declarations) : ∀ d ∈ declarations, Text.isName d.name = true := by
  obtain ⟨tokens, htokens, h⟩ := Except.bind_eq_ok.1 h
  obtain ⟨⟨found, after⟩, hfound, heq⟩ := Except.bind_eq_ok.1 h
  cases heq
  exact DeclarationGrammar.answers_statements And.left Reading.on DeclarationGrammar.names_interface
    DeclarationGrammar.names_typeAlias DeclarationGrammar.names_enumeration (Rules.end_upTo source _)
    (reading_ofTokens htokens) _ after hfound

/-! ## Models -/

/-- A word is a run of code points that can be seen. -/
theorem Text.seen_of_mem_words {t word : Text} (h : word ∈ words t) : word ≠ [] ∧ ∀ c ∈ word, c.isBlank = false := by
  have hword (read : Text) (hread : ∀ c ∈ read, c.isBlank = false) (hne : ¬ read.isEmpty = true) :
      read.reverse ≠ [] ∧ ∀ c ∈ read.reverse, c.isBlank = false :=
    ⟨fun hnil => hne (List.isEmpty_iff.2 (List.reverse_eq_nil_iff.1 hnil)), fun c hc => hread c (List.mem_reverse.1 hc)⟩
  have hgo (t read : Text) (hread : ∀ c ∈ read, c.isBlank = false) (h : word ∈ words.go read t) :
      word ≠ [] ∧ ∀ c ∈ word, c.isBlank = false := by
    induction t generalizing read with
    | nil =>
      rw [words.go] at h
      split at h
      · cases h
      next hne => exact List.mem_singleton.1 h ▸ hword read hread hne
    | cons c rest ih =>
      rw [words.go] at h
      split at h
      · split at h
        · exact ih [] (List.forall_mem_nil _) h
        next hne =>
          rcases List.mem_cons.1 h with rfl | h
          · exact hword read hread hne
          · exact ih [] (List.forall_mem_nil _) h
      next hc => exact ih (c :: read) (List.forall_mem_cons.2 ⟨Bool.eq_false_iff.2 hc, hread⟩) h
  exact hgo t [] (List.forall_mem_nil _) h

namespace Registry

variable {p : Project} {config : Config} {s : Store}

theorem mem_mapM {α β : Type} {f : α → Resolving β} {as : List α} {b : β} (h : b ∈ (as.mapM f s).1) :
    ∃ a ∈ as, ∃ s', (f a s').1 = b := by
  induction as generalizing s with
  | nil => cases h
  | cons a as ih =>
    rw [Resolving.mapM_cons] at h
    rcases List.mem_cons.1 h with rfl | h
    · exact ⟨a, List.mem_cons_self, s, rfl⟩
    · obtain ⟨a', ha', s', hs'⟩ := ih h
      exact ⟨a', List.mem_cons_of_mem a ha', s', hs'⟩

/-- Every model is displayed by the name that its declaration is exported with. -/
theorem exportName?_of_mem {model : Model} (h : model ∈ (build p config s).1.models) :
    ∃ declaration, p.declaration? model.origin = some declaration ∧
      exportName? config declaration = some model.displayName := by
  obtain ⟨found, hfound, hmodel⟩ := List.mem_filterMap.1 h
  obtain ⟨id, _, s', hs'⟩ := mem_mapM hfound
  rw [show found = some model from hmodel, modelOf?] at hs'
  cases hdeclaration : p.declaration? id with
  | none =>
    rw [hdeclaration] at hs'
    cases hs'
  | some declaration =>
    rw [hdeclaration] at hs'
    simp only at hs'
    cases hname : exportName? config declaration with
    | none =>
      rw [hname] at hs'
      cases hs'
    | some name =>
      rw [hname] at hs'
      cases hs'
      exact ⟨declaration, hdeclaration, hname⟩

/-- The name of a model stands on one row. -/
theorem line_displayName {calls : List (Text × Text)} {model : Model}
    (h : model ∈ (build (Project.after calls) config s).1.models) : CodePoint.ofChar '\n' ∉ model.displayName := by
  obtain ⟨declaration, hdeclaration, hname⟩ := exportName?_of_mem h
  obtain ⟨unit, hunit, hmem⟩ := Project.mem_of_declaration? hdeclaration
  rw [exportName?] at hname
  split at hname
  · cases hname
  next tag _ _ =>
    rw [← Option.some.inj hname]
    cases hwords : Text.words tag.text with
    | nil => exact Text.line_of_isName (Project.declarations_after Declaration.names_of_parse calls unit hunit _ hmem)
    | cons word rest =>
      intro hmem
      have hseen := (Text.seen_of_mem_words (hwords ▸ List.mem_cons_self : word ∈ Text.words tag.text)).2 _ hmem
      exact absurd hseen (by decide)

end Registry

end WireSchema
