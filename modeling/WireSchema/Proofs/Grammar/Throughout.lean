import WireSchema.Proofs.Grammar.Restated
import WireSchema.Proofs.Project.Legible
/-!
# Every type of a source is read back

The rules are followed one by one: what each keeps is the text of the tokens that
it read, or the text of what it nests, or a method's.
-/

namespace WireSchema

open Source Source.Cursor Source.Parser TypeGrammar

/-- The type and what stands in it is read back. -/
def TypeExpr.Throughout (source : Text) (e : TypeExpr) : Prop := ∀ m ∈ e.nodes, m.Restated source

/-- What stands in the type is read back, and so is the type, unless its text is that of the tokens from `c` to `d`. -/
structure TypeExpr.Drafted (source : Text) (c d : Cursor) (e : TypeExpr) : Prop where
  inner : ∀ m ∈ e.inner, m.Restated source
  whole : e.Restated source ∨ e.text = spell (c.upTo d)

section
variable {source : Text} {n : Nat} {c d start : Cursor} {e : TypeExpr}

theorem TypeExpr.Throughout.drafted (h : e.Throughout source) : e.Drafted source c d :=
  ⟨fun m hm => h m (List.mem_cons_of_mem _ hm), .inl (h e List.mem_cons_self)⟩

/-- What is read by a rule that keeps its text is read back. -/
theorem TypeExpr.Drafted.throughout (h : e.Drafted source c d) (hc : c.StandsIn source)
    (hread : ReadFrom (Rules.upTo source n) c e d) :
    e.Throughout source :=
  List.forall_mem_cons.2 ⟨h.whole.elim id fun htext => restated_read hc hread htext, h.inner⟩

theorem drafted_verbatim {reason : Unmodelled} : (TypeExpr.verbatim (spell (c.upTo d)) reason).Drafted source c d :=
  ⟨by simp, .inr rfl⟩

theorem answers_verbatim_of {reason : Unmodelled} : Answers (do
    return .verbatim (← textSince c) reason : Parser TypeExpr) d fun e d => e.Drafted source c d := by
  simp only [answers_textSince_bind]
  exact .pure drafted_verbatim

theorem Source.Parser.Answers.self {α : Type} {p : Parser α} : Answers p c fun a d => p c = .ok (a, d) := fun _ _ h => h

theorem Source.Cursor.StandsIn.forth_to (h : c.StandsIn source) (hd : c.Forth d) : d.StandsIn source := h.reaches hd.reaches

theorem drafts_functionType (rules : Rules) (c : Cursor) : Answers (functionType rules) c fun e d => e.Drafted source c d := by
  simp only [functionType, answers_get_bind]
  exact .next fun _ _ => .next fun _ _ => .next fun _ _ => .next fun _ _ => .next fun _ _ => .next fun _ _ => .next fun _ _ =>
    answers_verbatim_of

variable (hr : (Rules.upTo source n).Restates source)
include hr

/-! ## Members of object shapes -/

theorem throughout_memberType (h : c.StandsIn source) :
    Answers (memberType (Rules.upTo source n)) c fun e _ => e.Throughout source := by
  simp only [memberType, answers_get_bind]
  refine .ite (fun _ => fun _ _ hmethod => restated_method hr h hmethod) fun _ => (forth_accept ":" h.forth).bind fun _ _ h₁ =>
    .ite (fun _ => hr.type (h.forth_to h₁.1)) fun _ => .pure ?_
  exact List.forall_mem_cons.2 ⟨.inr readBack_any, by simp⟩

theorem throughout_member (h : c.StandsIn source) :
    Answers (member (Rules.upTo source n)) c fun found _ => ∀ m ∈ found, m.type.Throughout source := by
  have hskipped {d : Cursor} : Answers (do
      skipSignature (Rules.upTo source n)
      return none : Parser (Option (Property TypeExpr))) d fun found _ => ∀ m ∈ found, m.type.Throughout source :=
    .next fun _ _ => .pure fun m hm => by cases hm
  simp only [member, answers_peek_bind]
  refine (forth_readonly h.forth).bind fun _ d hd => ?_
  simp only [answers_get_bind]
  refine .ite (fun _ => hskipped) fun _ => .ite (fun _ => .next fun _ _ => hskipped) fun _ =>
    .ite (fun _ => hskipped) fun _ => (forth_next hd).bind fun name d₁ h₁ => ?_
  refine (forth_when h₁.2.1 fun _ => answers_rejectAt).bind fun _ d₂ h₂ => (forth_accept "?" h₂).bind fun _ d₃ h₃ =>
    (throughout_memberType hr (h.forth_to h₃.1)).bind fun type _ htype => .pure ?_
  rintro m ⟨⟩
  exact htype

theorem throughout_members (h : c.StandsIn source) :
    Answers (members (Rules.upTo source n)) c fun found _ => ∀ m ∈ found, m.type.Throughout source := by
  have hclose := Rules.close_upTo source n
  refine (forth_expected _ h.forth).bind fun _ c₁ h₁ => ?_
  suffices hloop : Answers (loop (membersRound (Rules.upTo source n)) []) c₁ fun found _ =>
      ∀ m ∈ found, m.type.Throughout source from
    hloop.bind fun found _ hfound => .next fun _ _ => .pure hfound
  refine answers_loop (I := fun found d => (∀ m ∈ found, m.type.Throughout source) ∧ c.Forth d) ⟨by simp, h₁⟩ ?_
  rintro found d ⟨hfound, hd⟩
  simp only [membersRound, answers_get_bind]
  refine .ite (fun _ => .pure fun m hm => hfound m (List.mem_reverse.1 hm)) fun _ => (forth_demand hd).bind fun _ d₁ h₁ => ?_
  refine ((throughout_member hr (h.forth_to h₁)).and (forth_member hclose h₁)).bind fun one d₂ ⟨hone, h₂⟩ =>
    (forth_separators h₂).bind fun _ d₃ h₃ => .pure ⟨fun m hm => ?_, h₃⟩
  rcases List.mem_append.1 hm with hm | hm
  · exact hone m (Option.mem_toList.1 hm)
  · exact hfound m hm

/-! ## Primary types -/

theorem drafts_tuple (h : c.StandsIn source) : Answers (tuple (Rules.upTo source n)) c fun e d => e.Drafted source c d := by
  have hclose := Rules.close_upTo source n
  simp only [tuple, answers_get_bind]
  refine (forth_expected _ h.forth).bind fun _ c₁ h₁ => ?_
  have hloop : Answers (loop (tupleRound (Rules.upTo source n)) ([], false)) c₁ fun found _ =>
      ∀ e ∈ found.1, e.Throughout source := by
    refine answers_loop (I := fun state d => (∀ e ∈ state.1, e.Throughout source) ∧ c.Forth d) ⟨by simp, h₁⟩ ?_
    rintro ⟨elements, variadic⟩ d ⟨hstate, hd⟩
    simp only [tupleRound, answers_sees_bind]
    refine .ite (fun _ => .pure fun e he => hstate e (List.mem_reverse.1 he)) fun _ => ?_
    refine (forth_accept "..." hd).bind fun _ d₁ h₁ => (forth_elementName h₁.1).bind fun _ d₂ h₂ =>
      ((hr.type (h.forth_to h₂)).and (hclose.type h₂)).bind fun e d₃ he => (forth_accept "?" he.2.forth).bind fun _ d₄ h₄ =>
      (forth_accept "," h₄.1).bind fun _ d₅ h₅ => ?_
    have hall : ∀ e' ∈ e :: elements, e'.Throughout source := List.forall_mem_cons.2 ⟨he.1, hstate⟩
    exact .ite (fun _ => .pure ⟨hall, h₅.1⟩) fun _ => .pure fun e' he' => hall e' (List.mem_reverse.1 he')
  refine hloop.bind fun found _ hfound => .next fun _ d => ?_
  simp only [answers_textSince_bind]
  refine .pure ⟨fun m hm => ?_, .inr rfl⟩
  rw [TypeExpr.inner, TypeExpr.mem_innerAll] at hm
  obtain ⟨e, he, hm⟩ := hm
  exact hfound e he m hm

theorem throughout_listed {closer : Text} (h : c.StandsIn source) :
    Answers (listed closer (Rules.upTo source n).type) c fun es _ => ∀ e ∈ es, e.Throughout source := by
  have hclose := Rules.close_upTo source n
  refine answers_loop (I := fun es d => (∀ e ∈ es, e.Throughout source) ∧ c.Forth d) ⟨by simp, h.forth⟩ ?_
  intro es d ⟨hes, hd⟩
  simp only [listedRound, answers_sees_bind]
  refine .ite (fun _ => .pure fun a ha => hes a (List.mem_reverse.1 ha)) fun _ =>
    ((hr.type (h.forth_to hd)).and (hclose.type hd)).bind fun e d₁ ⟨he, h₁⟩ => (forth_accept "," h₁.forth).bind fun _ d₂ h₂ => ?_
  have hall : ∀ e' ∈ e :: es, e'.Throughout source := List.forall_mem_cons.2 ⟨he, hes⟩
  exact .ite (fun _ => .pure ⟨hall, h₂.1⟩) fun _ => .pure fun e' he' => hall e' (List.mem_reverse.1 he')

theorem throughout_typeArguments (h : c.StandsIn source) :
    Answers (typeArguments (Rules.upTo source n)) c fun arguments _ => ∀ e ∈ arguments, e.Throughout source := by
  simp only [typeArguments, answers_get_bind]
  refine .ite (fun _ => ?_) fun _ => .pure (List.forall_mem_nil _)
  exact (forth_skip h.forth).bind fun _ _ h₁ => (throughout_listed hr (h.forth_to h₁)).bind fun _ _ harguments =>
    .next fun _ _ => .pure harguments

theorem drafts_reference (h : c.StandsIn source) : Answers (reference (Rules.upTo source n)) c fun e d => e.Drafted source c d := by
  simp only [reference, answers_get_bind]
  refine (ended_qualifiedName h.forth).bind fun name _ h₁ => (throughout_typeArguments hr (h.forth_to h₁.forth)).bind
    fun arguments _ harguments => ?_
  simp only [answers_textSince_bind]
  refine .pure ⟨fun m hm => ?_, .inr rfl⟩
  rw [TypeExpr.inner, TypeExpr.mem_innerAll] at hm
  obtain ⟨e, he, hm⟩ := hm
  exact harguments e he m hm

theorem throughout_templateSpans {parts : List TemplatePart}
    (hparts : ∀ a b, .hole a b ∈ parts → Window source a b) {spans : List (Span TypeExpr)}
    (h : templateSpans (Rules.upTo source n) parts = .ok spans) : ∀ e, .hole e ∈ spans → e.Throughout source := by
  induction parts generalizing spans with
  | nil =>
    cases h
    exact nofun
  | cons part rest ih =>
    have hrest {spans : List (Span TypeExpr)} (h : templateSpans (Rules.upTo source n) rest = .ok spans) :
        ∀ e, .hole e ∈ spans → e.Throughout source :=
      ih (fun a b hmem => hparts a b (List.mem_cons_of_mem _ hmem)) h
    cases part with
    | chunk text =>
      obtain ⟨later, hlater, heq⟩ := Except.bind_eq_ok.1 h
      cases heq
      intro e he
      rcases List.mem_cons.1 he with heq | he
      · cases heq
      · exact hrest hlater e he
    | hole a b =>
      obtain ⟨type, htype, h⟩ := Except.bind_eq_ok.1 h
      obtain ⟨later, hlater, heq⟩ := Except.bind_eq_ok.1 h
      cases heq
      intro e he
      rcases List.mem_cons.1 he with heq | he
      · cases heq
        exact hr.hole (hparts a b List.mem_cons_self) htype
      · exact hrest hlater e he

omit hr in
/-- A word or a literal is kept with the text of its token. -/
theorem drafts_token (h : c.StandsIn source) (hend : c.peek.isEnd = false) (he : e.text = c.peek.raw) (hinner : e.inner = []) :
    Answers (do
      let _ ← next
      return e) c fun e d => e.Drafted source c d := by
  refine (forth_next h.forth).bind fun t d ⟨ht, _, hcut⟩ => .pure ⟨by simp [hinner], .inr ?_⟩
  subst ht
  rw [he, hcut hend, upTo_before, peek_before]
  exact (List.append_nil _).symm

theorem drafts_wordType (h : c.StandsIn source) (hword : c.peek.isWord = true) :
    Answers (wordType (Rules.upTo source n) c.peek.raw) c fun e d => e.Drafted source c d := by
  have hend := Token.not_isEnd_of_isWord hword
  simp only [wordType, answers_get_bind]
  refine .ite (fun _ => drafts_token h hend rfl (by simp)) fun _ => .ite (fun _ => ?_) fun _ => .ite (fun _ => ?_) fun _ =>
    .ite (fun _ => ?_) fun _ => .ite (fun _ => drafts_token h hend rfl (by simp)) fun _ => drafts_reference hr h
  · exact .next fun _ _ => .next fun _ _ => answers_verbatim_of
  · refine .next fun _ _ => .next fun _ d => ?_
    simp only [answers_get_bind]
    exact .next fun _ _ => answers_verbatim_of
  · refine .next fun _ _ => .next fun _ _ => .next fun _ d => ?_
    simp only [answers_sees_bind]
    exact .next fun _ _ => answers_verbatim_of

theorem drafts_markType (h : c.StandsIn source) : Answers (markType (Rules.upTo source n) c.peek) c fun e d =>
    e.Drafted source c d := by
  simp only [markType, answers_get_bind]
  refine .ite (fun _ => drafts_functionType _ c) fun _ => .ite (fun _ => ?parenthesized) fun _ =>
    .ite (fun _ => .ite (fun _ => ?mapped) fun _ => ?object)
    fun _ => .ite (fun _ => drafts_tuple hr h) fun _ => .ite (fun _ => ?negative) fun _ => answers_reject
  case parenthesized =>
    exact (forth_next h.forth).bind fun _ _ h₁ => (hr.type (h.forth_to h₁.2.1)).bind fun e _ he =>
      .next fun _ _ => .pure (TypeExpr.Throughout.drafted he)
  case mapped => exact .next fun _ _ => answers_verbatim_of
  case object =>
    refine (throughout_members hr h).bind fun found d hfound => ?_
    simp only [answers_textSince_bind]
    refine .pure ⟨fun m hm => ?_, .inr rfl⟩
    rw [TypeExpr.inner, TypeExpr.mem_innerMembers] at hm
    obtain ⟨member, hmember, hm⟩ := hm
    exact hfound member hmember m hm
  case negative =>
    refine .next fun _ _ => .next fun _ d => ?_
    simp only [answers_textSince_bind]
    exact .pure ⟨by simp, .inr rfl⟩

omit hr in
/-- The holes of a template are windows of the source. -/
theorem Source.Cursor.StandsIn.holes (h : c.StandsIn source) {parts : List TemplatePart} (hl : c.peek.lexeme = .template parts)
    {a b : Nat} (hhole : .hole a b ∈ parts) : Window source a b := by
  have hend : c.peek.isEnd = false := beq_eq_false_iff_ne.2 (by simp [hl])
  obtain ⟨t, d, rfl⟩ := h.forth.first hend
  obtain ⟨_, stop, before, hwindow, htokens⟩ := id h
  exact .hole (t := t) hwindow htokens (by simp) hl hhole

theorem drafts_primary (h : c.StandsIn source) : Answers (primary (Rules.upTo source n)) c fun e d => e.Drafted source c d := by
  simp only [primary, answers_peek_bind]
  cases hl : c.peek.lexeme with
  | mark => exact drafts_markType hr h
  | string value =>
    exact .next fun _ _ => .pure (TypeExpr.Throughout.drafted (List.forall_mem_cons.2 ⟨restated_quote source value, by simp⟩))
  | number => exact drafts_token h (beq_eq_false_iff_ne.2 (by simp [hl])) rfl (by simp)
  | template parts =>
    have hend : c.peek.isEnd = false := beq_eq_false_iff_ne.2 (by simp [hl])
    refine (forth_next h.forth).bind fun t d ⟨ht, _, hcut⟩ => ?_
    have hspans : Answers (liftM (templateSpans (Rules.upTo source n) parts) : Parser (List (Span TypeExpr))) d fun spans x =>
        x = d ∧ ∀ e, .hole e ∈ spans → e.Throughout source :=
      answers_lift fun _ hread => ⟨rfl, throughout_templateSpans hr (fun a b hhole => h.holes hl hhole) hread⟩
    refine hspans.bind fun spans x ⟨hx, hspans⟩ => .pure ⟨fun m hm => ?_, .inr ?_⟩
    · rw [TypeExpr.inner, TypeExpr.mem_innerSpans] at hm
      obtain ⟨e, he, hm⟩ := hm
      exact hspans e he m hm
    · subst ht
      rw [hx, TypeExpr.text, hcut hend, upTo_before, peek_before]
      exact (List.append_nil _).symm
  | endOfInput => exact answers_reject
  | word => exact drafts_wordType hr h (beq_iff_eq.2 hl)

/-! ## Operators -/

theorem throughout_postfixed (h : c.StandsIn source) (hleads : leads c = false) :
    Answers (postfixed (Rules.upTo source n)) c fun e _ => e.Throughout source := by
  have hread {e : TypeExpr} {d : Cursor} (hb : Bracketed (Rules.upTo source n) c e d) (he : e.Drafted source c d) :
      e.Throughout source :=
    he.throughout h (.postfixed (Bool.eq_false_iff.2 fun hrun => by rw [leads_of_run h.last hrun] at hleads; cases hleads) hb)
  simp only [postfixed, answers_get_bind]
  refine ((drafts_primary hr h).and .self).bind fun first c₁ hfirst =>
    answers_loop (I := fun e d => e.Throughout source ∧ Bracketed (Rules.upTo source n) c e d)
      ⟨hread (.first hfirst.2) hfirst.1, .first hfirst.2⟩ ?_
  rintro e d ⟨he, hb⟩
  have hround : Answers (bracketRound (Rules.upTo source n) c e) d (Rounds (fun e' d' => e'.Drafted source c d')
    fun e' _ => e' = e) := by
    simp only [bracketRound, answers_get_bind]
    refine .ite (fun _ => .next fun _ _ => .next fun _ _ => .ite (fun _ => ?_) fun _ => .next fun _ _ =>
      .next fun _ _ => ?_) fun _ => .pure rfl
    · simp only [answers_textSince_bind]
      exact .pure ⟨by simpa [TypeExpr.inner, TypeExpr.Throughout, TypeExpr.nodes] using he, .inr rfl⟩
    · simp only [answers_textSince_bind]
      exact .pure drafted_verbatim
  refine (hround.and .self).mono fun turn d' hturned => ?_
  obtain ⟨hturn, hrun⟩ := hturned
  cases turn with
  | again e' => exact ⟨hread (.again hb hrun) hturn, .again hb hrun⟩
  | done e' =>
    obtain rfl : e' = e := hturn
    exact he

theorem throughout_operand (h : c.StandsIn source) : Answers (operand (Rules.upTo source n)) c fun e _ => e.Throughout source := by
  cases hleads : leads c with
  | false =>
    intro e d hrun
    rw [operand_of_not_leads hleads] at hrun
    exact throughout_postfixed hr h hleads e d hrun
  | true =>
    have hdrafts : Answers (operand (Rules.upTo source n)) c fun e d => e.Drafted source c d := by
      simp only [operand, answers_get_bind]
      refine .ite (fun hword => ?_) fun hnot => .ite (fun _ => ?_) fun hnot' => ?_
      · refine (forth_next h.forth).bind fun _ _ h₁ => (hr.operand (h.forth_to h₁.2.1)).bind fun inner _ hinner => ?_
        exact .ite (fun _ => .pure (TypeExpr.Throughout.drafted hinner)) fun _ => answers_verbatim_of
      · exact .next fun _ _ => .next fun _ _ => .next fun _ _ => answers_verbatim_of
      · rw [leads, Bool.or_eq_true] at hleads
        exact absurd hleads (not_or.2 ⟨hnot, hnot'⟩)
    exact (hdrafts.and .self).mono fun e d he => he.1.throughout h (.operand he.2)

omit hr in
/-- What holds of every item that stands in the source holds of all of them. -/
theorem Source.Cursor.StandsIn.separated {α : Type} {A : α → Prop} {item : Parser α} (mark : Text) (h : c.StandsIn source)
    (hitem : ∀ {c}, c.StandsIn source → Answers item c fun a d => A a ∧ c.Forth d) :
    Answers (separated mark item) c fun as _ => ∀ a ∈ as, A a := by
  refine (hitem h).bind fun first d hfirst => answers_loop
    (I := fun as d => (∀ a ∈ as, A a) ∧ c.Forth d) ⟨by simpa using hfirst.1, hfirst.2⟩ ?_
  rintro as d ⟨has, hd⟩
  refine (forth_accept mark hd).bind fun _ d₁ h₁ => .ite (fun _ => ?_) fun _ => .pure fun a ha => has a (List.mem_reverse.1 ha)
  exact (hitem (h.forth_to h₁.1)).bind fun a _ ha => .pure ⟨List.forall_mem_cons.2 ⟨ha.1, has⟩, h₁.1.trans ha.2⟩

omit hr in
/-- Members between marks are kept with the text behind the mark that comes first. -/
theorem throughout_chain {mark : Text} {item : Parser TypeExpr} {build : List TypeExpr → Text → TypeExpr} (h : c.StandsIn source)
    (hitem : ∀ {c}, c.StandsIn source → Answers item c fun e d => e.Throughout source ∧ c.Forth d)
    (hmark : ∀ {c e d}, c.StandsIn source → item c = .ok (e, d) → c.sees mark = false)
    (hread : ∀ {c e d}, chain mark item build c = .ok (e, d) → ReadFrom (Rules.upTo source n) c e d)
    (htext : ∀ es text, (build es text).text = text) (hinner : ∀ es text, (build es text).inner = TypeExpr.innerAll es) :
    Answers (chain mark item build) c fun e _ => e.Throughout source := by
  refine (forth_accept mark h.forth).bind fun _ c₁ h₁ => ?_
  have hc₁ : c₁.StandsIn source := h.forth_to h₁.1
  simp only [answers_get_bind]
  refine ((hc₁.separated mark hitem).and .self).bind fun types x htypes => ?_
  obtain ⟨hall, hseparated⟩ := htypes
  have hbuilt : Answers (do return build types (← textSince c₁) : Parser TypeExpr) x fun e d => e.Drafted source c₁ d := by
    simp only [answers_textSince_bind]
    refine .pure ⟨fun m hm => ?_, .inr (htext _ _)⟩
    rw [hinner, TypeExpr.mem_innerAll] at hm
    obtain ⟨e, he, hm⟩ := hm
    exact hall e he m hm
  obtain ⟨first, _, hfirst, _⟩ := bind_ok.1 hseparated
  -- no mark comes before the first member, so the chain begins there
  have hchain {e : TypeExpr} {d : Cursor} (hrun : (do return build types (← textSince c₁) : Parser TypeExpr) x = .ok (e, d))
      (hsole : ∀ e, types ≠ [e]) : chain mark item build c₁ = .ok (e, d) := by
    rw [chain, bind_apply, accept_of_not_sees (hmark hc₁ hfirst), ok_bind, bind_apply, get_apply, ok_bind, bind_apply, hseparated,
      ok_bind]
    rcases types with _ | ⟨e, _ | ⟨f, rest⟩⟩
    · exact hrun
    · exact absurd rfl (hsole e)
    · exact hrun
  rcases types with _ | ⟨e, _ | ⟨f, rest⟩⟩
  · exact (hbuilt.and .self).mono fun e d he => he.1.throughout hc₁ (hread (hchain he.2 (by simp)))
  · exact .pure (hall e List.mem_cons_self)
  · exact (hbuilt.and .self).mono fun e d he => he.1.throughout hc₁ (hread (hchain he.2 (by simp)))

theorem throughout_intersection (h : c.StandsIn source) :
    Answers (intersection (Rules.upTo source n)) c fun e _ => e.Throughout source :=
  throughout_chain h
    (fun h => (throughout_operand hr h).and ((ended_operand (Rules.close_upTo source n) h.forth).mono fun _ _ hd => hd.forth))
    (fun h hrun => operand_not_sees h.lexed hrun (by decide)) .intersection (fun _ _ => rfl) (fun _ _ => by rw [TypeExpr.inner])

theorem throughout_union (h : c.StandsIn source) : Answers (union (Rules.upTo source n)) c fun e _ => e.Throughout source :=
  throughout_chain h
    (fun h => (throughout_intersection hr h).and
      ((ended_intersection (Rules.close_upTo source n) h.forth).mono fun _ _ hd => hd.forth))
    (fun h hrun => intersection_not_sees h.lexed hrun) .union (fun _ _ => rfl) (fun _ _ => by rw [TypeExpr.inner])

theorem throughout_type (h : c.StandsIn source) :
    Answers (TypeGrammar.type (Rules.upTo source n)) c fun e _ => e.Throughout source := by
  have hdrafts : Answers (TypeGrammar.type (Rules.upTo source n)) c fun e d => e.Drafted source c d := by
    simp only [TypeGrammar.type, answers_get_bind]
    refine (throughout_union hr h).bind fun e _ he => .next fun _ _ => .ite (fun _ => ?_) fun _ => .pure he.drafted
    exact .next fun _ _ => .next fun _ _ => .next fun _ _ => .next fun _ _ => .next fun _ _ => answers_verbatim_of
  exact (hdrafts.and .self).mono fun e d ⟨he, hrun⟩ => he.throughout h (.type hrun)

end

/-- All rules for the types of a source are read back. -/
theorem Rules.restates_upTo (source : Text) (n : Nat) : (Rules.upTo source n).Restates source := by
  induction n with
  | zero => exact ⟨fun _ => nofun, fun _ => nofun, nofun⟩
  | succ n ih =>
    refine ⟨fun h => throughout_type ih h, fun h => throughout_operand ih h, fun {a b e} hwindow hhole => ?_⟩
    obtain ⟨tokens, htokens, hhole⟩ := Except.bind_eq_ok.1 hhole
    obtain ⟨⟨found, after⟩, honly, heq⟩ := Except.bind_eq_ok.1 hhole
    cases heq
    obtain ⟨hread, _⟩ := only_eq_ok.1 honly
    exact throughout_type ih (Cursor.standsIn_ofTokens hwindow htokens) _ _ hread

namespace DeclarationGrammar

section
variable {source : Text} {n : Nat} {c : Cursor} (hr : (Rules.upTo source n).Restates source)
include hr

theorem throughout_base (h : c.StandsIn source) : Answers (base (Rules.upTo source n)) c fun b _ => b.type.Throughout source := by
  refine ((drafts_primary hr h).and .self).bind fun e d ⟨he, hprimary⟩ => ?_
  have hwhole : e.Throughout source :=
    List.forall_mem_cons.2 ⟨he.whole.elim id fun htext => restated_base h hprimary htext, he.inner⟩
  cases e with
  | reference name arguments text => exact .pure hwhole
  | _ => exact answers_reject

theorem throughout_bases (h : c.StandsIn source) :
    Answers (bases (Rules.upTo source n)) c fun found _ => ∀ b ∈ found, b.type.Throughout source := by
  refine (forth_accept "extends" h.forth).bind fun _ _ h₁ => .ite (fun _ => ?_) fun _ => .pure (List.forall_mem_nil _)
  refine (h.forth_to h₁.1).separated "," fun {d} hd => (throughout_base hr hd).and ?_
  refine (TypeGrammar.ended_primary (Rules.close_upTo source n) hd.forth).bind fun e _ he => ?_
  cases e with
  | reference name arguments text => exact .pure he.forth
  | _ => exact answers_reject

theorem throughout_interface {docs : DocComment} (h : c.Fits source n) (hc : c.StandsIn source) :
    Answers (interface (Rules.upTo source n) docs) c fun d _ => ∀ e ∈ d.nodes, e.Restated source := by
  have hend := Rules.end_upTo source n
  have hstands {a b : Cursor} (ha : a.StandsIn source) (hon : On source n a b) : b.StandsIn source := ha.reaches hon.reaches
  refine (ends_expect "interface" ⟨h, .refl c⟩).answers.bind fun _ c₁ h₁ => ?_
  refine (ends_expectName h₁.on.here).answers.bind fun name c₂ h₂ => ?_
  refine (ends_parameters hend h₂.on.here).answers.bind fun _ c₃ h₃ => ?_
  have hc₃ := hstands (hstands (hstands hc h₁.on) h₂.on) h₃
  refine ((throughout_bases hr hc₃).and (ends_bases hend h₃.here).answers).bind fun found c₄ ⟨hfound, h₄⟩ => ?_
  refine (throughout_members hr (hstands hc₃ h₄)).bind fun members _ hmembers => .pure fun e he => ?_
  rcases List.mem_append.1 he with he | he
  · obtain ⟨b, hb, he⟩ := List.mem_flatMap.1 he
    exact hfound b hb e he
  · obtain ⟨m, hm, he⟩ := List.mem_flatMap.1 he
    exact hmembers m hm e he

theorem throughout_typeAlias {docs : DocComment} (h : c.Fits source n) (hc : c.StandsIn source) :
    Answers (typeAlias (Rules.upTo source n) docs) c fun d _ => ∀ e ∈ d.nodes, e.Restated source := by
  have hend := Rules.end_upTo source n
  have hstands {a b : Cursor} (ha : a.StandsIn source) (hon : On source n a b) : b.StandsIn source := ha.reaches hon.reaches
  refine (ends_expect "type" ⟨h, .refl c⟩).answers.bind fun _ c₁ h₁ => ?_
  refine (ends_expectName h₁.on.here).answers.bind fun name c₂ h₂ => ?_
  refine (ends_parameters hend h₂.on.here).answers.bind fun _ c₃ h₃ => ?_
  refine (ends_expect "=" h₃.here).answers.bind fun _ c₄ h₄ => ?_
  have hc₄ := hstands (hstands (hstands (hstands hc h₁.on) h₂.on) h₃) h₄.on
  exact (hr.type hc₄).bind fun e _ he => .next fun _ _ => .pure he

end

end DeclarationGrammar

theorem Declaration.restated_of_parse {source : Text} {declarations : List Declaration} (h : parse source = .ok declarations) :
    ∀ d ∈ declarations, ∀ e ∈ d.nodes, e.Restated source := by
  obtain ⟨tokens, htokens, h⟩ := Except.bind_eq_ok.1 h
  obtain ⟨⟨found, after⟩, hfound, heq⟩ := Except.bind_eq_ok.1 h
  cases heq
  have hr := Rules.restates_upTo source (source.length + 2)
  have hfits : (ofTokens tokens).Fits source (source.length + 2) :=
    (Cursor.fits_ofTokens (.inl rfl) (Nat.zero_le _) htokens).mono (by omega)
  have hstands : (ofTokens tokens).StandsIn source := standsIn_ofTokens .whole htokens
  refine DeclarationGrammar.answers_statements (I := fun c => c.Fits source (source.length + 2) ∧ c.StandsIn source) And.left
    (fun h hon => ⟨hon.now, h.2.reaches hon.reaches⟩) (fun h => DeclarationGrammar.throughout_interface hr h.1 h.2)
    (fun h => DeclarationGrammar.throughout_typeAlias hr h.1 h.2) (fun _ => ?_) (Rules.end_upTo source _)
    ⟨hfits, hstands⟩ _ after hfound
  exact .next fun _ _ => .next fun _ _ => .next fun _ _ => .next fun _ _ => .next fun _ _ => .pure fun _ he => by cases he

/-- Every type of a source that is read is read back from its text, with its
members not documented, unless it is garbled. -/
theorem Declaration.texts_denote {source : Text} {declarations : List Declaration} (h : parse source = .ok declarations) :
    ∀ d ∈ declarations, ∀ e ∈ d.nodes, e.Garbled source ∨ TypeExpr.parse e.text = .ok e.undocumented := by
  intro d hd e he
  exact (Declaration.restated_of_parse h d hd e he).imp_right ReadBack.parse

/-- An alias on two lines, with a comment and a documented member. -/
def documentedSource : Text := "type A = B // b\n  | \x7b /** c */ c: D[] \x7d"

/-- The object shape with its member documented so. -/
def shapeOf (docs : DocComment) : TypeExpr :=
  .object [{ name := "c", isOptional := false, type := .array (.reference "D" [] "D") "D[]", docs }] "\x7b c: D[] \x7d"

def documentedAlias : Declaration where
  name := "A"
  docs := {}
  body := .typeAlias [] (.union [.reference "B" [] "B", shapeOf { description := "c" }] "B | \x7b c: D[] \x7d")

/-- The tokens of the source. -/
def documentedTokens : List Token :=
  let token (lexeme : Lexeme) (raw : Text) (start stop : Nat) (spaceBefore : Bool) : Token :=
    { lexeme, raw, start, stop, spaceBefore, lineBreak := false, docs := [] }
  [token .word "type" 0 4 false, token .word "A" 5 6 true, token .mark "=" 7 8 true, token .word "B" 9 10 true,
    { token .mark "|" 18 19 true with lineBreak := true }, token .mark "\x7b" 20 21 true,
    { token .word "c" 31 32 true with docs := ["/** c */"] }, token .mark ":" 32 33 false, token .word "D" 34 35 true,
    token .mark "[" 35 36 false, token .mark "]" 36 37 false, token .mark "\x7d" 38 39 true,
    { token .endOfInput [] 39 39 false with lineBreak := true }]

theorem tokenize_documented : tokenize documentedSource 0 documentedSource.length = .ok documentedTokens := by
  rw [documentedSource, documentedTokens]
  cbv

theorem harmless_documented : Harmless documentedTokens where
  unbroken := by
    rw [Unbroken]
    decide
  closed := by decide
  dotless := by decide
  leadless := by decide

theorem parse_documented : Declaration.parse documentedSource = .ok [documentedAlias] := by
  rw [Declaration.parse]
  exact (congrArg (· >>= _) tokenize_documented).trans rfl

/-- No node of the alias is garbled, so the union and all that stands in it is read back, with a line break,
a comment and documentation between their tokens. -/
theorem Declaration.texts_denote_lines : Declaration.parse documentedSource = .ok [documentedAlias] ∧
    ∀ e ∈ documentedAlias.nodes, ¬ e.Garbled documentedSource ∧ TypeExpr.parse e.text = .ok e.undocumented := by
  refine ⟨parse_documented, fun e he => ?_⟩
  have hmodelled (t : Text) (reason : Unmodelled) : e ≠ .verbatim t reason := by
    rintro rfl
    simp [Declaration.nodes, documentedAlias, shapeOf, TypeExpr.nodes, TypeExpr.inner, TypeExpr.innerAll,
      TypeExpr.innerMembers] at he
  have hclear := TypeExpr.not_garbled tokenize_documented harmless_documented hmodelled
  exact ⟨hclear, (Declaration.texts_denote parse_documented _ List.mem_cons_self e he).resolve_left hclear⟩

theorem parse_shape : TypeExpr.parse "\x7b c: D[] \x7d" = .ok (shapeOf {}) := by
  let token (lexeme : Lexeme) (raw : Text) (start stop : Nat) (spaceBefore : Bool) : Token :=
    { lexeme, raw, start, stop, spaceBefore, lineBreak := false, docs := [] }
  have htokens : tokenize "\x7b c: D[] \x7d" 0 ("\x7b c: D[] \x7d" : Text).length =
      .ok [token .mark "\x7b" 0 1 false, token .word "c" 2 3 true, token .mark ":" 3 4 false, token .word "D" 5 6 true,
        token .mark "[" 6 7 false, token .mark "]" 7 8 false, token .mark "\x7d" 9 10 true,
        { token .endOfInput [] 10 10 false with lineBreak := true }] := by cbv
  rw [TypeExpr.parse]
  exact (congrArg (· >>= _) htokens).trans rfl

/-- The text of a type does not have the documentation of its members. -/
theorem Declaration.documentation_not_in_text :
    ¬ ∀ (source : Text) (declarations : List Declaration), Declaration.parse source = .ok declarations →
      ∀ d ∈ declarations, ∀ e ∈ d.nodes, TypeExpr.parse e.text = .ok e := by
  intro hall
  have hmem : shapeOf { description := "c" } ∈ documentedAlias.nodes := by
    simp [Declaration.nodes, documentedAlias, TypeExpr.nodes, TypeExpr.inner, TypeExpr.innerAll]
  have hsame : TypeExpr.parse "\x7b c: D[] \x7d" = .ok (shapeOf { description := "c" }) :=
    hall documentedSource _ parse_documented documentedAlias List.mem_cons_self _ hmem
  have hdocs : shapeOf { description := "c" } = shapeOf {} := Except.ok.inj (hsame.symm.trans parse_shape)
  have hdescription : ("c" : Text) = [] := by simpa [shapeOf] using hdocs
  exact absurd hdescription (by decide)

end WireSchema
