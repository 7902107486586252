import WireSchema.Proofs.Grammar.Within
import WireSchema.Declaration.Grammar
/-!
# Declarations at the end of a longer source

Declarations are read alike in a longer source that ends where they end.
-/

namespace WireSchema

open Source Source.Cursor Source.Parser

namespace DeclarationGrammar

section
variable {source : Text} {k : Nat} {rules rules' : Rules} {o : Place} {near : Bool} {c : Cursor}

theorem accept_quiet (hq : o.Quiet) (hlast : c.last.isEnd = true) (w : Text) : Repeats o near (accept w) (accept w) c :=
  repeats_accept hlast (hq.sees hlast w 0)

theorem isOneOf_quiet (hq : o.Quiet) (hlast : c.last.isEnd = true) (ws : List Text) (n : Nat) :
    ((o.put c).peek n).isOneOf ws = (c.peek n).isOneOf ws :=
  hq.ahead (P := fun t => t.isOneOf ws) hlast (Token.isOneOf_later _ · ws) (fun _ ht => Token.not_isOneOf_of_isEnd ht ws) n

theorem isWord_quiet (hq : o.Quiet) (hlast : c.last.isEnd = true) (n : Nat) :
    ((o.put c).peek n).isWord = (c.peek n).isWord :=
  hq.ahead hlast (Token.isWord_later _) (fun _ => Token.not_isWord_of_isEnd) n

/-- Whatever stops at the end of the input stops there in both sources. -/
theorem isEnd_quiet (hq : o.Quiet) (hlast : c.last.isEnd = true) : (o.put c).peek.isEnd = c.peek.isEnd := by
  by_cases hne : c.rest = []
  · rw [hq.isEnd (by simp [hne]), peek_length_le (by simp [hne]), hlast]
  · rw [peek_put o (List.length_pos_iff.2 hne), Token.isEnd_later]

variable (hr : rules.Repeat source k rules')
include hr

theorem repeats_parameters (hk : o.shift = k) (hq : o.Quiet) (h : Seam source o near c) :
    Repeats o near (parameters rules) (parameters rules') c := by
  refine .bind (accept_quiet hq h.last _) fun taken c₁ _ h₁ => .ite .rfl (fun _ => ?_) fun _ => .pure
  refine .bind (repeats_listed (h.reaches h₁) (by decide) fun d hd => ?_) fun names c₂ _ h₂ =>
    .bind (repeats_expect (h.reaches (h₁.trans h₂)).last _) fun _ _ _ _ => .pure
  have hseam := h.reaches (h₁.trans hd)
  refine .bind (repeats_loop (fun _ e he => ?_) ()) fun _ d₁ _ hd₁ =>
    .bind (repeats_expectName (hseam.reaches hd₁).last) fun name d₂ _ hd₂ => ?_
  · have hseam := hseam.reaches he
    simp only [repeats_get_bind, isWord_quiet hq hseam.last]
    by_cases hone : 1 < e.rest.length
    · have hlength : 0 < e.rest.length := by omega
      rw [peek_put o hlength, Token.value_later]
      exact .ite .rfl (fun _ => repeats_next_bind (List.length_pos_iff.1 hlength) fun _ _ _ => .pure) fun _ => .pure
    · rw [peek_length_le (n := 1) (Nat.le_of_not_lt hone), Token.not_isWord_of_isEnd hseam.last]
      exact .pure
  -- a default comes behind the bound, if there is one
  have hd₂ := hd₁.trans hd₂
  have hdefault : ∀ e, d.Reaches e → Repeats o near (do
      if ← accept "=" then
        let _ ← rules.type
      return name : Parser Text) (do
      if ← accept "=" then
        let _ ← rules'.type
      return name) e := by
    intro e he
    refine .bind (accept_quiet hq (hseam.reaches he).last _) fun taken e₁ _ he₁ => .ite .rfl (fun _ => ?_) fun _ => .pure
    exact .bind (hr.type hk (hseam.reaches (he.trans he₁))) fun _ _ _ _ => .pure
  refine .bind (accept_quiet hq (hseam.reaches hd₂).last _) fun taken d₃ _ hd₃ => .ite .rfl (fun _ => ?_) fun _ => ?_
  · exact .bind (hr.type hk (hseam.reaches (hd₂.trans hd₃))) fun _ d₄ _ hd₄ => hdefault d₄ (hd₂.trans (hd₃.trans hd₄))
  · exact hdefault d₃ (hd₂.trans hd₃)

theorem repeats_bases (hk : o.shift = k) (hq : o.Quiet) (h : Seam source o near c) :
    Repeats o near (bases rules) (bases rules') c := by
  refine .bind (accept_quiet hq h.last _) fun taken c₁ _ h₁ => .ite .rfl (fun _ => ?_) fun _ => .pure
  refine repeats_separated (h.reaches h₁).last (.inr (h.parts.joint _ (by decide))) fun d hd => ?_
  have hseam := h.reaches (h₁.trans hd)
  refine .bind (TypeGrammar.repeats_primary hr hk hseam.nearer fun _ he _ =>
    TypeGrammar.repeats_functionType hr hk (hseam.reaches he).nearer fun _ => hseam.reaches he) fun type e _ _ => ?_
  split
  · exact .pure
  · exact (refuses_reject _ _).repeats

theorem repeats_interface (hk : o.shift = k) (hq : o.Quiet) (h : Seam source o near c) (docs : DocComment) :
    Repeats o near (interface rules docs) (interface rules' docs) c := by
  refine .bind (repeats_expect h.last _) fun _ c₁ _ h₁ => .bind (repeats_expectName (h.reaches h₁).last) fun _ c₂ _ h₂ => ?_
  have h₂ := h₁.trans h₂
  refine .bind (repeats_parameters hr hk hq (h.reaches h₂)) fun _ c₃ _ h₃ => ?_
  have h₃ := h₂.trans h₃
  refine .bind (repeats_bases hr hk hq (h.reaches h₃)) fun _ c₄ _ h₄ => ?_
  exact .bind (TypeGrammar.repeats_members hr hk (h.reaches (h₃.trans h₄)).nearer) fun _ _ _ _ => .pure

theorem repeats_typeAlias (hk : o.shift = k) (hq : o.Quiet) (h : Seam source o near c) (docs : DocComment) :
    Repeats o near (typeAlias rules docs) (typeAlias rules' docs) c := by
  refine .bind (repeats_expect h.last _) fun _ c₁ _ h₁ => .bind (repeats_expectName (h.reaches h₁).last) fun _ c₂ _ h₂ => ?_
  have h₂ := h₁.trans h₂
  refine .bind (repeats_parameters hr hk hq (h.reaches h₂)) fun _ c₃ _ h₃ => ?_
  have h₃ := h₂.trans h₃
  refine .bind (repeats_expect (h.reaches h₃).last _) fun _ c₄ _ h₄ => ?_
  have h₄ := h₃.trans h₄
  refine .bind (hr.type hk (h.reaches h₄)) fun _ c₅ _ h₅ => ?_
  exact .bind (accept_quiet hq (h.reaches (h₄.trans h₅)).last _) fun _ _ _ _ => .pure

/-! ## Enumerations -/

omit hr in
theorem repeats_skipValue (hq : o.Quiet) (hlast : c.last.isEnd = true) : Repeats o near skipValue skipValue c := by
  refine repeats_loop (fun depth d hd => ?_) 0
  have hlast : d.last.isEnd = true := by rw [hd.last, hlast]
  simp only [repeats_peek_bind, isEnd_quiet hq hlast, isOneOf_quiet hq hlast]
  refine .ite .rfl (fun _ => .pure) fun hend => ?_
  have hne : d.rest ≠ [] := fun hnil => hend (by rw [peek_length_le (by simp [hnil]), hlast])
  have hnext (depth : Nat) : Repeats o near (do
      let _ ← next
      return .again depth : Parser (Turn Nat Unit)) (do
      let _ ← next
      return .again depth) d := repeats_next_bind hne fun _ _ _ => .pure
  refine .ite .rfl (fun _ => hnext _) fun _ => .ite .rfl (fun _ => ?_) fun _ =>
    .ite .rfl (fun _ => .pure) fun _ => hnext _
  split
  · exact .pure
  · exact hnext _

omit hr in
theorem repeats_value (hq : o.Quiet) (hlast : c.last.isEnd = true) : Repeats o near value value c := by
  have hskip {d : Cursor} (hlast : d.last.isEnd = true) : Repeats o near (do
      skipValue
      return (none, none) : Parser (Option Text × Option Int)) (do
      skipValue
      return (none, none)) d := .bind (repeats_skipValue hq hlast) fun _ _ _ _ => .pure
  unfold value
  refine .bind (accept_quiet hq hlast _) fun isNegative d _ hd => ?_
  have hlast : d.last.isEnd = true := by rw [hd.last, hlast]
  simp only [repeats_peek_bind, isOneOf_quiet hq hlast]
  by_cases hne : d.rest = []
  · have hmark : (d.peek 1).isOneOf [",", "\x7d"] = false := by
      rw [peek_length_le (by simp [hne]), Token.not_isOneOf_of_isEnd hlast]
    simp only [hmark, Bool.false_eq_true, if_false]
    exact hskip hlast
  · simp only [peek_put o (List.length_pos_iff.2 hne), Token.isString_later, Token.isNumber_later, Token.value_later,
      Token.raw_later]
    refine .ite .rfl (fun _ => .ite .rfl (fun _ => ?_) fun _ => .ite .rfl (fun _ => ?_) fun _ => hskip hlast)
      fun _ => hskip hlast
    · exact repeats_next_bind hne fun _ _ _ => .pure
    · refine repeats_next_bind hne fun _ _ _ => ?_
      split
      · exact .pure
      · exact .pure

omit hr in
theorem repeats_enumMembers (hq : o.Quiet) (hlast : c.last.isEnd = true) : Repeats o near enumMembers enumMembers c := by
  refine repeats_loop (fun state d hd => ?_) _
  obtain ⟨found, counter⟩ := state
  have hlast {e : Cursor} (he : c.Reaches e) : e.last.isEnd = true := by rw [he.last, hlast]
  have hcomma {found : List EnumMember} {counter : Option Int} : ∀ e, c.Reaches e → Repeats o near (do
      if ← accept "," then return .again (found, counter)
      else return .done found.reverse : Parser (Turn (List EnumMember × Option Int) (List EnumMember))) (do
      if ← accept "," then return .again (found, counter)
      else return .done found.reverse) e := fun e he =>
    .bind (accept_quiet hq (hlast he) _) fun _ _ _ _ => .ite .rfl (fun _ => .pure) fun _ => .pure
  simp only [repeats_sees_bind, hq.sees (hlast hd)]
  refine .ite .rfl (fun _ => .pure) fun _ => ?_
  by_cases hne : d.rest = []
  · -- the end of the input is no name
    obtain ⟨rest, last⟩ := d
    cases hne
    have hl : last.lexeme = .endOfInput := beq_iff_eq.1 (hlast hd)
    refine Refuses.repeats (.behind fun name e he => ?_)
    cases he
    rw [if_pos (by simp [Token.isWord, Token.isString, hl])]
    exact (refuses_fail _ _ : Refuses (rejectAt last .expectedEnumMember : Parser PUnit) _).bind _
  refine repeats_next_bind hne fun name e he => ?_
  have hde : c.Reaches e := hd.trans ⟨[name], he⟩
  simp only [Token.isWord_later, Token.isString_later, Token.value_later]
  refine .ite .rfl (fun _ => ?_) fun _ => .bind (accept_quiet hq (hlast hde) _) fun taken e₁ _ he₁ => .ite .rfl (fun _ => ?_)
    fun _ => ?_
  · exact ((refuses_fail _ _ : Refuses (rejectAt name .expectedEnumMember : Parser PUnit) e).bind _).repeats
  · exact .bind (repeats_value hq (hlast (hde.trans he₁))) fun _ e₂ _ he₂ => hcomma e₂ (hde.trans (he₁.trans he₂))
  · cases counter with
    | none => exact hcomma e₁ (hde.trans he₁)
    | some n => exact hcomma e₁ (hde.trans he₁)

omit hr in
theorem repeats_enumeration (hq : o.Quiet) (h : Seam source o near c) (docs : DocComment) :
    Repeats o near (enumeration docs) (enumeration docs) c := by
  refine .bind (repeats_expect h.last _) fun _ c₁ _ h₁ => .bind (repeats_expectName (h.reaches h₁).last) fun _ c₂ _ h₂ => ?_
  have h₂ := h₁.trans h₂
  refine .bind (repeats_expect (h.reaches h₂).last _) fun _ c₃ _ h₃ => ?_
  have h₃ := h₂.trans h₃
  refine .bind (repeats_enumMembers hq (h.reaches h₃).last) fun _ c₄ _ h₄ => ?_
  exact .bind (repeats_expect (h.reaches (h₃.trans h₄)).last _) fun _ _ _ _ => .pure

/-! ## Statements -/

omit hr in
theorem repeats_skipStatement (hq : o.Quiet) (hlast : c.last.isEnd = true) :
    Repeats o near skipStatement skipStatement c := by
  refine repeats_loop (fun state d hd => ?_) _
  obtain ⟨depth, isFirst⟩ := state
  have hlast : d.last.isEnd = true := by rw [hd.last, hlast]
  simp only [repeats_peek_bind, isEnd_quiet hq hlast]
  refine .ite .rfl (fun _ => .pure) fun hend => ?_
  have hne : d.rest ≠ [] := fun hnil => hend (by rw [peek_length_le (by simp [hnil]), hlast])
  simp only [peek_put o (List.length_pos_iff.2 hne), Token.lineBreak_later, Token.isWord_later, Token.raw_later,
    Token.isOneOf_later]
  refine .ite .rfl (fun _ => .pure) fun _ => repeats_next_bind hne fun _ _ _ => .ite .rfl (fun _ => .pure) fun _ =>
    .ite .rfl (fun _ => .ite .rfl (fun _ => .pure) fun _ => .pure) fun _ => .ite .rfl (fun _ => .pure) fun _ => .pure

theorem repeats_statement (hk : o.shift = k) (hq : o.Quiet) (h : Seam source o near c) (hne : c.rest ≠ []) :
    Repeats o near (statement rules) (statement rules') c := by
  have hskip {d : Cursor} (hd : c.Reaches d) : Repeats o near (do
      skipStatement
      return none : Parser (Option Declaration)) (do
      skipStatement
      return none) d := .bind (repeats_skipStatement hq (h.reaches hd).last) fun _ _ _ _ => .pure
  simp only [statement, repeats_peek_bind, peek_put o (List.length_pos_iff.2 hne), Token.docs_later]
  refine .bind (accept_quiet hq h.last _) fun taken c₁ _ h₁ => .ite .rfl (fun _ => .pure) fun _ => ?_
  simp only [repeats_sees_bind, hq.sees (h.reaches h₁).last]
  refine .ite .rfl (fun _ => hskip h₁) fun _ => .bind (repeats_loop (fun _ d hd => ?_) ()) fun _ d _ hd => ?_
  · have hlast := (h.reaches (h₁.trans hd)).last
    refine .bind (.bind (accept_quiet hq hlast _) fun _ e _ he => .ite .rfl (fun _ => .pure) fun _ => ?_) fun _ _ _ _ =>
      .ite .rfl (fun _ => .pure) fun _ => .pure
    exact accept_quiet hq (by rw [he.last, hlast]) _
  have hd := h₁.trans hd
  have hseam := h.reaches hd
  have henum {e : Cursor} (he : c.Reaches e) {docs : DocComment} : Repeats o near (do
      let c ← get
      if c.sees "enum" && (c.peek 1).isWord then return some (← enumeration docs)
      else
        skipStatement
        return none : Parser (Option Declaration)) (do
      let c ← get
      if c.sees "enum" && (c.peek 1).isWord then return some (← enumeration docs)
      else
        skipStatement
        return none) e := by
    have hlast := (h.reaches he).last
    simp only [repeats_get_bind, hq.sees hlast, isWord_quiet hq hlast]
    exact .ite .rfl (fun _ => .bind (repeats_enumeration hq (h.reaches he) docs) fun _ _ _ _ => .pure) fun _ => hskip he
  simp only [repeats_get_bind, hq.sees hseam.last, isWord_quiet hq hseam.last]
  refine .ite .rfl (fun _ => .bind (repeats_interface hr hk hq hseam _) fun _ _ _ _ => .pure) fun _ =>
    .ite .rfl (fun _ => .bind (repeats_typeAlias hr hk hq hseam _) fun _ _ _ _ => .pure) fun _ =>
    .ite .rfl (fun hconst => ?_) fun _ => henum hd
  -- `const` is seen, so there is a token to take
  have hrest : d.rest ≠ [] := fun hnil => by
    rw [not_sees_end hseam.last (by simp [hnil])] at hconst
    cases hconst
  exact repeats_next_bind hrest fun t e he => henum (hd.trans ⟨[t], he⟩)

theorem repeats_statements (hk : o.shift = k) (hq : o.Quiet) (h : Seam source o near c) :
    Repeats o near (statements rules) (statements rules') c := by
  refine repeats_loop (fun found d hd => ?_) []
  have hseam := h.reaches hd
  simp only [repeats_peek_bind, isEnd_quiet hq hseam.last]
  refine .ite .rfl (fun _ => .pure) fun hend => ?_
  have hne : d.rest ≠ [] := fun hnil => hend (by rw [peek_length_le (by simp [hnil]), hseam.last])
  exact .bind (repeats_statement hr hk hq hseam hne) fun _ _ _ _ => .pure

end

end DeclarationGrammar

end WireSchema
