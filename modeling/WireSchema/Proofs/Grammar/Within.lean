import WireSchema.Proofs.Grammar.Ahead
/-!
# Types in a longer source

Each rule of the grammar repeats in a longer source what it does where the
tokens end, if what comes next leaves them alone.
-/

namespace WireSchema

open Source Source.Cursor Source.Parser

/-- The rules of a longer source read what the rules of the source read. -/
structure Rules.Repeat (source : Text) (k : Nat) (rules rules' : Rules) : Prop where
  type : ∀ {o : Place} {near c}, o.shift = k → Seam source o near c → Repeats o near rules.type rules'.type c
  operand : ∀ {o : Place} {near c}, o.shift = k → Seam source o near c → Repeats o near rules.operand rules'.operand c
  hole : ∀ {a b t}, EndsWindow source b → a ≤ b → rules.hole a b = .ok t → rules'.hole (a + k) (b + k) = .ok t
  noType : ∀ {c : Cursor}, c.last.isEnd = true → c.rest = [] → Refuses rules.type c
  noOperand : ∀ {c : Cursor}, c.last.isEnd = true → c.rest = [] → Refuses rules.operand c

namespace TypeGrammar

section
variable {source : Text} {k : Nat} {rules rules' : Rules} {o : Place} {near part : Bool} {start c : Cursor}

theorem repeats_qualifiedName (h : Seam source o part c) : Repeats o near qualifiedName qualifiedName c := by
  refine .bind (repeats_expectName h.last) fun first d _ hd =>
    .bind (repeats_loop (fun parts e he => ?_) [first]) fun _ _ _ _ => .pure
  have hseam := h.reaches (hd.trans he)
  simp only [qualifiedRound, repeats_sees_bind, repeats_peek_bind, dotted_put hseam]
  refine .ite .rfl (fun hdot => ?_) fun _ => .pure
  rw [Bool.and_eq_true] at hdot
  have hlength : 1 < e.rest.length := by
    refine Nat.lt_of_not_le fun hle => ?_
    rw [peek_length_le hle, Token.not_isWord_of_isEnd hseam.last] at hdot
    cases hdot.2
  refine repeats_next_bind (List.length_pos_iff.1 (by omega)) fun t e' he' => ?_
  subst he'
  refine repeats_next_bind (fun hnil => ?_) fun u _ _ => .pure
  simp [hnil] at hlength

variable (hr : rules.Repeat source k rules')
include hr

theorem repeats_returnType (hk : o.shift = k) (h : Seam source o near c) (his : near = true ∨ o.next.sees "is" = false) :
    Repeats o near (returnType rules) (returnType rules') c := by
  by_cases hne : c.rest = []
  · refine Refuses.repeats (.behind fun start d hd => .behind fun seen d' hd' => .behind fun token e he =>
      .behind fun _ e' he' => ?_)
    cases hd
    cases hd'
    cases he
    rw [not_sees_end h.last (by simp [hne])] at he'
    cases he'
    exact (hr.noType h.last hne).bind _
  simp only [returnType, repeats_get_bind, repeats_sees_bind, repeats_peek_bind]
  have hword : ((o.put c).sees "asserts" && ((o.put c).peek 1).isWord) = (c.sees "asserts" && (c.peek 1).isWord) :=
    ahead_put (P := fun t => t.is "asserts") (Q := Token.isWord) h hne (Token.is_later _ · _) (Token.isWord_later _)
      (fun _ => Token.not_isWord_of_isEnd) fun t next ht hnext => by simp [Token.joins, ht, hnext]
  refine .bind (repeats_when hword fun _ => repeats_skip hne) fun _ c₁ _ h₁ =>
    .bind (hr.type hk (h.reaches h₁)) fun type c₂ _ h₂ =>
    .bind (repeats_accept_near (h.reaches (h₁.trans h₂)).last his) fun taken c₃ _ h₃ => .ite .rfl (fun _ => ?_) fun _ => .pure
  have h₃ := h₁.trans (h₂.trans h₃)
  exact .bind (hr.type hk (h.reaches h₃)) fun _ c₄ _ h₄ => repeats_textSince_bind (h₃.trans h₄) .pure

/-- What comes next matters to a function type behind its arrow alone. -/
theorem repeats_functionType (hk : o.shift = k) (h : Seam source o true c)
    (harrow : (∃ t ∈ c.rest, t.is "=>" = true) → Seam source o near c) :
    Repeats o near (functionType rules) (functionType rules') c := by
  by_cases hne : c.rest = []
  · exact (refuses_functionType h.last hne).repeats
  simp only [functionType, repeats_get_bind, repeats_sees_bind, sees_put o (List.length_pos_iff.2 hne)]
  refine .bind (repeats_when rfl fun _ => repeats_skipBalanced h.last) fun _ c₁ _ h₁ => ?_
  have hseam := h.reaches h₁
  simp only [repeats_sees_bind]
  by_cases hne' : c₁.rest = []
  · rw [not_sees_end hseam.last (by simp [hne'])]
    exact ((refuses_reject _ _ : Refuses (reject .expectedParameters : Parser Unit) c₁).bind _).repeats
  rw [sees_put o (List.length_pos_iff.2 hne')]
  refine .bind (repeats_when rfl fun _ => (refuses_reject _ _).repeats) fun _ c₂ _ h₂ =>
    .bind (repeats_skipBalanced (hseam.reaches h₂).last) fun _ c₃ _ h₃ => ?_
  have h₃ := h₁.trans (h₂.trans h₃)
  refine .bind (repeats_expect (h.reaches h₃).last "=>") fun _ c₄ hexpect h₄ => ?_
  obtain ⟨t, rfl, ht⟩ := expect_ok (h.reaches h₃).last hexpect
  -- behind an arrow no `is` comes next
  have his : o.next.sees "is" = false := Bool.eq_false_iff.2 fun hsees => by
    rw [(h.reaches h₃).parts.arrow hsees t List.mem_cons_self] at ht
    cases ht
  have hmem : t ∈ c.rest := by
    obtain ⟨front, rfl⟩ := h₃
    exact List.mem_append_right front List.mem_cons_self
  have h₄ := h₃.trans h₄
  refine .bind (repeats_returnType hr hk ((harrow ⟨t, hmem, ht⟩).reaches h₄) (.inr his)) fun _ c₅ _ h₅ => ?_
  exact repeats_textSince_bind (h₄.trans h₅) .pure

/-! ## Members of object shapes -/

theorem repeats_skipPiece (hk : o.shift = k) (h : Seam source o near c) (hne : c.rest ≠ []) :
    Repeats o near (skipPiece rules) (skipPiece rules') c := by
  simp only [skipPiece, repeats_peek_bind, peek_put o (List.length_pos_iff.2 hne), Token.isOneOf_later]
  refine .ite .rfl (fun _ => repeats_skipBalanced h.last) fun _ =>
    .bind (repeats_acceptEither_joint h (by decide) (by decide)) fun taken d htaken hd => ?_
  cases taken with
  | true => exact .bind (hr.type hk (h.reaches hd)) fun _ _ _ _ => .pure
  | false =>
    obtain rfl := acceptEither_false htaken
    exact repeats_skip hne

theorem repeats_signatureRound (hk : o.shift = k) (h : Seam source o near c) (hne : c.rest ≠ []) :
    Repeats o near (signatureRound rules ()) (signatureRound rules' ()) c := by
  have hlength := List.length_pos_iff.2 hne
  simp only [signatureRound, repeats_get_bind, sees_put o hlength, peek_put o hlength, Token.isEnd_later]
  exact .ite .rfl (fun _ => .pure) fun _ => .bind (repeats_skipPiece hr hk h hne) fun _ _ _ _ => .pure

/-- A signature is passed over alike where something ends it. -/
theorem repeats_skipSignature (hk : o.shift = k) (h : Seam source o true c) :
    Repeats o true (skipSignature rules) (skipSignature rules') c := by
  refine repeats_loop (fun _ d hd => ?_) ()
  have hseam := h.reaches hd
  by_cases hne : d.rest = []
  · refine repeats_stay hne fun a e he => ?_
    obtain ⟨_, _, hget, he⟩ := bind_ok.1 he
    cases hget
    rw [if_pos (by simp [peek_length_le (n := 0) (c := d) (by simp [hne]), hseam.last])] at he
    cases he
    rfl
  · exact repeats_signatureRound hr hk hseam hne

theorem repeats_methodType (hk : o.shift = k) (h : Seam source o near c) (hne : c.rest ≠ [])
    (his : near = true ∨ o.next.sees "is" = false) : Repeats o near (methodType rules) (methodType rules') c := by
  simp only [methodType, repeats_get_bind, repeats_sees_bind, sees_put o (List.length_pos_iff.2 hne)]
  refine .bind (repeats_when rfl fun _ => repeats_skipBalanced h.last) fun _ c₁ _ h₁ =>
    .bind (repeats_skipBalanced (h.reaches h₁).last) fun _ c₂ _ h₂ => repeats_textSince_bind (h₁.trans h₂) ?_
  refine .bind (.bind (repeats_accept_joint (h.reaches (h₁.trans h₂)) (by decide)) fun taken c₃ _ h₃ =>
    .ite .rfl (fun _ => ?_) fun _ => .pure) fun _ _ _ _ => .pure
  exact .bind (repeats_returnType hr hk (h.reaches (h₁.trans (h₂.trans h₃))) his) fun _ _ _ _ => .pure

theorem repeats_memberType (hk : o.shift = k) (h : Seam source o near c) (hne : near = true ∨ c.rest ≠ [])
    (his : (c.sees "(" || c.sees "<") = true → near = true ∨ o.next.sees "is" = false) :
    Repeats o near (memberType rules) (memberType rules') c := by
  simp only [memberType, repeats_get_bind]
  by_cases hrest : c.rest = []
  · obtain rfl : near = true := hne.resolve_right (absurd hrest)
    refine repeats_stay hrest fun a d hd => ?_
    have hnot (w : Text) : c.sees w = false := not_sees_end h.last (by simp [hrest]) w
    simp only [hnot, Bool.or_false, Bool.false_eq_true, if_false, bind_apply, accept_of_not_sees (hnot ":"), ok_bind] at hd
    cases hd
    rfl
  · simp only [sees_put o (List.length_pos_iff.2 hrest)]
    refine .ite .rfl (fun hmethod => repeats_methodType hr hk h hrest (his hmethod)) fun _ =>
      .bind (repeats_accept_joint h (by decide)) fun taken d _ hd => .ite .rfl (fun _ => ?_) fun _ => .pure
    exact hr.type hk (h.reaches hd)

omit hr in
theorem repeats_readonly (h : Seam source o part c) (hne : c.rest ≠ []) :
    Repeats o near (loop readonlyRound ()) (loop readonlyRound ()) c := by
  refine repeats_loop_of (I := fun d => Seam source o part d ∧ d.rest ≠ []) (fun _ d hd => ?_) (fun _ d _ e hd hround => ?_) ()
    ⟨h, hne⟩
  · simp only [readonlyRound, repeats_get_bind, beginsModified_put hd.1 hd.2]
    exact .ite .rfl (fun _ => repeats_next_bind hd.2 fun _ _ _ => .pure) fun _ => .pure
  · obtain ⟨start, d', hstart, hturn⟩ := bind_ok.1 hround
    cases hstart
    by_cases hmodified : beginsModified "readonly" d = true
    · have hone := one_lt_of_beginsModified hd.1.last hmodified
      rw [if_pos hmodified] at hturn
      obtain ⟨t, e', rfl⟩ := exists_first hd.2
      rw [bind_apply, next_before] at hturn
      cases hturn
      exact ⟨hd.1.reaches ⟨[t], rfl⟩, List.length_pos_iff.1 (by simpa using hone)⟩
    · rw [if_neg hmodified] at hturn
      cases hturn

end

/-- A member behind its name. -/
def behindName (rules : Rules) (docs : DocComment) (name : Token) : Parser (Option (Property TypeExpr)) := do
  when (!(name.isWord || name.isString || name.isNumber)) (rejectAt name (.unexpectedInObject name.raw))
  let isOptional ← accept "?"
  let type ← memberType rules
  return some { name := name.value, isOptional, type, docs }

/-- A member behind its modifiers. -/
def unmodified (rules : Rules) (docs : DocComment) : Parser (Option (Property TypeExpr)) := do
  let c ← get
  if c.sees "[" || c.sees "(" || c.sees "<" then
    skipSignature rules
    return none
  else if c.sees "new" && (c.sees "(" 1 || c.sees "<" 1) then
    let _ ← next
    skipSignature rules
    return none
  else if (c.sees "get" || c.sees "set") && ((c.peek 1).isWord || (c.peek 1).isString) then
    skipSignature rules
    return none
  else
    behindName rules docs (← next)

theorem member_eq (rules : Rules) :
    member rules = (do
      let docs := DocComment.ofBlocks (← peek).docs
      loop readonlyRound ()
      unmodified rules docs) := rfl

section
variable {source : Text} {k : Nat} {rules rules' : Rules} {o : Place} {near part : Bool} {start c : Cursor}

theorem refuses_behindName {docs : DocComment} {name : Token} (h : name.isEnd = true) :
    Refuses (behindName rules docs name) c := by
  have hl : name.lexeme = .endOfInput := beq_iff_eq.1 h
  have hname : (!(name.isWord || name.isString || name.isNumber)) = true := by
    simp [Token.isWord, Token.isString, Token.isNumber, hl]
  rw [behindName, hname]
  exact (refuses_fail _ _ : Refuses (rejectAt name (.unexpectedInObject name.raw)) c).bind _

theorem refuses_unmodified {docs : DocComment} (hlast : c.last.isEnd = true) (h : c.rest = []) :
    Refuses (unmodified rules docs) c := by
  have hnot (w : Text) : c.sees w = false := not_sees_end hlast (by simp [h]) w
  simp only [unmodified, refuses_get_bind, hnot, Bool.or_self, Bool.false_and, Bool.false_eq_true, if_false]
  refine .behind fun name d hd => ?_
  obtain ⟨rest, last⟩ := c
  cases h
  cases hd
  exact refuses_behindName hlast

theorem refuses_member (hlast : c.last.isEnd = true) (h : c.rest = []) : Refuses (member rules) c := by
  have hloop : loop readonlyRound () c = .ok ((), c) :=
    loop_done (by simp [readonlyRound, beginsModified, not_sees_end hlast, h])
  rw [member_eq, refuses_peek_bind]
  refine .behind fun _ d hd => ?_
  rw [hloop] at hd
  cases hd
  exact refuses_unmodified hlast h

variable (hr : rules.Repeat source k rules')
include hr

theorem repeats_behindName (hk : o.shift = k) (h : Seam source o near c) {docs : DocComment} {name : Token}
    (hcolon : near = true ∨ ∃ t ∈ c.rest, t.Marks ":")
    (his : ∀ taken d, accept "?" c = .ok (taken, d) → (d.sees "(" || d.sees "<") = true →
      near = true ∨ o.next.sees "is" = false) :
    Repeats o near (behindName rules docs name) (behindName rules' docs (name.later o.shift)) c := by
  simp only [behindName, Token.isWord_later, Token.isString_later, Token.isNumber_later, Token.raw_later, Token.value_later]
  refine .bind (repeats_when rfl fun _ => (refuses_fail _ _).repeats) fun _ c₁ hwhen h₁ => ?_
  obtain rfl := (refuses_fail _ _).when_ok hwhen
  refine .bind (repeats_accept_joint h (by decide)) fun taken c₂ htaken h₂ =>
    .bind (repeats_memberType hr hk (h.reaches h₂) (hcolon.imp id ?_) (his taken c₂ htaken)) fun _ _ _ _ => .pure
  rintro ⟨t, ht, hmark⟩ hnil
  cases taken with
  | false =>
    obtain ⟨rfl, _⟩ := accept_false htaken
    rw [hnil] at ht
    cases ht
  | true =>
    obtain ⟨u, rfl, hu⟩ := accept_true h.last htaken
    rw [rest_before, hnil, List.append_nil, List.mem_singleton] at ht
    subst ht
    rw [hmark.is_eq] at hu
    revert hu
    decide

theorem repeats_unmodified (hk : o.shift = k) (h : Seam source o true c) (docs : DocComment) :
    Repeats o true (unmodified rules docs) (unmodified rules' docs) c := by
  by_cases hne : c.rest = []
  · exact (refuses_unmodified h.last hne).repeats
  have hlength := List.length_pos_iff.2 hne
  have hsigned : Repeats o true (do
      skipSignature rules
      return none : Parser (Option (Property TypeExpr))) (do
      skipSignature rules'
      return none) c := .bind (repeats_skipSignature hr hk h) fun _ _ _ _ => .pure
  have hnamed {t : Token} {e : Cursor} (he : c = e.before [t]) :
      Repeats o true (behindName rules docs t) (behindName rules' docs (t.later o.shift)) e :=
    repeats_behindName hr hk (h.reaches ⟨[t], he⟩) (.inl rfl) fun _ _ _ _ => .inl rfl
  simp only [unmodified, repeats_get_bind, sees_put o hlength]
  refine .ite .rfl (fun _ => hsigned) fun _ => ?_
  by_cases hone : c.rest.length ≤ 1
  · -- the last token is a name
    have hnot (w : Text) : c.sees w 1 = false := not_sees_end h.last hone w
    have hfollowing : ((c.peek 1).isWord || (c.peek 1).isString) = false := by
      have hl : c.last.lexeme = .endOfInput := beq_iff_eq.1 h.last
      simp [peek_length_le hone, Token.isWord, Token.isString, hl]
    simp only [hnot, hfollowing, Bool.or_self, Bool.and_false, Bool.false_eq_true, if_false]
    exact repeats_next_last (Nat.le_antisymm hone hlength) fun t e he => hnamed he
  · have hone := Nat.lt_of_not_le hone
    simp only [sees_put o hone, peek_put o hone, Token.isWord_later, Token.isString_later]
    refine .ite .rfl (fun _ => ?_) fun _ => .ite .rfl (fun _ => hsigned) fun _ => ?_
    · exact repeats_next_bind hne fun t e he =>
        .bind (repeats_skipSignature hr hk (h.reaches ⟨[t], he⟩)) fun _ _ _ _ => .pure
    · exact repeats_next_bind hne fun t e he => hnamed he

/-- A member is read alike where something ends it. -/
theorem repeats_member (hk : o.shift = k) (h : Seam source o true c) : Repeats o true (member rules) (member rules') c := by
  by_cases hne : c.rest = []
  · exact (refuses_member h.last hne).repeats
  simp only [member_eq, repeats_peek_bind, peek_put o (List.length_pos_iff.2 hne), Token.docs_later]
  exact .bind (repeats_readonly h hne) fun _ d _ hd => repeats_unmodified hr hk (h.reaches hd) _

omit hr in
theorem repeats_separators (hlast : c.last.isEnd = true) :
    Repeats o true (loop separatorRound ()) (loop separatorRound ()) c := by
  refine repeats_loop (fun _ d hd => ?_) ()
  have hlast : d.last.isEnd = true := by
    obtain ⟨ts, rfl⟩ := hd
    exact hlast
  refine .bind (.bind (repeats_accept_near hlast (.inl rfl)) fun taken e _ he => .ite .rfl (fun _ => .pure) fun _ => ?_)
    fun taken e _ _ => .ite .rfl (fun _ => .pure) fun _ => .pure
  refine repeats_accept_near ?_ (.inl rfl)
  obtain ⟨ts, rfl⟩ := he
  exact hlast

/-- Members are read up to the brace that ends them. -/
theorem repeats_members (hk : o.shift = k) (h : Seam source o true c) :
    Repeats o near (members rules) (members rules') c := by
  refine .bind (repeats_expect h.last _) fun _ c₁ _ h₁ => ?_
  have hseam := h.reaches h₁
  refine .wanted (repeats_loop (fun found d hd => ?_) []) (fun found d _ hd => ?_) fun found d hd hnil => ?_
  · have hseam := hseam.reaches hd
    simp only [membersRound, repeats_get_bind]
    by_cases hne : d.rest = []
    · have hend : (d.peek 0).isEnd = true := by
        rw [peek_length_le (by simp [hne])]
        exact hseam.last
      rw [not_sees_end hseam.last (by simp [hne]), hend]
      exact ((refuses_reject _ _ : Refuses (reject .unterminatedObject : Parser Unit) d).bind _).repeats
    · have hlength := List.length_pos_iff.2 hne
      simp only [sees_put o hlength, peek_put o hlength, Token.isEnd_later]
      refine .ite .rfl (fun _ => .pure) fun _ => .bind (repeats_when rfl fun _ => (refuses_reject _ _).repeats)
        fun _ d₁ _ h₁ => .bind (repeats_member hr hk (hseam.reaches h₁)) fun found d₂ _ h₂ =>
        .bind (repeats_separators (hseam.reaches (h₁.trans h₂)).last) fun _ _ _ _ => .pure
  · exact .bind (repeats_expect (hseam.reaches hd).last _) fun _ _ _ _ => .pure
  · exact (refuses_expect (hseam.reaches hd).last hnil _).bind _

/-! ## Primary types -/

/-- A function or a constructor type begins here. -/
def beginsArrow (c : Cursor) : Bool :=
  c.peek.isMark && beginsFunction c ||
    c.peek.isWord && (c.peek.raw == "new" || c.peek.raw == "abstract" && c.sees "new" 1)

omit hr in
theorem beginsArrow_mark (hmark : c.peek.isMark = true) (h : beginsFunction c = true) : beginsArrow c = true := by
  rw [beginsArrow, hmark, h]
  rfl

omit hr in
theorem beginsArrow_word (hword : c.peek.isWord = true)
    (h : c.peek.raw = "new" ∨ c.peek.raw = "abstract" ∧ c.sees "new" 1 = true) : beginsArrow c = true := by
  simpa [beginsArrow, hword] using .inr h

omit hr in
theorem repeats_elementName (h : Seam source o part c) : Repeats o true elementName elementName c := by
  simp only [elementName, repeats_get_bind]
  by_cases hne : c.rest = []
  · refine repeats_stay hne fun a d hd => ?_
    rw [peek_length_le (by simp [hne]), Token.not_isWord_of_isEnd h.last] at hd
    cases hd
    rfl
  have hlength := List.length_pos_iff.2 hne
  have hlabel : ((o.put c).sees "?" 1 && (o.put c).sees ":" 2) = (c.sees "?" 1 && c.sees ":" 2) := by
    rw [h.sees_joint (n := 1) hlength (by decide)]
    cases hmark : c.sees "?" 1 with
    | false => rfl
    | true =>
      have hone : 1 < c.rest.length := by
        refine Nat.lt_of_not_le fun hle => ?_
        rw [not_sees_end h.last hle] at hmark
        cases hmark
      rw [h.sees_joint (n := 2) hone (by decide)]
  simp only [peek_put o hlength, Token.isWord_later, h.sees_joint (n := 1) hlength (w := ":") (by decide), hlabel]
  refine .ite .rfl (fun _ => ?_) fun _ => .pure
  refine repeats_next_bind hne fun t d hd => .bind (repeats_accept_joint (h.reaches ⟨[t], hd⟩) (by decide))
    fun _ e _ he => .bind (repeats_expect ((h.reaches ⟨[t], hd⟩).reaches he).last _) fun _ _ _ _ => .pure

theorem repeats_tuple (hk : o.shift = k) (h : Seam source o true c) : Repeats o near (tuple rules) (tuple rules') c := by
  simp only [tuple, repeats_get_bind]
  refine .bind (repeats_expect h.last _) fun _ c₁ _ h₁ =>
    .wanted (repeats_loop (fun state d hd => ?_) ([], false)) (fun found c₂ _ h₂ =>
      .bind (repeats_expect (h.reaches (h₁.trans h₂)).last _) fun _ c₃ _ h₃ =>
        repeats_textSince_bind (h₁.trans (h₂.trans h₃)) .pure) fun found c₂ h₂ hnil =>
      (refuses_expect (h.reaches (h₁.trans h₂)).last hnil _).bind _
  obtain ⟨elements, variadic⟩ := state
  have hseam := (h.reaches h₁).reaches hd
  simp only [tupleRound, repeats_sees_bind, hseam.sees_joint (Nat.zero_le _) (show ("]" : Text) ∈ joints by decide)]
  refine .ite .rfl (fun _ => .pure) fun _ => .bind (repeats_accept_joint hseam (by decide)) fun isRest d₁ _ hd₁ =>
    .wanted (repeats_elementName (hseam.reaches hd₁)) (fun isOptional d₂ _ hd₂ => ?_) fun isOptional d₂ hd₂ hnil =>
      (hr.noType (hseam.reaches (hd₁.trans hd₂)).last hnil).bind _
  have hd₂ := hd₁.trans hd₂
  refine .bind (hr.type hk (hseam.reaches hd₂)) fun element d₃ _ hd₃ => ?_
  have hd₃ := hd₂.trans hd₃
  refine .bind (repeats_accept_joint (hseam.reaches hd₃) (by decide)) fun _ d₄ _ hd₄ => ?_
  exact .bind (repeats_accept_joint (hseam.reaches (hd₃.trans hd₄)) (by decide)) fun _ _ _ _ =>
    .ite .rfl (fun _ => .pure) fun _ => .pure

theorem repeats_typeArguments (hk : o.shift = k) (h : Seam source o true c) :
    Repeats o near (typeArguments rules) (typeArguments rules') c := by
  simp only [typeArguments, repeats_get_bind, angle_put h]
  refine .ite .rfl (fun hopen => ?_) fun _ => .pure
  rw [Bool.and_eq_true] at hopen
  have hne : c.rest ≠ [] := fun hnil => by
    rw [not_sees_end h.last (by simp [hnil])] at hopen
    cases hopen.1
  refine .bind (repeats_skip hne) fun _ c₁ _ h₁ =>
    .wanted (repeats_listed (h.reaches h₁) (by decide) fun d hd => hr.type hk (h.reaches (h₁.trans hd)))
      (fun _ c₂ _ h₂ => .bind (repeats_expect (h.reaches (h₁.trans h₂)).last _) fun _ _ _ _ => .pure)
      fun _ c₂ h₂ hnil => (refuses_expect (h.reaches (h₁.trans h₂)).last hnil _).bind _

theorem repeats_reference (hk : o.shift = k) (h : Seam source o true c) :
    Repeats o near (reference rules) (reference rules') c := by
  simp only [reference, repeats_get_bind]
  refine .bind (repeats_qualifiedName h) fun _ c₁ _ h₁ =>
    .bind (repeats_typeArguments hr hk (h.reaches h₁)) fun _ c₂ _ h₂ => repeats_textSince_bind (h₁.trans h₂) .pure

theorem templateSpans_later {parts : List TemplatePart}
    (hparts : ∀ a b, .hole a b ∈ parts → EndsWindow source b ∧ a ≤ b) {spans : List (Span TypeExpr)}
    (h : templateSpans rules parts = .ok spans) : templateSpans rules' (parts.map (·.later k)) = .ok spans := by
  induction parts generalizing spans with
  | nil => exact h
  | cons part rest ih =>
    have hrest {spans : List (Span TypeExpr)} (h : templateSpans rules rest = .ok spans) :
        templateSpans rules' (rest.map (·.later k)) = .ok spans := ih (fun a b hmem => hparts a b (List.mem_cons_of_mem _ hmem)) h
    cases part with
    | chunk text =>
      obtain ⟨others, hothers, h⟩ := Except.bind_eq_ok.1 h
      cases h
      change templateSpans rules' (.chunk text :: rest.map (·.later k)) = _
      rw [templateSpans, hrest hothers]
      rfl
    | hole a b =>
      obtain ⟨hends, hab⟩ := hparts a b List.mem_cons_self
      obtain ⟨type, htype, h⟩ := Except.bind_eq_ok.1 h
      obtain ⟨others, hothers, h⟩ := Except.bind_eq_ok.1 h
      cases h
      change templateSpans rules' (.hole (a + k) (b + k) :: rest.map (·.later k)) = _
      rw [templateSpans, hr.hole hends hab htype, hrest hothers]
      rfl

theorem repeats_wordType (hk : o.shift = k) (h : Seam source o true c) (hne : c.rest ≠ []) (hword : c.peek.isWord = true)
    (hfunction : ∀ d, c.Reaches d → beginsArrow c = true → Repeats o near (functionType rules) (functionType rules') d) :
    Repeats o near (wordType rules c.peek.raw) (wordType rules' c.peek.raw) c := by
  have hlength := List.length_pos_iff.2 hne
  have hbehind (v w : Text) (hjoins : ∀ t next : Token, t.is v = true → next.is w = true → t.joins next = true) :
      (c.peek.raw = v ∧ (o.put c).sees w 1 = true) ↔ (c.peek.raw = v ∧ c.sees w 1 = true) := by
    have hsame := ahead_put (P := fun t => t.is v) (Q := fun t => t.is w) h hne (Token.is_later _ · v)
      (Token.is_later _ · w) (fun _ ht => Token.not_is_of_isEnd ht w) hjoins
    rw [peek_put o hlength, Token.is_later, Token.is, hword, Bool.true_or, Bool.true_and] at hsame
    simpa [Cursor.sees] using Bool.eq_iff_iff.1 hsame
  simp only [wordType, repeats_get_bind]
  refine .ite .rfl (fun _ => repeats_next_bind hne fun _ _ _ => .pure) fun _ =>
    .ite (or_congr .rfl (hbehind "abstract" "new" fun t next ht hnext => by simp [Token.joins, ht, hnext]))
    (fun hnew => ?constructor)
    fun _ => .ite .rfl (fun _ => ?query) fun _ =>
    .ite (hbehind "import" "(" fun t next ht hnext => by simp [Token.joins, ht, hnext]) (fun himport => ?importType)
    fun _ => ?reference
  case constructor =>
    refine .wanted (repeats_loop (fun _ d hd => ?_) ()) (fun _ c₁ _ h₁ => ?_) fun _ c₁ h₁ hnil =>
      (refuses_functionType (h.reaches h₁).last hnil).bind _
    · simp only [repeats_get_bind]
      by_cases hrest : d.rest = []
      · refine repeats_stay hrest fun a e he => ?_
        have hend : (d.peek 0).isEnd = true := by
          rw [peek_length_le (by simp [hrest])]
          exact (h.reaches hd).last
        rw [if_pos (by simp [hend])] at he
        cases he
        rfl
      · simp only [sees_put o (List.length_pos_iff.2 hrest), peek_put o (List.length_pos_iff.2 hrest), Token.isEnd_later]
        exact .ite .rfl (fun _ => .pure) fun _ => repeats_next_bind hrest fun _ _ _ => .pure
    · exact .bind (hfunction _ h₁ (beginsArrow_word hword hnew)) fun _ c₂ _ h₂ => repeats_textSince_bind (h₁.trans h₂) .pure
  case query =>
    refine repeats_next_bind hne fun t c₁ h₁ => ?_
    have h₁ : c.Reaches c₁ := ⟨[t], h₁⟩
    refine .bind (repeats_qualifiedName (h.reaches h₁)) fun _ c₂ _ h₂ => ?_
    have hseam := h.reaches (h₁.trans h₂)
    simp only [repeats_get_bind, angle_put hseam]
    exact .bind (repeats_when rfl fun _ => repeats_skipBalanced hseam.last) fun _ c₃ _ h₃ =>
      repeats_textSince_bind (h₁.trans (h₂.trans h₃)) .pure
  case importType =>
    -- no bracket comes next behind an import type
    have hangle : o.next.sees "<" = false := Bool.eq_false_iff.2 fun hsees => by
      obtain ⟨t, d, rfl⟩ := exists_first hne
      have := (h.parts.angle hsees).2 t List.mem_cons_self
      rw [Token.is, show t.isWord = true from hword, show t.raw = _ from himport.1] at this
      simp at this
    refine repeats_next_bind hne fun t c₁ h₁ => ?_
    have h₁ : c.Reaches c₁ := ⟨[t], h₁⟩
    refine .bind (repeats_skipBalanced (h.reaches h₁).last) fun _ c₂ _ h₂ =>
      .bind (repeats_loop (fun _ d hd => ?_) ()) fun _ c₃ _ h₃ => ?_
    · have hseam := h.reaches (h₁.trans (h₂.trans hd))
      refine .bind (repeats_accept_joint hseam (by decide)) fun taken e _ he => .ite .rfl (fun _ => ?_) fun _ => .pure
      exact .bind (repeats_expectName (hseam.reaches he).last) fun _ _ _ _ => .pure
    · have h₃ := h₁.trans (h₂.trans h₃)
      have hseam := h.reaches h₃
      have hsees : (o.put c₃).sees "<" = c₃.sees "<" := by
        by_cases hrest : c₃.rest = []
        · rw [not_sees_end hseam.last (by simp [hrest]), Cursor.sees, peek_put_of_le o (by simp [hrest]), hrest]
          exact hangle
        · exact sees_put o (List.length_pos_iff.2 hrest) _
      simp only [repeats_sees_bind, hsees]
      exact .bind (repeats_when rfl fun _ => repeats_skipBalanced hseam.last) fun _ c₄ _ h₄ =>
        repeats_textSince_bind (h₃.trans h₄) .pure
  case reference =>
    simp only [h.sees_joint (n := 1) hlength (show ("." : Text) ∈ joints by decide)]
    exact .ite .rfl (fun _ => repeats_next_bind hne fun _ _ _ => .pure) fun _ => repeats_reference hr hk h

theorem repeats_markType (hk : o.shift = k) (h : Seam source o true c) (hne : c.rest ≠ []) (hmark : c.peek.isMark = true)
    (hfunction : ∀ d, c.Reaches d → beginsArrow c = true → Repeats o near (functionType rules) (functionType rules') d) :
    Repeats o near (markType rules c.peek) (markType rules' (c.peek.later o.shift)) c := by
  have hlength := List.length_pos_iff.2 hne
  have hsees (w : Text) (hraw : c.peek.raw = w) : c.sees w = true := by
    rw [Cursor.sees, Token.is, hmark, hraw, Bool.or_true, Bool.true_and, beq_self_eq_true]
  simp only [markType, repeats_get_bind, beginsFunction_put h hne, Token.raw_later]
  refine .ite .rfl (fun hbegins => hfunction c (.refl c) (beginsArrow_mark hmark hbegins)) fun _ => .ite .rfl (fun _ => ?_) fun _ =>
    .ite .rfl (fun hraw => ?_) fun _ => .ite .rfl (fun _ => repeats_tuple hr hk h) fun _ => ?_
  · refine repeats_next_bind hne fun t c₁ h₁ => ?_
    have hseam := h.reaches ⟨[t], h₁⟩
    exact .wanted (hr.type hk hseam) (fun _ c₂ _ h₂ => .bind (repeats_expect (hseam.reaches h₂).last _) fun _ _ _ _ => .pure)
      fun _ c₂ h₂ hnil => (refuses_expect (hseam.reaches h₂).last hnil _).bind _
  · simp only [beginsMapped_put h (hsees _ hraw)]
    refine .ite .rfl (fun _ => ?_) fun _ => ?_
    · exact .bind (repeats_skipBalanced h.last) fun _ c₁ _ h₁ => repeats_textSince_bind h₁ .pure
    · exact .bind (repeats_members hr hk h) fun _ c₁ _ h₁ => repeats_textSince_bind h₁ .pure
  · by_cases hone : c.rest.length ≤ 1
    · -- a sign alone is no type
      have hnumber : (c.peek 1).isNumber = false := by
        have hl : c.last.lexeme = .endOfInput := beq_iff_eq.1 h.last
        simp [peek_length_le hone, Token.isNumber, hl]
      rw [if_neg (by simp [hnumber])]
      exact (refuses_reject _ _).repeats
    · have hone := Nat.lt_of_not_le hone
      rw [peek_put o hone, Token.isNumber_later]
      refine .ite .rfl (fun _ => ?_) fun _ => (refuses_reject _ _).repeats
      refine repeats_next_bind hne fun t c₁ h₁ => ?_
      subst h₁
      refine repeats_next_bind (List.length_pos_iff.1 (by simpa using hone)) fun u c₂ h₂ => ?_
      subst h₂
      exact repeats_textSince_bind ⟨[t, u], rfl⟩ .pure

theorem repeats_primary (hk : o.shift = k) (h : Seam source o true c)
    (hfunction : ∀ d, c.Reaches d → beginsArrow c = true → Repeats o near (functionType rules) (functionType rules') d) :
    Repeats o near (primary rules) (primary rules') c := by
  by_cases hne : c.rest = []
  · exact (refuses_primary h.last hne).repeats
  simp only [primary, repeats_peek_bind, peek_put o (List.length_pos_iff.2 hne)]
  have hlexeme : (c.peek.later o.shift).lexeme = c.peek.lexeme.later o.shift := rfl
  cases hl : c.peek.lexeme with
  | mark =>
    simp only [hlexeme, hl, Lexeme.later]
    exact repeats_markType hr hk h hne (beq_iff_eq.2 hl) hfunction
  | string value =>
    simp only [hlexeme, hl, Lexeme.later]
    exact repeats_next_bind hne fun _ _ _ => .pure
  | number =>
    simp only [hlexeme, hl, Lexeme.later]
    exact repeats_next_bind hne fun _ _ _ => .pure
  | template parts =>
    simp only [hlexeme, hl, Lexeme.later]
    obtain ⟨t, d, rfl⟩ := exists_first hne
    refine repeats_next_bind hne fun u e _ => .bind (repeats_lift fun spans hspans => ?_) fun _ _ _ _ => .pure
    refine hk ▸ templateSpans_later hr (fun a b hhole => ?_) hspans
    obtain ⟨hends, hab, _⟩ := (h.placed t List.mem_cons_self).hole parts hl a b hhole
    exact ⟨hends, hab⟩
  | endOfInput => exact (refuses_reject _ _).repeats
  | word =>
    simp only [hlexeme, hl, Lexeme.later]
    exact repeats_wordType hr hk h hne (beq_iff_eq.2 hl) hfunction

/-! ## Operators -/

/-- Brackets that come next do not matter where the parser has to stop before them. -/
theorem repeats_bracketRound (hk : o.shift = k) (h : Seam source o true c) (hstart : start.Reaches c) (type : TypeExpr)
    (hbracket : c.rest = [] → near = true ∨ (o.next.sees "[" = true → o.next.peek.lineBreak = true)) :
    Repeats o near (bracketRound rules start type) (bracketRound rules' (o.put start) type) c := by
  by_cases hstay : near = true ∧ c.rest = []
  · obtain ⟨rfl, hrest⟩ := hstay
    refine repeats_stay hrest fun a d hd => ?_
    obtain ⟨_, _, hget, hd⟩ := bind_ok.1 hd
    cases hget
    rw [not_sees_end h.last (by simp [hrest])] at hd
    cases hd
    rfl
  have hsame : ((o.put c).sees "[" && !(o.put c).peek.lineBreak) = (c.sees "[" && !c.peek.lineBreak) := by
    by_cases hrest : c.rest = []
    · exact bracket_put h ((hbracket hrest).resolve_left fun hnear => hstay ⟨hnear, hrest⟩)
    · have hlength := List.length_pos_iff.2 hrest
      rw [sees_put o hlength, peek_put o hlength, Token.lineBreak_later]
  simp only [bracketRound, repeats_get_bind, hsame]
  refine .ite .rfl (fun hopen => ?_) fun _ => .pure
  rw [Bool.and_eq_true] at hopen
  have hne : c.rest ≠ [] := fun hnil => by
    rw [not_sees_end h.last (by simp [hnil])] at hopen
    cases hopen.1
  refine repeats_next_bind hne fun t c₁ h₁ => ?_
  have h₁ : c.Reaches c₁ := ⟨[t], h₁⟩
  refine .bind (repeats_accept_joint (h.reaches h₁) (by decide)) fun taken c₂ _ h₂ => .ite .rfl (fun _ => ?_) fun _ => ?_
  · exact repeats_textSince_bind (hstart.trans (h₁.trans h₂)) .pure
  · have h₂ := h₁.trans h₂
    refine .wanted (hr.type hk (h.reaches h₂)) (fun _ c₃ _ h₃ => ?_) fun _ c₃ h₃ hnil =>
      (refuses_expect (h.reaches (h₂.trans h₃)).last hnil _).bind _
    exact .bind (repeats_expect (h.reaches (h₂.trans h₃)).last _) fun _ c₄ _ h₄ =>
      repeats_textSince_bind (hstart.trans (h₂.trans (h₃.trans h₄))) .pure

theorem repeats_postfixed (hk : o.shift = k) (h : Seam source o true c)
    (hbracket : near = true ∨ (o.next.sees "[" = true → o.next.peek.lineBreak = true))
    (hfunction : ∀ d, c.Reaches d → beginsArrow c = true → Repeats o near (functionType rules) (functionType rules') d) :
    Repeats o near (postfixed rules) (postfixed rules') c := by
  simp only [postfixed, repeats_get_bind]
  refine .bind (repeats_primary hr hk h hfunction) fun first c₁ _ h₁ => repeats_loop (fun type d hd => ?_) first
  exact repeats_bracketRound hr hk (h.reaches (h₁.trans hd)) (h₁.trans hd) type fun _ => hbracket

theorem repeats_inferBound (h : Seam source o true c)
    (hoperand : ∀ d, c.Reaches d → Repeats o near rules.operand rules'.operand d) :
    Repeats o near (inferBound rules) (inferBound rules') c := by
  simp only [inferBound, repeats_get_bind, h.sees_joint (Nat.zero_le _) (show ("extends" : Text) ∈ joints by decide)]
  cases hsees : c.sees "extends" with
  | false => exact .pure
  | true =>
    have hne : c.rest ≠ [] := fun hnil => by
      rw [not_sees_end h.last (by simp [hnil])] at hsees
      cases hsees
    obtain ⟨t, d, rfl⟩ := exists_first hne
    have hseam := h.reaches ⟨[t], rfl⟩
    by_cases hd : d.rest = []
    · -- a bound has to come behind the word
      rw [not_sees_end h.last (by simp [hd])]
      refine Refuses.repeats (.behind fun _ e he => ?_)
      rw [skip_before] at he
      cases he
      exact (hr.noOperand hseam.last hd).bind _
    · have hlength := List.length_pos_iff.2 hd
      rw [h.sees_joint (n := 2) (by simp; omega) (by decide)]
      refine .ite .rfl (fun _ => ?_) fun _ => .pure
      exact .bind (repeats_skip hne) fun _ c₁ _ h₁ => .bind (hoperand c₁ h₁) fun _ _ _ _ => .pure

theorem repeats_operand (hk : o.shift = k) (h : Seam source o true c)
    (hbracket : near = true ∨ (o.next.sees "[" = true → o.next.peek.lineBreak = true))
    (hfunction : ∀ d, c.Reaches d → beginsArrow c = true → Repeats o near (functionType rules) (functionType rules') d)
    (hoperand : ∀ d, c.Reaches d → Repeats o near rules.operand rules'.operand d) :
    Repeats o near (operand rules) (operand rules') c := by
  by_cases hne : c.rest = []
  · exact (refuses_operand h.last hne).repeats
  have hlength := List.length_pos_iff.2 hne
  simp only [operand, repeats_get_bind, peek_put o hlength, Token.isWord_later, Token.raw_later, operator_put h hne,
    infer_put h hne]
  refine .ite .rfl (fun _ => ?_) fun _ => .ite .rfl (fun hbound => ?_) fun _ =>
    repeats_postfixed hr hk h hbracket hfunction
  · refine repeats_next_bind hne fun t c₁ h₁ => ?_
    have h₁ : c.Reaches c₁ := ⟨[t], h₁⟩
    refine .bind (hoperand c₁ h₁) fun inner c₂ _ h₂ => .ite .rfl (fun _ => .pure) fun _ => ?_
    exact repeats_textSince_bind (h₁.trans h₂) .pure
  · have hone : 1 < c.rest.length := by
      refine Nat.lt_of_not_le fun hle => ?_
      rw [peek_length_le hle, Token.not_isWord_of_isEnd h.last, Bool.and_false] at hbound
      cases hbound
    refine .bind (repeats_skip hne) fun _ c₁ hskip h₁ => ?_
    obtain ⟨t, d, rfl⟩ := exists_first hne
    rw [skip_before] at hskip
    cases hskip
    refine .bind (repeats_skip (List.length_pos_iff.1 (by simpa using hone))) fun _ c₂ _ h₂ =>
      .bind (repeats_inferBound hr (h.reaches (h₁.trans h₂)) fun d hd => hoperand d (h₁.trans (h₂.trans hd)))
        fun _ c₃ _ h₃ => ?_
    exact repeats_textSince_bind (h₁.trans (h₂.trans h₃)) .pure

omit hr in
theorem repeats_chain {mark : Text} {item item' : Parser TypeExpr} {build : List TypeExpr → Text → TypeExpr}
    (hlast : c.last.isEnd = true) (hmark : near = true ∨ o.next.sees mark = false)
    (hitem : ∀ d, c.Reaches d → Repeats o near item item' d) :
    Repeats o near (chain mark item build) (chain mark item' build) c := by
  refine .bind (repeats_accept_near hlast hmark) fun _ c₁ _ h₁ => ?_
  have hlast₁ : c₁.last.isEnd = true := by
    obtain ⟨ts, rfl⟩ := h₁
    exact hlast
  simp only [repeats_get_bind]
  refine .bind (repeats_separated hlast₁ hmark fun d hd => hitem d (h₁.trans hd)) fun types c₂ _ h₂ => ?_
  split
  · exact .pure
  · exact repeats_textSince_bind h₂ .pure

/-- An operand is read alike before what goes on with nothing in it. -/
theorem repeats_operand_seam (hk : o.shift = k) (h : Seam source o near c) :
    Repeats o near (operand rules) (operand rules') c :=
  repeats_operand hr hk h.nearer h.parts.bracket (fun _ hd _ => repeats_functionType hr hk (h.reaches hd).nearer fun _ =>
  h.reaches hd)
    fun _ hd => hr.operand hk (h.reaches hd)

theorem repeats_intersection (hk : o.shift = k) (h : Seam source o near c) :
    Repeats o near (intersection rules) (intersection rules') c :=
  repeats_chain h.last (h.parts.chain.imp id And.right) fun _ hd => repeats_operand_seam hr hk (h.reaches hd)

theorem repeats_union (hk : o.shift = k) (h : Seam source o near c) : Repeats o near (union rules) (union rules') c :=
  repeats_chain h.last (h.parts.chain.imp id And.left) fun _ hd => repeats_intersection hr hk (h.reaches hd)

theorem repeats_type (hk : o.shift = k) (h : Seam source o near c) :
    Repeats o near (TypeGrammar.type rules) (TypeGrammar.type rules') c := by
  simp only [TypeGrammar.type, repeats_get_bind]
  refine .bind (repeats_union hr hk h) fun _ c₁ _ h₁ =>
    .bind (repeats_accept_joint (h.reaches h₁) (by decide)) fun taken c₂ _ h₂ => .ite .rfl (fun _ => ?_) fun _ => .pure
  have h₂ := h₁.trans h₂
  refine .bind (repeats_union hr hk (h.reaches h₂)) fun _ c₃ _ h₃ => ?_
  have h₃ := h₂.trans h₃
  refine .bind (repeats_expect (h.reaches h₃).last _) fun _ c₄ _ h₄ => ?_
  have h₄ := h₃.trans h₄
  refine .bind (hr.type hk (h.reaches h₄)) fun _ c₅ _ h₅ => ?_
  have h₅ := h₄.trans h₅
  refine .bind (repeats_expect (h.reaches h₅).last _) fun _ c₆ _ h₆ => ?_
  have h₆ := h₅.trans h₆
  exact .bind (hr.type hk (h.reaches h₆)) fun _ c₇ _ h₇ => repeats_textSince_bind (h₆.trans h₇) .pure

end

/-- A type that fills its window fills it in the longer source. -/
theorem only_later {o : Place} {c d : Cursor} {p q : Parser TypeExpr} {trailing : Rejection} {t : TypeExpr}
    (hquiet : o.Quiet) (hp : Repeats o false p q c) (h : only p trailing c = .ok (t, d)) :
    ∃ e, only q trailing (o.put c) = .ok (t, e) := by
  obtain ⟨found, e, hfound, hend⟩ := bind_ok.1 h
  obtain ⟨_, hsame⟩ := hp found e hfound
  refine ⟨o.put e, bind_ok.2 ⟨found, o.put e, hsame nofun, ?_⟩⟩
  have hput : ((o.put e).peek 0).isEnd = (e.peek 0).isEnd ∨ e.rest = [] := by
    by_cases hrest : e.rest = []
    · exact .inr hrest
    · exact .inl (by rw [peek_put o (List.length_pos_iff.2 hrest), Token.isEnd_later])
  simp only [bind_apply, peek_apply, ok_bind] at hend ⊢
  by_cases hpeek : (e.peek 0).isEnd = true
  · rw [if_pos hpeek] at hend
    cases hend
    rw [if_pos (hput.elim (fun heq => heq.trans hpeek) fun hrest => hquiet.isEnd (by simp [hrest]))]
    rfl
  · rw [if_neg hpeek] at hend
    cases hend

end TypeGrammar

/-- The tokens of a hole stand in a longer source before its end. -/
theorem Cursor.ofTokens_later (k : Nat) (ts : List Token) (last : Token) :
    ofTokens ((ts ++ [last]).map (·.later k)) = Place.put ⟨k, ⟨[], last.later k⟩⟩ (ofTokens (ts ++ [last])) := by
  simp [ofTokens, Place.put, Cursor.before]

/-- The rules of a source are repeated by those of a longer one. -/
theorem Rules.repeat_upTo (source before behind : Text) (hbehind : Parted behind) {n m : Nat} (hle : n ≤ m) :
    (Rules.upTo source n).Repeat source before.length (Rules.upTo (before ++ (source ++ behind)) m) := by
  induction n generalizing m with
  | zero =>
    refine ⟨fun _ _ => ?_, fun _ _ => ?_, nofun, fun _ _ => ?_, fun _ _ => ?_⟩
    · exact (refuses_fail _ _).repeats
    · exact (refuses_fail _ _).repeats
    · exact refuses_fail _ _
    · exact refuses_fail _ _
  | succ n ih =>
    obtain ⟨m, rfl⟩ : ∃ j, m = j + 1 := ⟨m - 1, by omega⟩
    have hr := ih (Nat.le_of_succ_le_succ hle)
    refine ⟨fun hk h => ?type, fun hk h => ?operand, fun {a b t} hends hab h => ?hole, fun hlast hrest => ?noType,
      fun hlast hrest => ?noOperand⟩
    case type => exact TypeGrammar.repeats_type hr hk h
    case operand => exact TypeGrammar.repeats_operand_seam hr hk h
    case hole =>
      obtain ⟨tokens, htokens, h⟩ := Except.bind_eq_ok.1 h
      obtain ⟨⟨type, d⟩, htype, h⟩ := Except.bind_eq_ok.1 h
      cases h
      have hmoved := tokenize_within hends before behind hbehind hab htokens
      obtain ⟨ts, last, rfl, hplaced, hlast, _⟩ := tokensFrom_placed hends.le rfl htokens
      let o : Place := ⟨before.length, ⟨[], last.later before.length⟩⟩
      have hend : o.next.last.isEnd = true := by rw [Token.isEnd_later, hlast]
      have hquiet : o.Quiet := ⟨rfl, hend⟩
      have hseam : Seam source o false (ofTokens (ts ++ [last])) := by
        refine ⟨?_, ?_, parts_of_isEnd _ hend, .inl hquiet⟩
        · simpa [ofTokens] using hplaced
        · simpa [ofTokens] using hlast
      obtain ⟨e, he⟩ := TypeGrammar.only_later hquiet (TypeGrammar.repeats_type hr rfl hseam) htype
      refine Except.bind_eq_ok.2 ⟨_, hmoved, Except.bind_eq_ok.2 ⟨(t, e), ?_, rfl⟩⟩
      rw [Cursor.ofTokens_later]
      exact he
    case noType => exact TypeGrammar.refuses_type hlast hrest
    case noOperand => exact TypeGrammar.refuses_operand hlast hrest

end WireSchema
