import WireSchema.Proofs.Grammar.Ground
import WireSchema.Proofs.Grammar.Enumerations
import WireSchema.Proofs.Grammar.Statements
/-!
# The grammar on any ground
-/

namespace WireSchema

open Source Source.Cursor Source.Parser

namespace DeclarationGrammar

/-- Passes over a modifier before the name of a type parameter. -/
def modifierRound (_ : Unit) : Parser (Turn Unit Unit) := do
  let c ← get
  if (c.peek 1).isWord && modifiers.contains c.peek.value then
    let _ ← next
    return .again ()
  else
    return .done ()

/-- A type parameter; the answer is its name. -/
def parameter (rules : Rules) : Parser Text := do
  loop modifierRound ()
  let name ← expectName
  if ← accept "extends" then
    let _ ← rules.type
  if ← accept "=" then
    let _ ← rules.type
  return name

theorem parameters_eq (rules : Rules) : parameters rules = (do
    if ← accept "<" then
      let names ← listed ">" (parameter rules)
      expect ">"
      return names
    else
      return []) := rfl

end DeclarationGrammar

namespace Source.Ground

open TypeGrammar

/-- The rules end at all cursors that fit. -/
structure Admits (g : Ground) (limit : Nat) (rules : Rules) : Prop where
  type : ∀ {start c}, g.On limit start c → g.Ends rules.type c fun _ => g.Past limit start
  operand : ∀ {start c}, g.On limit start c → g.Ends rules.operand c fun _ => g.Past limit start
  hole : ∀ {a b}, g.Hole limit a b → ∀ {fault}, rules.hole a b = .error fault → g.Blames fault

section
variable {g : Ground} {limit : Nat} {rules : Rules} {start c : Cursor}

theorem ends_qualifiedName (h : g.On limit start c) :
    g.Ends qualifiedName c fun _ => g.Past limit start := by
  refine .bind (ends_expectName h) fun first c₁ h₁ => .bind (ends_loop (I := fun _ => g.Past limit start)
    (R := fun _ => g.Past limit start) h₁ fun parts d hd => ?_) fun _ _ h₂ => .pure h₂
  simp only [qualifiedRound, ends_sees_bind, ends_peek_bind]
  refine .ite (fun hdot => ?_) fun _ => .pure hd
  rw [Bool.and_eq_true] at hdot
  refine .bind (ends_take hd.on.here (Token.not_isEnd_of_is hdot.1)) fun _ e he =>
    .bind (ends_next he.on.here) fun _ e' he' => .pure ?_
  have hround := he.trans he'.2.1
  exact ⟨hround.passes, hd.trans hround.on⟩

variable (hr : g.Admits limit rules)
include hr

theorem ends_returnType (h : g.On limit start c) :
    g.Ends (returnType rules) c fun _ => g.Past limit start := by
  simp only [returnType, ends_get_bind, ends_sees_bind, ends_peek_bind]
  refine .bind (ends_when h fun _ => ends_skip h) fun _ c₁ h₁ => .bind (hr.type h₁) fun type c₂ h₂ =>
    .bind (ends_accept "is" h₂.on.here) fun taken c₃ h₃ => .ite (fun _ => ?_) fun _ => .pure (h₂.trans h₃.on)
  refine .bind (hr.type h₃.on) fun _ c₄ h₄ => ?_
  simp only [ends_textSince_bind]
  exact .pure (h₂.trans h₄.on)

theorem ends_functionType (h : g.On (limit + 1) start c) :
    g.Ends (functionType rules) c fun _ => g.Past (limit + 1) start := by
  simp only [functionType, ends_get_bind, ends_sees_bind]
  refine .bind (ends_when h fun _ => (ends_skipBalanced h).mono fun _ _ => Past.on) fun _ c₁ h₁ => ?_
  simp only [ends_sees_bind]
  refine .bind (ends_when h₁ fun _ => ends_reject h₁) fun _ c₂ h₂ => .bind (ends_skipBalanced h₂) fun _ c₃ h₃ =>
    .bind (ends_expect "=>" h₃.on.here) fun _ c₄ h₄ => .bind (ends_returnType hr h₄.inside) fun _ c₅ h₅ => ?_
  simp only [ends_textSince_bind]
  exact .pure (h₃.trans (h₄.on.trans h₅.on))

/-! ## Members of object shapes -/

/-- A piece of a signature passes a token where the signature does not end. -/
theorem ends_skipPiece (h : g.On limit start c) (hend : c.peek.isEnd = false) :
    g.Ends (skipPiece rules) c fun _ => g.Past limit start := by
  simp only [skipPiece, ends_peek_bind]
  refine .ite (fun _ => ends_skipBalanced h) fun _ => .bind (ends_acceptEither ":" "=>" h) fun taken d hd =>
    .ite (fun ht => ?_) fun ht => ?_
  · exact .bind (hr.type hd.on) fun _ _ he => .pure he
  · rw [hd.eq ht]
    exact ends_skip_past h hend

theorem ends_skipSignature (h : g.On limit start c) :
    g.Ends (skipSignature rules) c fun _ => g.On limit start := by
  refine ends_loop (I := fun _ => g.On limit start) h fun _ d hd => ?_
  simp only [signatureRound, ends_get_bind]
  refine .ite (fun _ => .pure hd) fun hstop => ?_
  simp only [Bool.or_eq_true, not_or, Bool.not_eq_true] at hstop
  exact .bind (ends_skipPiece hr hd.here hstop.2) fun _ e he => .pure ⟨he.passes, hd.trans he.on⟩

/-- A signature passes a token where it begins with none that ends it. -/
theorem ends_skipSignature_past (h : g.On limit start c) {w : Text} (hsees : c.sees w = true)
    (hw : w ∉ [(";" : Text), ",", "\x7d"]) :
    g.Ends (skipSignature rules) c fun _ => g.Past limit start := by
  have hstop : (c.sees ";" || c.sees "," || c.sees "\x7d" || c.peek.isEnd) = false := by
    have hraw : c.peek.raw = w := by
      rw [Cursor.sees, Token.is, Bool.and_eq_true] at hsees
      exact beq_iff_eq.1 hsees.2
    have hnot (v : Text) (hv : v ∈ [(";" : Text), ",", "\x7d"]) : c.sees v = false := by
      have hne : w ≠ v := fun heq => hw (by rwa [heq])
      rw [Cursor.sees, Token.is, hraw, beq_eq_false_iff_ne.2 hne, Bool.and_false]
    simp only [hnot ";" (by decide), hnot "," (by decide), hnot "\x7d" (by decide), Token.not_isEnd_of_is hsees, Bool.or_self]
  refine ends_loop (I := fun _ d => d = c ∨ g.Past limit start d) (.inl rfl) fun _ d hd => ?_
  simp only [signatureRound, ends_get_bind]
  refine .ite (fun hdone => .pure ?_) fun hgoes => ?_
  · rcases hd with rfl | hd
    · rw [hstop] at hdone
      cases hdone
    · exact hd
  · simp only [Bool.or_eq_true, not_or, Bool.not_eq_true] at hgoes
    have hon : g.On limit start d := hd.elim (fun heq => heq ▸ h) Past.on
    exact .bind (ends_skipPiece hr hon.here hgoes.2) fun _ e he => .pure ⟨he.passes, .inr (hon.past he)⟩

theorem ends_resultText (h : g.On limit start c) :
    g.Ends (resultText rules) c fun _ => g.On limit start := by
  refine .bind (ends_accept ":" h) fun taken d hd => .ite (fun _ => ?_) fun _ => .pure hd.on
  exact .bind (ends_returnType hr hd.on) fun _ _ he => .pure he.on

theorem ends_methodType (h : g.On limit start c) :
    g.Ends (methodType rules) c fun _ => g.On limit start := by
  simp only [methodType, ends_get_bind, ends_sees_bind]
  refine .bind (ends_when h fun _ => (ends_skipBalanced h).mono fun _ _ => Past.on) fun _ c₁ h₁ =>
    .bind (ends_skipBalanced h₁) fun _ c₂ h₂ => ?_
  simp only [ends_textSince_bind]
  exact .bind (ends_resultText hr h₂.on) fun _ _ h₃ => .pure h₃

theorem ends_memberType (h : g.On limit start c) :
    g.Ends (memberType rules) c fun _ => g.On limit start := by
  simp only [memberType, ends_get_bind]
  refine .ite (fun _ => ends_methodType hr h) fun _ => .bind (ends_accept ":" h) fun taken d hd =>
    .ite (fun _ => ?_) fun _ => .pure hd.on
  exact (hr.type hd.on).mono fun _ _ => Past.on

omit hr in
theorem ends_readonly (h : g.On limit start c) :
    g.Ends (loop readonlyRound ()) c fun _ => g.On limit start := by
  refine ends_loop (I := fun _ => g.On limit start) h fun _ d hd => ?_
  simp only [readonlyRound, ends_get_bind]
  refine .ite (fun hmodified => ?_) fun _ => .pure hd
  rw [beginsModified, Bool.and_eq_true] at hmodified
  exact .bind (ends_take hd.here (Token.not_isEnd_of_is hmodified.1)) fun _ e he => .pure ⟨he.passes, hd.trans he.on⟩

theorem ends_member (h : g.On limit start c) :
    g.Ends (member rules) c fun _ => g.Past limit start := by
  have hskipped {d : Cursor} {w : Text} (hd : g.On limit start d) (hsees : d.sees w = true)
      (hw : w ∉ [(";" : Text), ",", "\x7d"]) : g.Ends (do
        skipSignature rules
        return none : Parser (Option (Property TypeExpr))) d fun _ => g.Past limit start :=
    .bind (ends_skipSignature_past hr hd hsees hw) fun _ _ he => .pure he
  simp only [member, ends_peek_bind]
  refine .bind (ends_readonly h) fun _ d hd => ?_
  simp only [ends_get_bind]
  refine .ite (fun hsign => ?signed) fun _ => .ite (fun hnew => ?new) fun _ => .ite (fun hfield => ?accessor) fun _ => ?named
  case signed =>
    simp only [Bool.or_eq_true] at hsign
    rcases hsign with (hsees | hsees) | hsees <;> exact hskipped hd hsees (by decide)
  case new =>
    rw [Bool.and_eq_true] at hnew
    refine .bind (ends_take hd (Token.not_isEnd_of_is hnew.1)) fun _ e he =>
      .bind (ends_skipSignature hr he.on.here) fun _ _ hf => .pure (he.trans hf)
  case accessor =>
    simp only [Bool.and_eq_true, Bool.or_eq_true] at hfield
    rcases hfield.1 with hsees | hsees <;> exact hskipped hd hsees (by decide)
  case named =>
    refine .bind (ends_next hd) fun name e he => ?_
    obtain ⟨rfl, hon, hpast⟩ := he
    have hnamed : g.Ends (when (!(d.peek.isWord || d.peek.isString || d.peek.isNumber))
        (rejectAt d.peek (.unexpectedInObject d.peek.raw))) e fun _ => g.Past limit start := by
      refine .ite (fun _ => ends_rejectAt hd) fun hname => .pure (hpast ?_)
      rw [Bool.not_eq_true', Bool.not_eq_false, Bool.or_eq_true, Bool.or_eq_true, or_assoc] at hname
      exact hname.elim Token.not_isEnd_of_isWord fun h => h.elim Token.not_isEnd_of_isString Token.not_isEnd_of_isNumber
    refine .bind hnamed fun _ e₁ h₁ => .bind (ends_accept "?" h₁.on.here) fun _ e₂ h₂ =>
      .bind (ends_memberType hr h₂.on) fun _ e₃ h₃ => .pure (h₁.trans h₃)

omit hr in
theorem ends_separators (h : g.On limit start c) :
    g.Ends (loop separatorRound ()) c fun _ => g.On limit start := by
  refine ends_loop (I := fun _ => g.On limit start) h fun _ d hd => ?_
  refine .bind (ends_acceptEither ";" "," hd.here) fun taken e he => .ite (fun ht => ?_) fun _ => ?_
  · exact .pure ⟨(he.past ht).passes, hd.trans he.on⟩
  · exact .pure (hd.trans he.on)

/-- A round that goes on is behind a member. -/
theorem ends_membersRound {found : List (Property TypeExpr)} (h : g.On limit start c) :
    g.Ends (membersRound rules found) c (Turns (fun _ => g.On limit start) (fun _ => g.On limit start) c) := by
  simp only [membersRound, ends_get_bind]
  refine .ite (fun _ => .pure h) fun _ => .bind (ends_when h.here fun _ => ends_reject h) fun _ c₁ h₁ =>
    .bind (ends_member hr h₁.here) fun _ c₂ h₂ => .bind (ends_separators h₂.on.here) fun _ c₃ h₃ => ?_
  have hround := h₁.past (h₂.trans h₃)
  exact .pure ⟨hround.passes, h.trans hround.on⟩

theorem ends_members (h : g.On (limit + 1) start c) :
    g.Ends (members rules) c fun _ => g.Past (limit + 1) start := by
  refine .bind (ends_expect _ h) fun _ c₁ h₁ =>
    .bind (ends_loop (I := fun _ => g.On limit c₁) (R := fun _ => g.On limit c₁) h₁.inside
      fun _ _ hd => ends_membersRound hr hd) fun _ c₂ h₂ =>
    .bind (ends_expect _ h₂) fun _ c₃ h₃ => .pure (h₁.trans h₃.on)

/-! ## Primary types -/

omit hr in
theorem ends_elementName (h : g.On limit start c) :
    g.Ends elementName c fun _ => g.On limit start := by
  simp only [elementName, ends_get_bind]
  refine .ite (fun _ => ?_) fun _ => .pure h
  exact .bind (ends_next h) fun _ c₁ h₁ => .bind (ends_accept "?" h₁.2.1) fun _ c₂ h₂ =>
    .bind (ends_expect ":" h₂.on) fun _ c₃ h₃ => .pure h₃.on

/-- A round that goes on is behind an element. -/
theorem ends_tupleRound {state : List TypeExpr × Bool} (h : g.On limit start c) :
    g.Ends (tupleRound rules state) c (Turns (fun _ => g.On limit start) (fun _ => g.On limit start) c) := by
  obtain ⟨elements, variadic⟩ := state
  simp only [tupleRound, ends_sees_bind]
  exact .ite (fun _ => .pure h) fun _ => .bind (ends_accept "..." h.here) fun _ c₁ h₁ =>
    .bind (ends_elementName h₁.on) fun _ c₂ h₂ => .bind (hr.type h₂) fun _ c₃ h₃ =>
    .bind (ends_accept "?" h₃.on) fun _ c₄ h₄ => .bind (ends_accept "," h₄.on) fun taken c₅ h₅ =>
    .ite (fun ht => .pure ⟨(h₅.past ht).passes, h.trans h₅.on⟩) fun _ => .pure (h.trans h₅.on)

theorem ends_tuple (h : g.On (limit + 1) start c) :
    g.Ends (tuple rules) c fun _ => g.Past (limit + 1) start := by
  simp only [tuple, ends_get_bind]
  refine .bind (ends_expect "[" h) fun _ c₁ h₁ =>
    .bind (ends_loop (I := fun _ => g.On limit c₁) (R := fun _ => g.On limit c₁) h₁.inside
      fun _ _ hd => ends_tupleRound hr hd) fun found c₂ h₂ => .bind (ends_expect "]" h₂) fun _ c₃ h₃ => ?_
  simp only [ends_textSince_bind]
  exact .pure (h₁.trans h₃.on)

theorem ends_typeArguments (h : g.On limit start c) :
    g.Ends (typeArguments rules) c fun _ => g.On limit start := by
  simp only [typeArguments, ends_get_bind]
  refine .ite (fun _ => ?_) fun _ => .pure h
  exact .bind (ends_skip h) fun _ c₁ h₁ => .bind (ends_listed h₁ fun d hd => hr.type hd) fun _ c₂ h₂ =>
    .bind (ends_expect ">" h₂) fun _ c₃ h₃ => .pure h₃.on

theorem ends_reference (h : g.On (limit + 1) start c) :
    g.Ends (reference rules) c fun _ => g.Past (limit + 1) start := by
  simp only [reference, ends_get_bind]
  refine .bind (ends_qualifiedName h) fun _ c₁ h₁ => .bind (ends_typeArguments hr h₁.inside) fun _ c₂ h₂ => ?_
  simp only [ends_textSince_bind]
  exact .pure (h₁.trans h₂)

/-- The holes of a template are read where the template was. -/
theorem templateSpans_blames {parts : List TemplatePart} (hparts : ∀ {a b}, .hole a b ∈ parts → g.Hole limit a b)
    {fault : Fault}
    (h : templateSpans rules parts = .error fault) : g.Blames fault := by
  induction parts with
  | nil => cases h
  | cons part rest ih =>
    have hrest := ih fun hmem => hparts (List.mem_cons_of_mem _ hmem)
    cases part with
    | chunk text =>
      cases hspans : templateSpans rules rest with
      | ok spans => simp [templateSpans, hspans, bind, Except.bind, pure, Except.pure] at h
      | error found =>
        simp only [templateSpans, hspans, bind, Except.bind] at h
        cases h
        exact hrest hspans
    | hole a b =>
      cases hhole : rules.hole a b with
      | error found =>
        simp only [templateSpans, hhole, bind, Except.bind] at h
        cases h
        exact hr.hole (hparts List.mem_cons_self) hhole
      | ok type =>
      cases hspans : templateSpans rules rest with
      | ok spans => simp [templateSpans, hhole, hspans, bind, Except.bind, pure, Except.pure] at h
      | error found =>
        simp only [templateSpans, hhole, hspans, bind, Except.bind] at h
        cases h
        exact hrest hspans

theorem ends_wordType {word : Text} (h : g.On (limit + 1) start c) (hword : c.peek.isWord = true) :
    g.Ends (wordType rules word) c fun _ => g.Past (limit + 1) start := by
  have htake : g.Ends next c fun _ => g.Past (limit + 1) start := ends_take h (Token.not_isEnd_of_isWord hword)
  simp only [wordType, ends_get_bind]
  refine .ite (fun _ => ?boolean) fun _ => .ite (fun _ => ?constructed) fun _ => .ite (fun _ => ?query) fun _ => .ite
    (fun _ => ?imported)
    fun _ => .ite (fun _ => ?keyword) fun _ => ends_reference hr h
  case boolean => exact .bind htake fun _ _ hd => .pure hd
  case constructed =>
    refine .bind (ends_loop (I := fun _ => g.On (limit + 1) start) (R := fun _ => g.On (limit + 1) start) h
      fun _ d hd => ?_) fun _ c₁ h₁ => .bind (ends_functionType hr h₁) fun _ c₂ h₂ => ?_
    · simp only [ends_get_bind]
      refine .ite (fun _ => .pure hd) fun hgoes => ?_
      simp only [Bool.or_eq_true, not_or, Bool.not_eq_true] at hgoes
      exact .bind (ends_take hd.here hgoes.1.1) fun _ e he => .pure ⟨he.passes, hd.trans he.on⟩
    · simp only [ends_textSince_bind]
      exact .pure h₂
  case query =>
    refine .bind htake fun _ c₁ h₁ => .bind (ends_qualifiedName h₁.on.here) fun _ c₂ h₂ => ?_
    simp only [ends_get_bind]
    refine .bind (ends_when h₂.on fun _ => (ends_skipBalanced h₂.on).mono fun _ _ => Past.on) fun _ c₃ h₃ => ?_
    simp only [ends_textSince_bind]
    exact .pure (h₁.trans h₃)
  case imported =>
    refine .bind htake fun _ c₁ h₁ => .bind (ends_skipBalanced h₁.on.here) fun _ c₂ h₂ =>
      .bind (ends_loop (I := fun _ => g.On (limit + 1) c₁) (R := fun _ => g.On (limit + 1) c₁) h₂.on
        fun _ d hd => ?_) fun _ c₃ h₃ => ?_
    · refine .bind (ends_accept "." hd.here) fun taken e he => .ite (fun ht => ?_) fun _ => .pure (hd.trans he.on)
      refine .bind (ends_expectName he.on) fun _ e' he' => .pure ⟨?_, hd.trans he'.on⟩
      exact he'.passes
    · simp only [ends_sees_bind]
      refine .bind (ends_when h₃ fun _ => (ends_skipBalanced h₃).mono fun _ _ => Past.on) fun _ c₄ h₄ => ?_
      simp only [ends_textSince_bind]
      exact .pure (h₁.trans h₄)
  case keyword => exact .bind htake fun _ _ hd => .pure hd

theorem ends_markType (h : g.On (limit + 1) start c) (hmark : c.peek.isMark = true) :
    g.Ends (markType rules c.peek) c fun _ => g.Past (limit + 1) start := by
  have hend : c.peek.isEnd = false := Token.not_isEnd_of_isMark hmark
  simp only [markType, ends_get_bind]
  refine .ite (fun _ => ends_functionType hr h) fun _ => .ite (fun _ => ?_) fun _ => .ite (fun _ => ?_) fun _ =>
    .ite (fun _ => ends_tuple hr h) fun _ => .ite (fun _ => ?_) fun _ => ends_reject h
  · exact .bind (ends_take h hend) fun _ c₁ h₁ => .bind (hr.type h₁.inside) fun _ c₂ h₂ =>
      .bind (ends_expect ")" h₂.on) fun _ c₃ h₃ => .pure (h₁.trans h₃.on)
  · refine .ite (fun _ => .bind (ends_skipBalanced h) fun _ _ hd => ?_) fun _ =>
      .bind (ends_members hr h) fun _ _ hd => ?_
    · simp only [ends_textSince_bind]
      exact .pure hd
    · simp only [ends_textSince_bind]
      exact .pure hd
  · refine .bind (ends_take h hend) fun _ c₁ h₁ => .bind (ends_next h₁.on.here) fun _ c₂ h₂ => ?_
    simp only [ends_textSince_bind]
    exact .pure (h₁.trans h₂.2.1)

theorem ends_primary (h : g.On (limit + 1) start c) :
    g.Ends (primary rules) c fun _ => g.Past (limit + 1) start := by
  have htake (hl : c.peek.lexeme ≠ .endOfInput) : g.Ends next c fun _ => g.Past (limit + 1) start :=
    ends_take h (beq_eq_false_iff_ne.2 hl)
  simp only [primary, ends_peek_bind]
  cases hl : c.peek.lexeme with
  | mark => exact ends_markType hr h (beq_iff_eq.2 hl)
  | string value => exact .bind (htake (by simp [hl])) fun _ _ hd => .pure hd
  | number => exact .bind (htake (by simp [hl])) fun _ _ hd => .pure hd
  | template parts =>
    exact .bind (htake (by simp [hl])) fun _ d hd => .bind
      (ends_lift (fun fault hfault => templateSpans_blames hr (g.hole h.now hl) hfault) fun _ => hd) fun _ _ he => .pure he
  | endOfInput => exact ends_reject h
  | word => exact ends_wordType hr h (beq_iff_eq.2 hl)

/-! ## Operators -/

theorem ends_postfixed (h : g.On (limit + 1) start c) :
    g.Ends (postfixed rules) c fun _ => g.Past (limit + 1) start := by
  simp only [postfixed, ends_get_bind]
  refine .bind (ends_primary hr h) fun first c₁ h₁ =>
    (ends_loop (I := fun _ => g.On limit c₁) (R := fun _ => g.On limit c₁) h₁.inside
      fun type d hd => ?_).mono fun _ _ hd => h₁.trans hd
  simp only [bracketRound, ends_get_bind]
  refine .ite (fun hopen => ?_) fun _ => .pure hd
  rw [Bool.and_eq_true] at hopen
  refine .bind (ends_take hd.here (Token.not_isEnd_of_is hopen.1)) fun _ d₁ hd₁ =>
    .bind (ends_accept "]" hd₁.on.here) fun taken d₂ hd₂ => .ite (fun _ => ?_) fun _ => ?_
  · have hround := hd₁.trans hd₂.on
    simp only [ends_textSince_bind]
    exact .pure ⟨hround.passes, hd.trans hround.on⟩
  · refine .bind (hr.type hd₂.on) fun _ d₃ hd₃ => .bind (ends_expect "]" hd₃.on) fun _ d₄ hd₄ => ?_
    have hround := hd₁.trans hd₄.on
    simp only [ends_textSince_bind]
    exact .pure ⟨hround.passes, hd.trans hround.on⟩

theorem ends_inferBound (h : g.On limit start c) :
    g.Ends (inferBound rules) c fun _ => g.On limit start := by
  simp only [inferBound, ends_get_bind]
  refine .ite (fun _ => ?_) fun _ => .pure h
  exact .bind (ends_skip h) fun _ _ hd => .bind (hr.operand hd) fun _ _ he => .pure he.on

theorem ends_operand (h : g.On (limit + 1) start c) :
    g.Ends (operand rules) c fun _ => g.Past (limit + 1) start := by
  simp only [operand, ends_get_bind]
  refine .ite (fun hword => ?_) fun _ => .ite (fun hinfer => ?_) fun _ => ends_postfixed hr h
  · simp only [Bool.and_eq_true] at hword
    refine .bind (ends_take h (Token.not_isEnd_of_isWord hword.1.1)) fun _ c₁ h₁ =>
      .bind (hr.operand h₁.inside) fun _ c₂ h₂ => .ite (fun _ => .pure (h₁.trans h₂.on)) fun _ => ?_
    simp only [ends_textSince_bind]
    exact .pure (h₁.trans h₂.on)
  · rw [Bool.and_eq_true] at hinfer
    refine .bind (ends_skip_past h (Token.not_isEnd_of_is hinfer.1)) fun _ c₁ h₁ => .bind (ends_skip h₁.inside) fun _ c₂ h₂ =>
      .bind (ends_inferBound hr h₂) fun _ c₃ h₃ => ?_
    simp only [ends_textSince_bind]
    exact .pure (h₁.trans h₃)

omit hr in
theorem ends_chain {mark : Text} {item : Parser TypeExpr} {build : List TypeExpr → Text → TypeExpr}
    (h : g.On limit start c)
    (hitem : ∀ c, g.On limit c c → g.Ends item c fun _ => g.Past limit c) :
    g.Ends (chain mark item build) c fun _ => g.Past limit start := by
  refine .bind (ends_accept mark h) fun _ c₁ h₁ => ?_
  simp only [ends_get_bind]
  refine .bind (ends_separated h₁.on hitem) fun types c₂ h₂ => ?_
  split
  · exact .pure h₂
  · simp only [ends_textSince_bind]
    exact .pure h₂

theorem ends_union (h : g.On (limit + 1) start c) :
    g.Ends (union rules) c fun _ => g.Past (limit + 1) start :=
  ends_chain h fun _ hc => ends_chain hc fun _ hd => ends_operand hr hd

theorem ends_type (h : g.On (limit + 1) start c) :
    g.Ends (TypeGrammar.type rules) c fun _ => g.Past (limit + 1) start := by
  simp only [TypeGrammar.type, ends_get_bind]
  refine .bind (ends_union hr h) fun _ c₁ h₁ => .bind (ends_accept "extends" h₁.on.here) fun taken c₂ h₂ =>
    .ite (fun ht => ?_) fun _ => .pure (h₁.trans h₂.on)
  refine .bind (ends_union hr h₂.on) fun _ c₃ h₃ => .bind (ends_expect "?" h₃.on) fun _ c₄ h₄ =>
    .bind (hr.type h₄.inside) fun _ c₅ h₅ => .bind (ends_expect ":" h₅.on) fun _ c₆ h₆ =>
    .bind (hr.type h₆.on) fun _ c₇ h₇ => ?_
  simp only [ends_textSince_bind]
  exact .pure (h₁.trans (h₄.on.trans h₇.on))

end

theorem ends_only {g : Ground} {limit : Nat} {c : Cursor} {p : Parser TypeExpr} {trailing : Rejection}
    (hp : g.Ends p c fun _ => g.Past limit c) : g.Ends (only p trailing) c fun _ _ => True := by
  refine .bind hp fun _ d hd => ?_
  simp only [ends_peek_bind]
  exact .ite (fun _ => .pure trivial) fun _ => ends_reject hd.on

/-! ## The rules of a source -/

/-- What the windows of a source have to be like on a ground. -/
structure Covers (g : Ground) (source : Text) : Prop where
  empty : ∀ {c}, g.Fits 0 c → g.Blames .depth
  emptyHole : ∀ {a b}, g.Hole 0 a b → g.Blames .depth
  tokens : ∀ {limit a b tokens}, g.Hole limit a b → tokenize source a b = .ok tokens → g.Fits limit (ofTokens tokens)
  fault : ∀ {limit a b fault}, g.Hole limit a b → tokenize source a b = .error fault → g.Blames fault

theorem Covers.admits {g : Ground} {source : Text} (h : g.Covers source) (limit : Nat) :
    g.Admits limit (Rules.upTo source limit) := by
  induction limit with
  | zero => exact ⟨fun hc => h.empty hc.now, fun hc => h.empty hc.now, fun hhole _ hfault => by
      cases hfault
      exact h.emptyHole hhole⟩
  | succ limit ih =>
    refine ⟨ends_type ih, ends_operand ih, fun {a b} hhole fault hfault => ?_⟩
    cases htokens : tokenize source a b with
    | error found =>
      simp only [Rules.upTo, htokens, bind, Except.bind] at hfault
      cases hfault
      exact h.fault hhole htokens
    | ok tokens =>
      have hon : g.On (limit + 1) (ofTokens tokens) (ofTokens tokens) := ⟨h.tokens hhole htokens, .refl _⟩
      cases honly : only (TypeGrammar.type (Rules.upTo source limit)) .trailingInHole (ofTokens tokens) with
      | ok x => simp [Rules.upTo, htokens, honly, bind, Except.bind, pure, Except.pure] at hfault
      | error found =>
        simp only [Rules.upTo, htokens, honly, bind, Except.bind] at hfault
        cases hfault
        exact (ends_only (ends_type ih hon)).error honly

/-! ## Declarations -/

section
open DeclarationGrammar hiding member
variable {g : Ground} {limit : Nat} {rules : Rules} {start c : Cursor} (hr : g.Admits limit rules)
include hr

omit hr in
theorem ends_modifierRound (h : g.On limit start c) :
    g.Ends (modifierRound ()) c (Turns (fun _ => g.On limit start) (fun _ => g.On limit start) c) := by
  simp only [modifierRound, ends_get_bind]
  refine .ite (fun hmodifier => ?_) fun _ => .pure h
  rw [Bool.and_eq_true] at hmodifier
  exact .bind (ends_take_of_ne h.here (h.rest_ne_nil hmodifier.1)) fun _ d hd => .pure ⟨hd.passes, h.trans hd.on⟩

theorem ends_parameter (h : g.On limit start c) : g.Ends (parameter rules) c fun _ => g.Past limit start := by
  refine .bind (ends_loop (I := fun _ => g.On limit start) (R := fun _ => g.On limit start) h
    fun _ _ hd => ends_modifierRound hd) fun _ c₁ h₁ => .bind (ends_expectName h₁) fun name c₂ h₂ => ?_
  -- a default comes behind the bound, if there is one
  have hdefault : ∀ d, g.Past limit start d → g.Ends (do
      if ← accept "=" then
        let _ ← rules.type
      return name : Parser Text) d fun _ => g.Past limit start := by
    intro d hd
    refine .bind (ends_accept "=" hd.on.here) fun taken e he => .ite (fun _ => ?_) fun _ => .pure (hd.trans he.on)
    exact .bind (hr.type he.on) fun _ e' he' => .pure (hd.trans he'.on)
  refine .bind (ends_accept "extends" h₂.on.here) fun taken c₃ h₃ => .ite (fun _ => ?_) fun _ => ?_
  · exact .bind (hr.type h₃.on) fun _ c₄ h₄ => hdefault c₄ (h₂.trans h₄.on)
  · exact hdefault c₃ (h₂.trans h₃.on)

theorem ends_parameters (h : g.On limit start c) : g.Ends (parameters rules) c fun _ => g.On limit start := by
  rw [parameters_eq]
  refine .bind (ends_accept "<" h) fun taken c₁ h₁ => .ite (fun _ => ?_) fun _ => .pure h₁.on
  exact .bind (ends_listed h₁.on fun _ hd => ends_parameter hr hd) fun _ c₂ h₂ =>
    .bind (ends_expect ">" h₂) fun _ c₃ h₃ => .pure h₃.on

theorem ends_base (h : g.On limit start c) : g.Ends (base rules) c fun _ => g.Past limit start := by
  refine .bind (ends_primary hr h.here.grow) fun type d hd => ?_
  split
  · exact .pure (h.past hd)
  · exact ends_reject hd.on

theorem ends_bases (h : g.On limit start c) : g.Ends (bases rules) c fun _ => g.On limit start := by
  refine .bind (ends_accept "extends" h) fun taken d hd => .ite (fun _ => ?_) fun _ => .pure hd.on
  exact (ends_separated hd.on fun _ he => ends_base hr he).mono fun _ _ => Past.on

theorem ends_interface {docs : DocComment} (h : g.On limit start c) :
    g.Ends (interface rules docs) c fun _ => g.Past limit start := by
  refine .bind (ends_expect "interface" h) fun _ c₁ h₁ => .bind (ends_expectName h₁.on.here) fun _ c₂ h₂ =>
    .bind (ends_parameters hr h₂.on) fun _ c₃ h₃ => .bind (ends_bases hr h₃) fun _ c₄ h₄ =>
    .bind (ends_members hr h₄.here.grow) fun _ c₅ h₅ => .pure ?_
  exact h₁.trans (h₄.past h₅).on

theorem ends_typeAlias {docs : DocComment} (h : g.On limit start c) :
    g.Ends (typeAlias rules docs) c fun _ => g.Past limit start := by
  refine .bind (ends_expect "type" h) fun _ c₁ h₁ => .bind (ends_expectName h₁.on.here) fun _ c₂ h₂ =>
    .bind (ends_parameters hr h₂.on) fun _ c₃ h₃ => .bind (ends_expect "=" h₃) fun _ c₄ h₄ =>
    .bind (hr.type h₄.on) fun _ c₅ h₅ => .bind (ends_accept ";" h₅.on) fun _ c₆ h₆ => .pure ?_
  exact h₁.trans h₆.on

/-! ## Enumerations -/

omit hr in
theorem ends_skipValue (h : g.On limit start c) : g.Ends skipValue c fun _ => g.On limit start := by
  refine ends_loop (I := fun _ => g.On limit start) h fun depth d hd => ?_
  simp only [ends_peek_bind]
  refine .ite (fun _ => .pure hd) fun hend => ?_
  have hnext {depth : Nat} : g.Ends (do
      let _ ← next
      return .again depth : Parser (Turn Nat Unit)) d
      (Turns (fun _ => g.On limit start) (fun _ => g.On limit start) d) :=
    .bind (ends_take hd.here (Bool.eq_false_iff.2 hend)) fun _ e he => .pure ⟨he.passes, hd.trans he.on⟩
  refine .ite (fun _ => hnext) fun _ => .ite (fun _ => ?_) fun _ => .ite (fun _ => .pure hd) fun _ => hnext
  split
  · exact .pure hd
  · exact hnext

omit hr in
theorem ends_value (h : g.On limit start c) : g.Ends value c fun _ => g.On limit start := by
  have hskip {d : Cursor} (hd : g.On limit start d) : g.Ends (do
      skipValue
      return (none, none) : Parser (Option Text × Option Int)) d fun _ => g.On limit start :=
    .bind (ends_skipValue hd) fun _ _ he => .pure he
  unfold value
  refine .bind (ends_accept "-" h) fun isNegative d hd => ?_
  simp only [ends_peek_bind]
  refine .ite (fun _ => .ite (fun _ => ?_) fun _ => .ite (fun _ => ?_) fun _ => hskip hd.on) fun _ => hskip hd.on
  · exact .bind (ends_next hd.on) fun _ _ he => .pure he.2.1
  · refine .bind (ends_next hd.on) fun _ _ he => ?_
    split
    · exact .pure he.2.1
    · exact .pure he.2.1

omit hr in
theorem ends_assigned {counter : Option Int} (h : g.On limit start c) :
    g.Ends (assigned counter) c fun _ => g.On limit start := by
  refine .bind (ends_accept "=" h) fun taken d hd => .ite (fun _ => ends_value hd.on) fun _ => ?_
  cases counter with
  | none => exact .pure hd.on
  | some n => exact .pure hd.on

omit hr in
theorem ends_enumMember {counter : Option Int} (h : g.On limit start c) :
    g.Ends (DeclarationGrammar.member counter) c fun _ => g.Past limit start := by
  refine .bind (ends_next h) fun name d hd => ?_
  obtain ⟨rfl, -, hpast⟩ := hd
  refine .ite (fun _ => .bind (Q := fun _ _ => False) (ends_rejectAt h) fun _ _ hnone => hnone.elim) fun hname => ?_
  rw [Bool.not_eq_true', Bool.not_eq_false, Bool.or_eq_true] at hname
  have hend : c.peek.isEnd = false := hname.elim Token.not_isEnd_of_isWord Token.not_isEnd_of_isString
  exact .bind (ends_assigned (hpast hend).on.here) fun _ e he => .pure ((hpast hend).trans he)

omit hr in
/-- A round that goes on is behind a member. -/
theorem ends_memberRound {state : List EnumMember × Option Int} (h : g.On limit start c) :
    g.Ends (memberRound state) c (Turns (fun _ => g.On limit start) (fun _ => g.On limit start) c) := by
  simp only [memberRound, ends_sees_bind]
  refine .ite (fun _ => .pure h) fun _ => .bind (ends_enumMember h.here) fun _ d hd =>
    .bind (ends_accept "," hd.on) fun taken e he => .ite (fun ht => ?_) fun _ => .pure (h.trans he.on)
  exact .pure ⟨(he.past ht).passes, h.trans he.on⟩

omit hr in
theorem ends_enumMembers (h : g.On limit start c) : g.Ends enumMembers c fun _ => g.On limit start := by
  rw [enumMembers_eq]
  exact ends_loop (I := fun _ => g.On limit start) h fun _ _ hd => ends_memberRound hd

omit hr in
theorem ends_enumeration {docs : DocComment} (h : g.On limit start c) :
    g.Ends (enumeration docs) c fun _ => g.Past limit start := by
  refine .bind (ends_expect "enum" h) fun _ c₁ h₁ => .bind (ends_expectName h₁.on.here) fun _ c₂ h₂ =>
    .bind (ends_expect _ h₂.on) fun _ c₃ h₃ => .bind (ends_enumMembers h₃.on) fun _ c₄ h₄ =>
    .bind (ends_expect _ h₄) fun _ c₅ h₅ => .pure ?_
  exact h₁.trans h₅.on

/-! ## Statements -/

omit hr in
/-- What passes over a statement passes a token, unless the input ends. -/
theorem ends_skipStatement (h : g.On limit start c) :
    g.Ends skipStatement c fun _ d => d = c ∧ c.peek.isEnd = true ∨ g.Past limit start d := by
  refine ends_loop (I := fun state d => d = c ∧ state.2 = true ∨ g.Past limit start d) (.inl ⟨rfl, rfl⟩)
    fun state d hd => ?_
  obtain ⟨depth, isFirst⟩ := state
  have hon : g.On limit start d := hd.elim (fun heq => heq.1 ▸ h) Past.on
  simp only [ends_peek_bind]
  refine .ite (fun hend => .pure ?_) fun hend => .ite (fun hword => .pure ?_) fun _ =>
    .bind (ends_take hon.here (Bool.eq_false_iff.2 hend)) fun _ e he => ?_
  · rcases hd with ⟨rfl, _⟩ | hd
    · exact .inl ⟨rfl, hend⟩
    · exact .inr hd
  · rcases hd with ⟨_, hfirst⟩ | hd
    · simp [show isFirst = true from hfirst] at hword
    · exact .inr hd
  have hpast := hon.past he
  have hagain (depth : Int) : Turns (β := Unit)
      (fun state d => d = c ∧ state.2 = true ∨ g.Past limit start d)
      (fun _ d => d = c ∧ c.peek.isEnd = true ∨ g.Past limit start d) d (.again (depth, false)) e :=
    ⟨he.passes, .inr hpast⟩
  refine .ite (fun _ => .pure (hagain _)) fun _ => .ite (fun _ => .ite (fun _ => .pure (.inr hpast)) fun _ =>
    .pure (hagain _)) fun _ => .ite (fun _ => .pure (.inr hpast)) fun _ => .pure (hagain _)

theorem ends_statement (h : g.On limit start c) (hend : c.peek.isEnd = false) :
    g.Ends (statement rules) c fun _ => g.Past limit start := by
  -- words before a declaration may have been passed
  have hskip {d : Cursor} (hd : d = c ∨ g.Past limit start d) : g.Ends (do
      skipStatement
      return none : Parser (Option Declaration)) d fun _ => g.Past limit start := by
    have hon : g.On limit start d := hd.elim (fun heq => heq ▸ h) Past.on
    refine .bind (ends_skipStatement hon) fun _ e he => .pure ?_
    rcases he with ⟨rfl, hstop⟩ | he
    · rcases hd with rfl | hd
      · rw [hend] at hstop
        cases hstop
      · exact hd
    · exact he
  have henum {d : Cursor} (hd : d = c ∨ g.Past limit start d) {docs : DocComment} : g.Ends (do
      let c ← get
      if c.sees "enum" && (c.peek 1).isWord then return some (← enumeration docs)
      else
        skipStatement
        return none : Parser (Option Declaration)) d fun _ => g.Past limit start := by
    have hon : g.On limit start d := hd.elim (fun heq => heq ▸ h) Past.on
    simp only [ends_get_bind]
    exact .ite (fun _ => .bind (ends_enumeration hon) fun _ _ he => .pure he) fun _ => hskip hd
  simp only [statement, ends_peek_bind]
  refine .bind (ends_accept ";" h) fun taken c₁ h₁ => .ite (fun ht => .pure (h₁.past ht)) fun ht => ?_
  rw [h₁.eq ht]
  simp only [ends_sees_bind]
  refine .ite (fun _ => hskip (.inl rfl)) fun _ => ?_
  refine .bind (ends_loop (I := fun _ d => d = c ∨ g.Past limit start d)
    (R := fun _ d => d = c ∨ g.Past limit start d) (.inl rfl) fun _ d hd => ?_) fun _ d hd => ?_
  · have hon : g.On limit start d := hd.elim (fun heq => heq ▸ h) Past.on
    refine .bind (ends_acceptEither "export" "declare" hon.here) fun taken e he => .ite (fun ht => ?_) fun ht => ?_
    · exact .pure ⟨(he.past ht).passes, .inr (hon.past (he.past ht))⟩
    · rw [he.eq ht]
      exact .pure hd
  have hon : g.On limit start d := hd.elim (fun heq => heq ▸ h) Past.on
  simp only [ends_get_bind]
  refine .ite (fun _ => .bind (ends_interface hr hon) fun _ _ he => .pure he) fun _ =>
    .ite (fun _ => .bind (ends_typeAlias hr hon) fun _ _ he => .pure he) fun _ => .ite (fun hconst => ?_) fun _ => ?_
  · rw [Bool.and_eq_true] at hconst
    exact .bind (ends_take hon (Token.not_isEnd_of_is hconst.1)) fun _ e he => henum (.inr he)
  · exact henum hd

theorem ends_statements (h : g.On limit start c) :
    g.Ends (statements rules) c fun _ => g.On limit start := by
  refine ends_loop (I := fun _ => g.On limit start) h fun found d hd => ?_
  simp only [ends_peek_bind]
  refine .ite (fun _ => .pure hd) fun hend => ?_
  exact .bind (ends_statement hr hd.here (Bool.eq_false_iff.2 hend)) fun _ e he => .pure ⟨he.passes, hd.trans he.on⟩

end

/-- What stops the reading of a whole source is a fault of the ground. -/
theorem Covers.parse_blames {g : Ground} {source : Text} {fault : Fault} (h : g.Covers source)
    (hwhole : g.Hole (source.length + 2) 0 source.length) (hparse : Declaration.parse source = .error fault) :
    g.Blames fault := by
  cases htokens : tokenize source 0 source.length with
  | error found =>
    simp only [Declaration.parse, htokens, bind, Except.bind] at hparse
    cases hparse
    exact h.fault hwhole htokens
  | ok tokens =>
    have hon : g.On (source.length + 2) (ofTokens tokens) (ofTokens tokens) := ⟨h.tokens hwhole htokens, .refl _⟩
    cases hstatements : DeclarationGrammar.statements (Rules.of source) (ofTokens tokens) with
    | ok x => simp [Declaration.parse, htokens, hstatements, bind, Except.bind, pure, Except.pure] at hparse
    | error found =>
      simp only [Declaration.parse, htokens, hstatements, bind, Except.bind] at hparse
      cases hparse
      exact (ends_statements (h.admits _) hon).error hstatements

end Source.Ground

end WireSchema
