import WireSchema.Proofs.Grammar.Signatures
/-!
# Types read again

Each rule of the grammar reads the copies of a run of tokens as it read the
tokens. What it looked at behind the run is the end of the input there, and so
it stops at the end of the run wherever it stopped there before.
-/

namespace WireSchema

open Source Source.Cursor Source.Parser

namespace TypeGrammar

open Excerpt

section
variable {o : Excerpt} {near : Bool} {c c' start start' : Cursor} {rules rules' : Rules}

/-! ## Primary types -/

theorem over_elementName (hlast : c.last.isEnd = true) (hword : c.peek.isWord = true) : Answers (do
    let _ ← next
    let isOptional ← accept "?"
    expect ":"
    return isOptional) c fun _ d => Over 2 c d :=
  over_next hlast (Token.not_isEnd_of_isWord hword) fun _ _ _ hd => (forth_accept "?" (.refl hd.last)).bind fun _ _ he =>
    (over_expect ":" he.1.last).bind fun _ _ hx => .pure ((hd.trans he.1.over).trans hx)

theorem recalls_elementName (h : o.At true c c') : o.Recalls true false id elementName elementName c c' := by
  simp only [elementName, recalls_get_bind]
  refine .branch 2 h (fun hcut => ?copied) (fun hcut hle => ?inside) (fun hnamed => ?beyond) (fun _ _ hcut => ?taken)
    fun _ => .stay h rfl
  case copied =>
    have hsees (w : Text) (n : Nat) : c'.sees w n = true → c.sees w n = true := hcut.of_copy (told_is w)
    simp only [Bool.and_eq_true, Bool.or_eq_true]
    exact .imp (hcut.of_copy told_isWord) (.imp (hsees _ _) (.imp (hsees _ _) (hsees _ _)))
  case inside =>
    rw [Bool.toNat_true] at hle
    rw [hcut.present told_isWord, hcut.sees ":" (n := 1) (by omega), hcut.sees "?" (n := 1) (by omega),
      hcut.sees ":" (n := 2) (by omega)]
    exact id
  case beyond =>
    rw [Bool.and_eq_true] at hnamed
    exact over_elementName h.last hnamed.1
  case taken =>
    exact recalls_next_bind hcut hcut.lt fun _ _ _ _ _ _ _ _ hat => .bind hat (recalls_accept "?" hat) fun _ _ _ _ _ hat =>
      .bind hat (recalls_expect ":" hat) fun _ _ _ _ _ hat => .stay hat rfl

variable (hr : rules.Reread o.source o.text rules')
include hr

theorem recalls_tupleRound (state : List TypeExpr × Bool) (h : o.At true c c') :
    o.Recalls true false
      (Turn.map (Prod.map (List.map (TypeExpr.redocument o.docs)) id) (Prod.map (List.map (TypeExpr.redocument o.docs)) id))
      (tupleRound rules state) (tupleRound rules' (state.map (List.map (TypeExpr.redocument o.docs)) id)) c c' := by
  rcases h.place with hcut | hbeyond
  · simp only [tupleRound, recalls_sees_bind, hcut.sees_now]
    refine .alike .rfl (fun _ => .stay h ?_) fun _ => .bind h (recalls_accept "..." h) fun isRest _ _ _ _ hat =>
      .bind hat (recalls_elementName hat) fun isNameOptional _ _ _ _ hat => .bind hat (hr.type rfl rfl hat)
      fun element _ _ _ _ hat =>
      .bind hat (recalls_accept "?" hat) fun isOptional _ _ _ _ hat => .bind hat (recalls_accept "," hat) fun taken _ _ _ _ hat =>
      .alike .rfl (fun _ => .stay hat rfl) fun _ => .stay hat ?_
    · simp [Turn.map]
    · simp [Turn.map]
  · exact .beyond hbeyond (forth_tupleRound hr.closes h.forth)

theorem recalls_tuple (h : o.At near c c') :
    o.Recalls near false (TypeExpr.redocument o.docs) (tuple rules) (tuple rules') c c' := by
  simp only [tuple, recalls_get_bind]
  refine .bind h (recalls_expect "[" h) fun _ d d' _ hd hat =>
    .wanted (F := Prod.map (List.map (TypeExpr.redocument o.docs)) id) hat (fun hat => ?_) (fun found e hlast => ?_)
    fun found e e' _ he hcut => ?_
  · refine recalls_loop_of_takes (S := Prod.map (List.map (TypeExpr.redocument o.docs)) id) ([], false) hat
      (fun state e e' _ hat => recalls_tupleRound hr state hat) fun state e hlast => ?_
    simp only [tupleRound, answers_sees_bind]
    refine .ite (fun _ => answers_done) fun _ => (forth_accept "..." (.refl hlast)).bind fun _ _ h₁ =>
      (forth_elementName h₁.1).bind fun _ _ h₂ => (hr.closes.type h₂).bind fun _ _ h₃ =>
      (forth_accept "?" h₃.forth.here).bind fun _ _ h₄ => (forth_accept "," h₄.1).bind fun _ _ h₅ => ?_
    exact .ite (fun _ => .pure fun _ _ => h₃.over.trans h₅.1.over) fun _ => answers_done
  · exact (over_expect "]" hlast).bind fun _ _ hx => .pure hx
  · refine .bind hcut.closer.at_ (recalls_expect "]" hcut.closer.at_) fun _ _ _ _ hx hat => ?_
    exact recalls_textSince_bind h (hd.trans (he.trans hx)) hat fun _ => .stay hat (by simp)

omit hr in
/-- An opening bracket right behind a token is there at the copies. -/
theorem tight_cut (h : o.Cut near c c') :
    ((c'.sees "<" && !c'.peek.spaceBefore) = true → (c.sees "<" && !c.peek.spaceBefore) = true) ∧
    (o.behind.rest.length < c.rest.length → (c.sees "<" && !c.peek.spaceBefore) = true →
      (c'.sees "<" && !c'.peek.spaceBefore) = true) := by
  by_cases hlt : o.behind.rest.length < c.rest.length
  · obtain ⟨u, v, d, d', rfl, rfl, hcopy, _⟩ := h.first hlt
    simp only [sees_before, peek_before, (told_is "<").same hcopy, hcopy.spaceBefore]
    exact ⟨id, fun _ => id⟩
  · refine ⟨fun hopen => ?_, fun hlt' => absurd hlt' hlt⟩
    rw [Bool.and_eq_true] at hopen
    exact absurd (h.lt_of_copy (told_is "<") hopen.1) hlt

theorem recalls_typeArguments (h : o.At near c c') :
    o.Recalls near false (List.map (TypeExpr.redocument o.docs)) (typeArguments rules) (typeArguments rules') c c' := by
  simp only [typeArguments, recalls_get_bind]
  refine .branch 1 h (fun hcut => (tight_cut hcut).1) (fun hcut hle => (tight_cut hcut).2 (by omega)) (fun hopen => ?_)
    (fun _ _ hcut => ?_)
    fun _ => .stay h rfl
  · rw [Bool.and_eq_true] at hopen
    refine over_skip h.last (Token.not_isEnd_of_is hopen.1) fun _ _ _ hd => ?_
    exact (forth_listed (.refl hd.last) hr.closes.type).bind fun _ _ he => (forth_expected ">" he).bind fun _ _ hx =>
      .pure (hd.trans hx.over)
  · refine .bind h (recalls_skip h) fun _ d d' _ _ hat => .wanted (F := List.map (TypeExpr.redocument o.docs)) hat
      (fun hat => recalls_listed hat (fun _ _ _ hat => hr.type rfl rfl hat) fun _ hlast => hr.closes.type (.refl hlast))
      (fun _ _ hlast => ?_) fun _ _ _ _ _ hcut => ?_
    · exact (over_expect ">" hlast).bind fun _ _ hx => .pure hx
    · exact .bind hcut.closer.at_ (recalls_expect ">" hcut.closer.at_) fun _ _ _ _ _ hat => .stay hat rfl

theorem recalls_reference (h : o.At near c c') :
    o.Recalls near false (TypeExpr.redocument o.docs) (reference rules) (reference rules') c c' := by
  simp only [reference, recalls_get_bind]
  refine .bind h (recalls_qualifiedName h) fun name d d' _ hd hat => .bind hat (recalls_typeArguments hr hat)
    fun arguments _ _ _ he hat => ?_
  exact recalls_textSince_bind h (hd.trans he) hat fun _ => .stay hat (by simp)

/-- The holes of a template and those of its copy hold the same types. -/
theorem templateSpans_copied {parts parts' : List TemplatePart} {spans : List (Span TypeExpr)}
    (h : List.Forall₂ (TemplatePart.Copied o.source o.text) parts parts') (hread : templateSpans rules parts = .ok spans) :
    templateSpans rules' parts' = .ok spans := by
  induction h generalizing spans with
  | nil => exact hread
  | cons hpart _ ih =>
    cases hpart with
    | chunk text =>
      obtain ⟨found, hfound, hspans⟩ := Except.bind_eq_ok.1 hread
      exact Except.bind_eq_ok.2 ⟨found, ih hfound, hspans⟩
    | hole hends hle hends' hle' hslice =>
      obtain ⟨type, htype, hrest⟩ := Except.bind_eq_ok.1 hread
      obtain ⟨found, hfound, hspans⟩ := Except.bind_eq_ok.1 hrest
      exact Except.bind_eq_ok.2 ⟨type, hr.hole hends hle hends' hle' hslice htype, Except.bind_eq_ok.2 ⟨found, ih hfound, hspans⟩⟩

/-- Passes over a word before the parameters of a constructor. -/
def constructorRound (_ : Unit) : Parser (Turn Unit Unit) := do
  let c ← get
  if c.peek.isEnd || c.sees "(" || c.sees "<" then return .done ()
  else
    let _ ← next
    return .again ()

/-- Passes over a name behind a dot. -/
def importRound (_ : Unit) : Parser (Turn Unit Unit) := do
  if ← accept "." then
    let _ ← expectName
    return .again ()
  else return .done ()

omit hr in
theorem wordType_def (rules : Rules) (word : Text) : wordType rules word = (do
    let start ← get
    if word = "true" ∨ word = "false" then
      let _ ← next
      return .literal word
    else if word = "new" ∨ (word = "abstract" ∧ start.sees "new" 1) then
      loop constructorRound ()
      let _ ← functionType rules
      return .verbatim (← textSince start) .constructor
    else if word = "typeof" then
      let _ ← next
      let _ ← qualifiedName
      let c ← get
      when (c.sees "<" && !c.peek.spaceBefore) skipBalanced
      return .verbatim (← textSince start) .typeQuery
    else if word = "import" ∧ start.sees "(" 1 then
      let _ ← next
      skipBalanced
      loop importRound ()
      when (← sees "<") skipBalanced
      return .verbatim (← textSince start) .importType
    else if keywords.contains word && !start.sees "." 1 then
      let _ ← next
      return .keyword word
    else reference rules) := rfl

omit hr in
theorem over_constructorRound (hlast : c.last.isEnd = true) (hgo : (c.peek.isEnd || c.sees "(" || c.sees "<") = false) :
    Answers (do
      let _ ← next
      return (.again () : Turn Unit Unit)) c fun _ d => Over 1 c d := by
  rw [Bool.or_eq_false_iff, Bool.or_eq_false_iff] at hgo
  exact over_next hlast hgo.1.1 fun _ _ _ hd => .pure hd

omit hr in
theorem recalls_constructorRound (h : o.At near c c') :
    o.Recalls near false (Turn.map id id) (constructorRound ()) (constructorRound ()) c c' := by
  simp only [constructorRound, recalls_get_bind]
  rcases h.place with hcut | hbeyond
  · by_cases hlt : o.behind.rest.length < c.rest.length
    · rw [hcut.isEnd hlt, hcut.sees "(" hlt, hcut.sees "<" hlt]
      exact .alike .rfl (fun _ => .stay h rfl) fun _ => recalls_next_bind hcut hlt fun _ _ _ _ _ _ _ _ hat => .stay hat rfl
    · rw [hcut.ends (Nat.le_of_not_lt hlt), Bool.true_or, Bool.true_or, if_pos rfl]
      by_cases hstop : (c.peek.isEnd || c.sees "(" || c.sees "<") = true
      · rw [if_pos hstop]
        exact .stay h rfl
      · rw [if_neg hstop]
        exact .out (over_constructorRound h.last (Bool.eq_false_iff.2 hstop)) (by omega)
  · exact .beyond hbeyond (.ite (fun _ => .pure h.forth) fun hgo =>
      (over_constructorRound h.last (Bool.eq_false_iff.2 hgo)).mono fun _ _ hd => hd.toForth)

omit hr in
theorem recalls_constructorWords (h : o.At near c c') :
    o.Recalls near false id (loop constructorRound ()) (loop constructorRound ()) c c' := by
  refine recalls_loop_of_takes (S := id) () h (fun _ _ _ _ hat => recalls_constructorRound hat) fun _ d hlast => ?_
  simp only [constructorRound, answers_get_bind]
  exact .ite (fun _ => answers_done) fun hgo =>
    (over_constructorRound hlast (Bool.eq_false_iff.2 hgo)).mono fun _ _ hd _ _ => hd

omit hr in
theorem over_constructorWords (hlast : c.last.isEnd = true) (hgo : (c.peek.isEnd || c.sees "(" || c.sees "<") = false) :
    Answers (loop constructorRound ()) c fun _ d => Over 1 c d := by
  refine answers_loop (I := fun _ d => d = c ∨ Over 1 c d) (.inl rfl) fun _ d hd => ?_
  simp only [constructorRound, answers_get_bind]
  rcases hd with rfl | hd
  · rw [hgo, if_neg Bool.false_ne_true]
    exact over_next hlast (by rw [Bool.or_eq_false_iff, Bool.or_eq_false_iff] at hgo; exact hgo.1.1) fun _ _ _ he => .pure (.inr he)
  · exact .ite (fun _ => .pure hd) fun _ => (forth_next (.refl hd.last)).bind fun _ _ he => .pure (.inr (hd.trans he.2.1.over))

omit hr in
theorem recalls_importNames (h : o.At near c c') : o.Recalls near false id (loop importRound ()) (loop importRound ()) c c' := by
  refine recalls_loop_of_takes (S := id) () h (fun _ d d' _ hat => ?_) fun _ d hlast => ?_
  · exact .bind hat (recalls_accept "." hat) fun _ _ _ _ _ hat => .alike .rfl (fun _ => .bind hat (recalls_expectName hat)
      fun _ _ _ _ _ hat => .stay hat rfl) fun _ => .stay hat rfl
  · exact (over_accept "." hlast).bind fun _ _ he => .ite (fun htaken => (ended_expectName he.1.here).bind fun _ _ hx =>
      .pure fun _ _ => (he.2 htaken).trans hx.forth.over) fun _ => answers_done

omit hr in
theorem forth_importNames (h : start.Forth c) : Answers (loop importRound ()) c fun _ d => start.Forth d :=
  kept_loop h fun _ _ hd => (forth_accept "." hd).bind fun _ _ he => .ite (fun _ => (ended_expectName he.1).bind fun _ _ hx =>
    .pure hx.forth) fun _ => .pure he.1

theorem recalls_wordType (h : o.At near c c') (hcut : o.Cut near c c') (hlt : o.behind.rest.length < c.rest.length)
    (hword : c.peek.isWord = true) :
    o.Recalls near false (TypeExpr.redocument o.docs) (wordType rules c.peek.raw) (wordType rules' c.peek.raw) c c' := by
  have htaken {e : TypeExpr} : o.Recalls near false (TypeExpr.redocument o.docs) (do
      let _ ← next
      return e) (do
      let _ ← next
      return e.redocument o.docs) c c' := recalls_next_bind hcut hlt fun _ _ _ _ _ _ _ _ hat => .stay hat rfl
  have hend := Token.not_isEnd_of_isWord hword
  have hkeyword : (keywords.contains c.peek.raw && !c'.sees "." 1) = true ↔
    (keywords.contains c.peek.raw && !c.sees "." 1) = true := by
    cases hcontains : keywords.contains c.peek.raw with
    | true => rw [hcut.dot hlt hcontains]
    | false => simp
  simp only [wordType_def, recalls_get_bind]
  -- a branch that looks one token ahead may look beyond the cut; then the longer run goes beyond it too
  refine .alike .rfl (fun _ => ?literal) fun _ => .branch 2 h (fun _ => ?newSeen) (fun _ hle => ?newHidden)
    (fun hnew => ?newOver) (fun _ _ _ => ?constructor) fun _ =>
    .alike .rfl (fun _ => ?query) fun _ => .branch 2 h (fun _ => ?importSeen) (fun _ hle => ?importHidden)
    (fun himport => ?importOver) (fun _ _ _ => ?importType) fun _ =>
    .alike hkeyword (fun _ => ?keyword) fun _ => recalls_reference hr h
  case literal => simpa using htaken (e := .literal c.peek.raw)
  case newSeen => exact .imp id (.imp id (hcut.of_copy (told_is "new")))
  case newHidden =>
    rw [hcut.sees "new" (n := 1) (by omega)]
    exact id
  case newOver =>
    have hgo : (c.peek.isEnd || c.sees "(" || c.sees "<") = false := by
      have hnot {w : Text} (hw : w ∉ (["new", "abstract"] : List Text)) : c.sees w = false := by
        refine Bool.eq_false_iff.2 fun his => hw ?_
        rw [Cursor.sees, Token.is, Bool.and_eq_true, beq_iff_eq] at his
        rw [← his.2]
        rcases hnew with hraw | ⟨hraw, _⟩ <;> simp [hraw]
      rw [hend, hnot (w := "(") (by decide), hnot (w := "<") (by decide)]
      rfl
    exact (over_constructorWords h.last hgo).bind fun _ _ hd => (ended_functionType hr.closes (.refl hd.last)).bind fun _ _ he =>
      .pure (hd.trans he.over)
  case constructor =>
    refine .bind h (recalls_constructorWords h) fun _ d d' _ hd hat => .bind hat (recalls_functionType hr hat)
      fun _ e e' _ he hat => ?_
    exact recalls_textSince_bind h (hd.trans he) hat fun _ => .stay hat (by simp)
  case query =>
    refine recalls_next_bind hcut hlt fun u v d d' hc _ _ _ hat => .bind hat (recalls_qualifiedName hat) fun _ e e' _ he hat => ?_
    simp only [recalls_get_bind]
    refine .bind hat (recalls_when_skipBalanced hat (fun hcut => (tight_cut hcut).1) fun hcut => (tight_cut hcut).2)
      fun _ x x' _ hx hat => ?_
    exact recalls_textSince_bind h (.trans ⟨[u], hc⟩ (he.trans hx)) hat fun _ => .stay hat (by simp)
  case importSeen => exact .imp id (hcut.of_copy (told_is "("))
  case importHidden =>
    rw [hcut.sees "(" (n := 1) (by omega)]
    exact id
  case importOver =>
    refine over_next h.last hend fun _ _ _ hd => (ended_skipBalanced (.refl hd.last)).bind fun _ x hx => ?_
    refine (forth_importNames hx.forth.here).bind fun _ y hy => ?_
    have hover := (hd.trans hx.over).trans hy.over
    simp only [answers_sees_bind]
    have hskip : Answers (Parser.when (y.sees "<") skipBalanced) y fun _ d => y.Forth d :=
      forth_when hy.here fun _ => (ended_skipBalanced hy.here).mono fun _ _ => Ended.forth
    exact hskip.bind fun _ _ hz => .pure (hover.trans hz.over)
  case importType =>
    refine recalls_next_bind hcut hlt fun u v d d' hc _ _ _ hat => .bind hat (recalls_skipBalanced hat) fun _ e e' _ he hat =>
      .bind hat (recalls_importNames hat) fun _ x x' _ hx hat => ?_
    simp only [recalls_sees_bind]
    refine .bind hat (recalls_when_skipBalanced hat (fun hcut => hcut.of_copy (told_is "<")) fun hcut hlt => ?_)
      fun _ y y' _ hy hat => ?_
    · rw [hcut.sees "<" hlt]
      exact id
    · exact recalls_textSince_bind h (.trans ⟨[u], hc⟩ (he.trans (hx.trans hy))) hat fun _ => .stay hat (by simp)
  case keyword => simpa using htaken (e := .keyword c.peek.raw)

theorem recalls_markType (h : o.At near c c') (hcut : o.Cut near c c') (hlt : o.behind.rest.length < c.rest.length)
    (hmark : c.peek.isMark = true) :
    o.Recalls near false (TypeExpr.redocument o.docs) (markType rules c.peek) (markType rules' c'.peek) c c' := by
  have hraw : c'.peek.raw = c.peek.raw := by
    obtain ⟨u, v, d, d', rfl, rfl, hcopy, _⟩ := hcut.first hlt
    exact hcopy.raw
  have hend : c.peek.isEnd = false := by
    rw [Token.isEnd, beq_iff_eq.1 hmark]
    rfl
  have hsees (w : Text) (hw : c.peek.raw = w) : c.sees w = true := by
    rw [Cursor.sees, Token.is, hmark, hw, Bool.or_true, Bool.true_and, beq_self_eq_true]
  simp only [markType, recalls_get_bind, hraw]
  -- where only the longer text shows a function, its arrow stands beyond the cut
  by_cases hfunction : beginsFunction c = true
  · rw [if_pos hfunction]
    by_cases hfunction' : beginsFunction c' = true
    · rw [if_pos hfunction']
      exact recalls_functionType hr h
    · obtain ⟨n, hover, hn⟩ := out_function hr.closes hcut hmark hfunction (Bool.eq_false_iff.2 hfunction')
      exact .out hover (by omega)
  rw [if_neg hfunction, if_neg (mt (beginsFunction_of_copy hcut) hfunction)]
  refine .alike .rfl (fun _ => ?parenthesis) fun _ => .alike .rfl (fun hbrace => ?brace) fun _ => .alike .rfl
    (fun _ => recalls_tuple hr h) fun _ =>
    .branch 2 h (fun _ => ?numberSeen) (fun _ hle => ?numberHidden) (fun hnumber => ?numberOver)
    (fun hnumber _ _ => ?number) fun _ => recalls_reject
  case parenthesis =>
    refine recalls_next_bind hcut hlt fun _ _ _ _ _ _ _ _ hat => .wanted (F := TypeExpr.redocument o.docs) hat
      (fun hat => hr.type rfl rfl hat) (fun _ _ hlast => ?_) fun _ _ _ _ _ hcut => ?_
    · exact (over_expect ")" hlast).bind fun _ _ hx => .pure hx
    · exact .bind hcut.closer.at_ (recalls_expect ")" hcut.closer.at_) fun _ _ _ _ _ hat => .stay hat rfl
  case brace =>
    by_cases hmapped : beginsMapped c = true
    · rw [if_pos hmapped]
      by_cases hmapped' : beginsMapped c' = true
      · rw [if_pos hmapped']
        exact .bind h (recalls_skipBalanced h) fun _ _ _ _ hd hat => recalls_textSince_bind h hd hat fun _ => .stay hat (by simp)
      · obtain ⟨n, hover, hn⟩ := out_mapped hcut (hsees _ hbrace) hmapped (Bool.eq_false_iff.2 hmapped')
        refine .out (n := n) (hover.bind fun _ _ hd => ?_) (by omega)
        rw [answers_textSince_bind]
        exact .pure hd
    · rw [if_neg hmapped, if_neg (mt (beginsMapped_of_copy hcut) hmapped)]
      exact .bind h (recalls_members hr h) fun _ _ _ _ hd hat => recalls_textSince_bind h hd hat fun _ => .stay hat (by simp)
  case numberSeen => exact .imp id (hcut.of_copy told_isNumber)
  case numberHidden =>
    rw [hcut.inside told_isNumber (by omega)]
    exact id
  case numberOver =>
    refine over_next h.last hend fun t d hc hd => ?_
    subst hc
    refine over_next hd.last (Token.not_isEnd_of_isNumber hnumber.2) fun _ _ _ he => ?_
    rw [answers_textSince_bind]
    exact .pure (hd.trans he)
  case number =>
    refine recalls_next_bind hcut hlt fun u v d d' hc _ _ _ hat => ?_
    subst hc
    refine recalls_step hat (Token.not_isEnd_of_isNumber hnumber.2) (fun _ _ hlast => ?_) fun w x e e' he _ _ _ hat' => ?_
    · rw [answers_textSince_bind]
      exact .pure (.refl hlast)
    · exact recalls_textSince_bind h (.trans ⟨[u], rfl⟩ ⟨[w], he⟩) hat' fun _ => .stay hat' (by simp)

theorem recalls_primary (h : o.At near c c') :
    o.Recalls near false (TypeExpr.redocument o.docs) (primary rules) (primary rules') c c' := by
  rcases h.place with hcut | hbeyond
  · by_cases hlt : o.behind.rest.length < c.rest.length
    · obtain ⟨u, v, d, d', rfl, rfl, hcopy, _⟩ := hcut.first hlt
      have htaken {e : TypeExpr} : o.Recalls near false (TypeExpr.redocument o.docs) (do
          let _ ← next
          return e) (do
          let _ ← next
          return e.redocument o.docs) (d.before [u]) (d'.before [v]) :=
        recalls_next_bind hcut hlt fun _ _ _ _ _ _ _ _ hat => .stay hat rfl
      simp only [primary, recalls_peek_bind, peek_before]
      -- inside the cut the first token decides, and its copy has the same lexeme
      cases hl : u.lexeme with
      | mark =>
        simp only [hcopy.lexeme.eq (by simp [hl]), hl]
        exact recalls_markType hr h hcut hlt (beq_iff_eq.2 hl)
      | string value =>
        simp only [hcopy.lexeme.eq (by simp [hl]), hl]
        simpa using htaken (e := .literal (Text.quote value))
      | number =>
        simp only [hcopy.lexeme.eq (by simp [hl]), hl, hcopy.raw]
        simpa using htaken (e := .literal u.raw)
      | template parts =>
        obtain ⟨parts', hl', hparts⟩ := hcopy.lexeme.parts hl
        simp only [hl', hcopy.raw]
        refine recalls_next_bind hcut hlt fun _ _ e e' _ _ _ _ hat => ?_
        exact .bind hat (recalls_lift (F := id) hat fun _ hread => templateSpans_copied hr hparts hread) fun _ _ _ _ _ hat =>
          .stay hat (by simp)
      | endOfInput => exact recalls_reject
      | word =>
        simp only [hcopy.lexeme.eq (by simp [hl]), hl, hcopy.raw]
        exact recalls_wordType hr h hcut hlt (beq_iff_eq.2 hl)
    · exact .out ((ended_primary hr.closes h.forth).mono fun _ _ => Ended.over) (by omega)
  · exact .beyond hbeyond ((ended_primary hr.closes h.forth).mono fun _ _ => Ended.forth)

/-! ## Operators -/

omit hr in
/-- Behind a token with which a type may end, brackets on the same line are there at the copies. -/
theorem bracket_cut (hstart : o.At near start start') (hended : start.Ended c) (hcut : o.Cut near c c')
    (hlt : o.behind.rest.length < c.rest.length) :
    (c'.sees "[" && !c'.peek.lineBreak) = (c.sees "[" && !c.peek.lineBreak) := by
  rw [hcut.sees "[" hlt]
  cases hsees : c.sees "[" with
  | false => rfl
  | true =>
    obtain ⟨t, ht, hends⟩ := hended
    have hplace := hstart.place.resolve_right fun hbeyond => hcut.not_beyond (hbeyond.reaches (ht.reaches.trans ⟨[t], rfl⟩))
    rw [hplace.farther.level hcut ht.reaches hends hsees hlt]

/-- A pair of brackets behind a type that began at `start`. -/
def brackets (rules : Rules) (start : Cursor) (type : TypeExpr) : Parser (Turn TypeExpr TypeExpr) := do
  let _ ← next
  if ← accept "]" then
    return .again (.array type (← textSince start))
  else
    let _ ← rules.type
    expect "]"
    return .again (.verbatim (← textSince start) .indexedAccess)

omit hr in
theorem bracketRound_def (rules : Rules) (start : Cursor) (type : TypeExpr) : bracketRound rules start type = (do
    let c ← get
    if c.sees "[" && !c.peek.lineBreak then brackets rules start type else return .done type) := rfl

omit hr in
theorem over_brackets {type : TypeExpr} (hr : rules.Close) (hlast : c.last.isEnd = true) (hopen : c.sees "[" = true) :
    Answers (brackets rules start type) c fun _ d => Over 1 c d := by
  refine over_next hlast (Token.not_isEnd_of_is hopen) fun _ _ _ hd => (forth_accept "]" (.refl hd.last)).bind fun _ _ he =>
    .ite (fun _ => ?_) fun _ => (hr.type he.1.here).bind fun _ _ hx => (forth_expected "]" hx.forth.here).bind fun _ _ hy => ?_
  · rw [answers_textSince_bind]
    exact .pure (hd.trans he.1.over)
  · rw [answers_textSince_bind]
    exact .pure (((hd.trans he.1.over).trans hx.forth.over).trans hy.over)

omit hr in
/-- A round that is not the last takes a bracket. -/
theorem over_bracketRound {type : TypeExpr} (hr : rules.Close) (hlast : c.last.isEnd = true) :
    Answers (bracketRound rules start type) c fun turn d => ∀ s, turn = .again s → Over 1 c d := by
  simp only [bracketRound_def, answers_get_bind]
  exact .ite (fun hopen => (over_brackets hr hlast (Bool.and_eq_true_iff.1 hopen).1).mono fun _ _ hd _ _ => hd) fun _ =>
    answers_done

theorem recalls_bracketRound (hstart : o.At near start start') (hended : start.Ended c) (h : o.At near c c') (type : TypeExpr) :
    o.Recalls near false (Turn.map (TypeExpr.redocument o.docs) (TypeExpr.redocument o.docs)) (bracketRound rules start type)
      (bracketRound rules' start' (type.redocument o.docs)) c c' := by
  have hreaches := hended.forth.reaches
  simp only [bracketRound_def, recalls_get_bind]
  refine .branch 1 h (fun hcut hopen => ?copied) (fun hcut hle => ?inside) (fun hopen => ?beyond)
    (fun _ hopen hcut => ?taken) fun _ => .stay h rfl
  case copied =>
    have hlt := hcut.lt_of_copy (told_is "[") (Bool.and_eq_true_iff.1 hopen).1
    rwa [← bracket_cut hstart hended hcut hlt]
  case inside =>
    rw [bracket_cut hstart hended hcut (by omega)]
    exact id
  case beyond => exact over_brackets hr.closes h.last (Bool.and_eq_true_iff.1 hopen).1
  case taken =>
    refine recalls_next_bind hcut (hcut.lt_of_copy (told_is "[") (Bool.and_eq_true_iff.1 hopen).1) fun u _ d d' hc _ _ _ hat =>
      .bind hat (recalls_accept "]" hat) fun _ e e' _ he hat => .alike .rfl (fun _ => ?_) fun _ => ?_
    · exact recalls_textSince_bind hstart (hreaches.trans (.trans ⟨[u], hc⟩ he)) hat fun _ => .stay hat (by simp [Turn.map])
    · refine .wanted (F := TypeExpr.redocument o.docs) hat (fun hat => hr.type rfl rfl hat) (fun _ _ hlast => ?_)
        fun _ x x' _ hx hcut => .bind hcut.closer.at_ (recalls_expect "]" hcut.closer.at_) fun _ y y' _ hy hat => ?_
      · exact (over_expect "]" hlast).bind fun _ _ hx => .pure hx
      · exact recalls_textSince_bind hstart (hreaches.trans (.trans ⟨[u], hc⟩ (he.trans (hx.trans hy)))) hat fun _ =>
          .stay hat (by simp [Turn.map])

theorem recalls_postfixed (h : o.At near c c') :
    o.Recalls near false (TypeExpr.redocument o.docs) (postfixed rules) (postfixed rules') c c' := by
  simp only [postfixed, recalls_get_bind]
  refine .bind h (recalls_primary hr h) fun first d d' hprimary _ hat => recalls_loop (S := TypeExpr.redocument o.docs)
    (I := fun _ e => c.Ended e) (ended_primary hr.closes h.forth first d hprimary) hat
    (fun type e e' he hat => recalls_bracketRound hr h he hat type) (fun type e he hlast => ?_) nofun
  exact ((ended_bracketRound hr.closes he).and (over_bracketRound hr.closes hlast)).mono fun _ _ hx s hs => ⟨hx.1, hx.2 s hs⟩

omit hr in
theorem over_bound (hr : rules.Close) (hlast : c.last.isEnd = true) (hsees : c.sees "extends" = true) : Answers (do
    skip
    let _ ← rules.operand) c fun _ d => Over 2 c d :=
  over_skip hlast (Token.not_isEnd_of_is hsees) fun _ _ _ hd => (hr.operand (.refl hd.last)).bind
  fun _ _ he => .pure (hd.trans he.over)

omit hr in
theorem forth_inferBound (hr : rules.Close) (hlast : c.last.isEnd = true) : Answers (inferBound rules) c fun _ d => c.Forth d := by
  simp only [inferBound, answers_get_bind]
  exact .ite (fun hb => (over_bound hr hlast (Bool.and_eq_true_iff.1 hb).1).mono fun _ _ hd => hd.toForth)
    fun _ => .pure (.refl hlast)

/-- The bound of an inferred type is passed over alike, or it may be a condition. -/
theorem recalls_inferBound (h : o.At near c c') : o.Recalls near true id (inferBound rules) (inferBound rules') c c' := by
  rcases h.place with hcut | hbeyond
  · simp only [inferBound, recalls_get_bind]
    by_cases hb : (c.sees "extends" && !c.sees "?" 2) = true
    · rw [if_pos hb]
      have ⟨hsees, hcondition⟩ := Bool.and_eq_true_iff.1 hb
      by_cases hlt : o.behind.rest.length < c.rest.length
      · have hcondition' : c'.sees "?" 2 = false := Bool.eq_false_iff.2 fun h' => by
          rw [hcut.sees_of_copy h'] at hcondition
          cases hcondition
        rw [hcut.sees "extends" hlt, hsees, hcondition', if_pos (show (true && !false) = true from rfl)]
        exact .bind h (recalls_skip h) fun _ _ _ _ _ hat => .bind_stuck hat (hr.operand rfl rfl hat)
          (fun _ _ _ _ _ => .pure (.inl ⟨rfl, rfl⟩))
          fun _ _ _ _ _ hat => .stay hat rfl
      · exact .out (over_bound hr.closes h.last hsees) (by omega)
    · rw [if_neg hb]
      by_cases hstuck : c.sees "extends" = true ∧ o.behind.rest.length < c.rest.length ∧ c.rest.length ≤ o.behind.rest.length + 2
      · rintro _ _ ⟨⟩
        exact ⟨.refl c, .inr (.inl ⟨rfl, hstuck⟩)⟩
      · have hb' : ¬ (c'.sees "extends" && !c'.sees "?" 2) = true := fun hb' => by
          have ⟨hsees', hcondition'⟩ := Bool.and_eq_true_iff.1 hb'
          have hlt := hcut.lt_of_copy (told_is "extends") hsees'
          have hsees := hcut.of_copy (told_is "extends") hsees'
          have hlong : o.behind.rest.length + 2 < c.rest.length := Nat.lt_of_not_le fun hle => hstuck ⟨hsees, hlt, hle⟩
          rw [hcut.sees "extends" hlt, hcut.sees "?" hlong] at hb'
          exact hb hb'
        rw [if_neg hb']
        exact .stay h rfl
  · exact .beyond hbeyond (forth_inferBound hr.closes h.last)

omit hr in
theorem told_operator : o.Told fun t => t.isWord && operatorWords.contains t.raw := told_isWord.raw operatorWords.contains

theorem recalls_operand (h : o.At near c c') :
    o.Recalls near true (TypeExpr.redocument o.docs) (operand rules) (operand rules') c c' := by
  rcases h.place with hcut | hbeyond
  · by_cases hlt : o.behind.rest.length < c.rest.length
    · have hraw : c'.peek.raw = c.peek.raw := by
        obtain ⟨u, v, d, d', rfl, rfl, hcopy, _⟩ := hcut.first hlt
        exact hcopy.raw
      simp only [operand, recalls_get_bind]
      -- the word behind the operator may stand beyond the cut
      refine .branch 2 h (fun _ => ?operator_copied) (fun _ hle => ?operator_inside) (fun hoperator => ?operator_beyond)
        (fun _ _ _ => ?operator_taken) fun _ =>
        .branch 2 h (fun _ => ?infer_copied) (fun _ hle => ?infer_inside) (fun hinfer => ?infer_beyond)
        (fun _ _ _ => ?infer_taken) fun _ => (recalls_postfixed hr h).unstuck
      case operator_copied =>
        rw [Bool.and_eq_true, Bool.and_eq_true (_ && _)]
        exact .imp (hcut.of_copy told_operator) (hcut.of_copy told_beginsOperand)
      case operator_inside =>
        rw [hcut.inside told_isWord hlt, hraw, hcut.inside (n := 1) told_beginsOperand (by omega)]
        exact id
      case operator_beyond =>
        rw [Bool.and_eq_true, Bool.and_eq_true] at hoperator
        refine over_next h.last (Token.not_isEnd_of_isWord hoperator.1.1) fun _ _ _ hd =>
          (hr.closes.operand (.refl hd.last)).bind fun _ _ he => ?_
        refine .ite (fun _ => .pure (hd.trans he.over)) fun _ => ?_
        rw [answers_textSince_bind]
        exact .pure (hd.trans he.over)
      case operator_taken =>
        refine recalls_next_bind hcut hlt fun u v d d' hc _ _ _ hat => .bind_stuck hat (hr.operand rfl rfl hat)
          (fun _ inner e _ _ => ?_)
          fun inner e e' _ he hat => ?_
        · exact .ite (fun _ => .pure (.inl ⟨rfl, rfl⟩)) fun _ => .pure (.inl ⟨rfl, rfl⟩)
        · refine .alike (by rw [hraw, TypeExpr.isSequence_redocument]) (fun _ => .stay hat rfl) fun _ => ?_
          exact recalls_textSince_bind h (.trans ⟨[u], hc⟩ he) hat fun _ => .stay hat (by simp [hraw])
      case infer_copied =>
        rw [Bool.and_eq_true, Bool.and_eq_true]
        exact .imp hcut.sees_of_copy (hcut.of_copy told_isWord)
      case infer_inside =>
        rw [hcut.sees "infer" hlt, hcut.inside told_isWord (n := 1) (by omega)]
        exact id
      case infer_beyond =>
        rw [Bool.and_eq_true] at hinfer
        refine over_skip h.last (Token.not_isEnd_of_is hinfer.1) fun t d hc hd => ?_
        subst hc
        refine over_skip hd.last (Token.not_isEnd_of_isWord hinfer.2) fun _ _ _ he =>
          (forth_inferBound hr.closes he.last).bind fun _ _ hx => ?_
        rw [answers_textSince_bind]
        exact .pure ((hd.trans he).trans hx.over)
      case infer_taken =>
        refine .bind h (recalls_skip h) fun _ d d' _ hd hat => .bind hat (recalls_skip hat) fun _ e e' _ he hat =>
          .bind_stuck hat (recalls_inferBound hr hat) (fun _ _ _ _ _ => .pure (.inl ⟨rfl, rfl⟩)) fun _ x x' _ hx hat => ?_
        exact recalls_textSince_bind h (hd.trans (he.trans hx)) hat fun _ => .stay hat (by simp)
    · exact .out ((ended_operand hr.closes h.forth).mono fun _ _ => Ended.over) (by omega)
  · exact .beyond hbeyond ((ended_operand hr.closes h.forth).mono fun _ _ => Ended.forth)

omit hr in
theorem recalls_chain {mark : Text} {item item' : Parser TypeExpr} {build : List TypeExpr → Text → TypeExpr}
    (hmark : mark ≠ "extends")
    (hbuild : ∀ es t, build (es.map (TypeExpr.redocument o.docs)) t = (build es t).redocument o.docs) (h : o.At near c c')
    (hitem : ∀ d d', o.At near d d' → o.Recalls near true (TypeExpr.redocument o.docs) item item' d d')
    (hpasses : ∀ d, d.last.isEnd = true → Answers item d fun _ e => d.Ended e) :
    o.Recalls near true (TypeExpr.redocument o.docs) (chain mark item build) (chain mark item' build) c c' := by
  refine .bind h (recalls_accept mark h) fun _ d d' _ _ hat => ?_
  simp only [recalls_get_bind]
  refine .bind_stuck hat (recalls_separated hmark hat (fun e e' _ hat => hitem e e' hat) hpasses) (fun _ types e _ _ => ?_)
    fun types e e' _ he hat' => ?_
  · split
    · exact .pure (.inl ⟨rfl, rfl⟩)
    · exact .pure (.inl ⟨rfl, rfl⟩)
  · rcases types with _ | ⟨first, _ | ⟨second, more⟩⟩
    · exact recalls_textSince_bind hat he hat' fun t => .stay hat' (hbuild [] t)
    · exact .stay hat' rfl
    · exact recalls_textSince_bind hat he hat' fun t => .stay hat' (hbuild (first :: second :: more) t)

theorem recalls_intersection (h : o.At near c c') :
    o.Recalls near true (TypeExpr.redocument o.docs) (intersection rules) (intersection rules') c c' :=
  recalls_chain (by decide) (fun _ _ => by simp) h (fun _ _ hat => recalls_operand hr hat) fun _ hlast =>
    ended_operand hr.closes (.refl hlast)

theorem recalls_union (h : o.At near c c') :
    o.Recalls near true (TypeExpr.redocument o.docs) (union rules) (union rules') c c' :=
  recalls_chain (by decide) (fun _ _ => by simp) h (fun _ _ hat => recalls_intersection hr hat) fun _ hlast =>
    ended_intersection hr.closes (.refl hlast)

theorem recalls_type (h : o.At near c c') :
    o.Recalls near false (TypeExpr.redocument o.docs) (TypeGrammar.type rules) (TypeGrammar.type rules') c c' := by
  simp only [TypeGrammar.type, recalls_get_bind]
  refine .bind_stuck h (recalls_union hr h) (fun _ type d hlast hstuck => ?_) fun type d d' _ hd hat =>
    .bind hat (recalls_accept "extends" hat) fun _ e e' _ he hat => .alike .rfl (fun _ => ?_) fun _ => .stay hat rfl
  · -- a bound that is a condition has its mark and its branches behind it
    refine over_seen hlast hstuck.1 fun _ h₁ => .ite (fun _ => ?_) fun hfalse => absurd rfl hfalse
    refine (ended_union hr.closes (.refl h₁.last)).bind fun _ _ h₂ => (forth_expected "?" h₂.forth.here).bind fun _ _ h₃ =>
      (hr.closes.type h₃.here).bind fun _ _ h₄ => (forth_expected ":" h₄.forth.here).bind fun _ _ h₅ =>
      (hr.closes.type h₅.here).bind fun _ _ h₆ => ?_
    rw [answers_textSince_bind]
    have hover := (((h₁.trans h₂.over).trans h₃.over).trans h₄.over).trans (h₅.over.trans h₆.forth.over)
    exact .pure (.inr hover)
  · refine .bind_stuck hat (recalls_union hr hat) (fun _ type x _ hstuck => ?_) fun _ x x' _ hx hat =>
      .bind hat (recalls_expect "?" hat) fun _ y y' _ hy hat => .bind hat (hr.type rfl rfl hat) fun _ z z' _ hz hat =>
      .bind hat (recalls_expect ":" hat) fun _ u u' _ hu hat => .bind hat (hr.type rfl rfl hat) fun _ v v' _ hv hat => ?_
    · exact hstuck.expect (by decide)
    · exact recalls_textSince_bind h (hd.trans (he.trans (hx.trans (hy.trans (hz.trans (hu.trans hv)))))) hat fun _ =>
        .stay hat (by simp)

end

end TypeGrammar

end WireSchema
