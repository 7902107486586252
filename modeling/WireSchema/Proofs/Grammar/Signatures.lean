import WireSchema.Proofs.Grammar.Recalled
/-!
# Members read again

What a rule saw ahead it sees at the copies of a run, or it went beyond the run.
So signatures and the members of object shapes are read at the copies as they
were read at the tokens.
-/

namespace WireSchema

open Source Source.Cursor Source.Parser

namespace TypeGrammar

/-! ## Looking ahead -/

section
variable {o : Excerpt} {near : Bool} {c c' d : Cursor} {opener closer w : Text} {depth n : Nat} {ts us : List Token} {rules : Rules}

/-- A closer that is not there is not found before what stands behind. -/
theorem le_closerIndex_append (h : ts.length ≤ closerIndex opener closer depth ts) :
    ts.length ≤ closerIndex opener closer depth (ts ++ us) := by
  induction ts generalizing depth with
  | nil => exact Nat.zero_le _
  | cons t ts ih =>
    rw [closerIndex, List.length_cons] at h
    rw [List.cons_append, closerIndex, List.length_cons]
    split at h
    next hopen =>
      rw [if_pos hopen]
      have : ts.length ≤ closerIndex opener closer (depth + 1) (ts ++ us) := ih (by omega)
      omega
    next hopen =>
      rw [if_neg hopen]
      split at h
      next hclose =>
        rw [if_pos hclose]
        split at h
        · omega
        next hdepth =>
          rw [if_neg hdepth]
          have : ts.length ≤ closerIndex opener closer (depth - 1) (ts ++ us) := ih (by omega)
          omega
      next hclose =>
        rw [if_neg hclose]
        have : ts.length ≤ closerIndex opener closer depth (ts ++ us) := ih (by omega)
        omega

theorem closerIndex_faces {us : List Token} (h : ts.map Token.face = us.map Token.face) (depth : Nat) :
    closerIndex opener closer depth ts = closerIndex opener closer depth us := by
  induction ts generalizing us depth with
  | nil => rw [List.map_eq_nil_iff.1 h.symm]
  | cons t ts ih =>
    cases us with
    | nil => cases h
    | cons u us =>
      obtain ⟨hface, hrest⟩ := List.cons.inj h
      simp only [closerIndex, Token.isMark_face hface, Token.raw_face hface, ih hrest]

/-- The closer of a bracket is where its copy is, or it is not in the run. -/
theorem closerIndex_cut (h : o.Cut near c c') (opener closer : Text) :
    closerIndex opener closer 0 c.rest = closerIndex opener closer 0 c'.rest ∨
      c'.rest.length ≤ closerIndex opener closer 0 c.rest ∧ c'.rest.length ≤ closerIndex opener closer 0 c'.rest := by
  obtain ⟨ps, hps, rfl, rfl, _⟩ := h
  have hfaces : (ps.map Prod.snd).map Token.face = (ps.map Prod.fst).map Token.face := by
    rw [List.map_map, List.map_map]
    exact List.map_congr_left fun p hp => (o.copied p (hps.subset hp)).face
  have hsame : closerIndex opener closer 0 (ps.map Prod.snd) = closerIndex opener closer 0 (ps.map Prod.fst) :=
    closerIndex_faces hfaces 0
  simp only [Excerpt.before, Excerpt.again, rest_before, List.append_nil, hsame, List.length_map]
  by_cases hlt : closerIndex opener closer 0 (ps.map Prod.fst) < (ps.map Prod.fst).length
  · exact .inl (closerIndex_append hlt _)
  · have hle := Nat.le_of_not_lt hlt
    exact .inr ⟨by simpa using le_closerIndex_append hle, by simpa using hle⟩

theorem beginsFunction_of_copy (h : o.Cut near c c') (hb : beginsFunction c' = true) : beginsFunction c = true := by
  have hsees (w : Text) (n : Nat) : c'.sees w n = true → c.sees w n = true := h.of_copy (Excerpt.told_is w)
  simp only [beginsFunction, Bool.or_eq_true, Bool.and_eq_true] at hb ⊢
  refine hb.imp (hsees _ _) fun hparenthesis => ⟨hsees _ _ hparenthesis.1, ?_⟩
  have harrow := hparenthesis.2
  rcases closerIndex_cut h "(" ")" with heq | ⟨_, hle⟩
  · rw [heq]
    exact hsees _ _ harrow
  · rw [not_sees_end h.last_copy (by omega)] at harrow
    cases harrow

/-- A function type that begins here and not at the copies goes beyond the run. -/
theorem out_function (hr : rules.Close) (h : o.Cut near c c') (hmark : c.peek.isMark = true) (hb : beginsFunction c = true)
    (hb' : beginsFunction c' = false) :
    ∃ n, Answers (functionType rules) c (fun _ d => Over n c d) ∧ c.rest.length < o.behind.rest.length + n := by
  have hout (w : Text) (n : Nat) (hsees : c.sees w n = true) (hsees' : c'.sees w n = false) :
      c.rest.length ≤ o.behind.rest.length + n := h.outside (Excerpt.told_is w) hsees hsees'
  simp only [beginsFunction, Bool.or_eq_false_iff, Bool.or_eq_true] at hb hb'
  -- either the opener itself is missing from the cut, or its closer and the arrow behind it are
  by_cases hangle : c.sees "<" = true
  · exact ⟨1, (ended_functionType hr (.refl h.last)).mono fun _ _ => Ended.over, by have := hout _ _ hangle hb'.1; omega⟩
  by_cases hopen' : c'.sees "(" = true
  · obtain ⟨hopen, harrow⟩ := Bool.and_eq_true_iff.1 (hb.resolve_left hangle)
    have hparenthesis : (c.peek.isMark && c.peek.raw == "(") = true := by
      rw [Cursor.sees, Token.is, Bool.and_eq_true] at hopen
      rw [hmark, hopen.2]
      rfl
    refine ⟨closerIndex "(" ")" 0 c.rest + 3, ?_, ?_⟩
    · simp only [functionType, answers_get_bind, answers_sees_bind, Bool.eq_false_iff.2 hangle]
      refine Answers.bind (Q := fun _ d => d = c) (.pure rfl) fun _ c₁ h₁ => ?_
      subst h₁
      simp only [answers_sees_bind, hopen, Bool.not_true]
      refine Answers.bind (Q := fun _ d => d = c₁) (.pure rfl) fun _ c₂ h₂ => ?_
      subst h₂
      refine (over_skipBalanced h.last hparenthesis).bind fun _ c₃ h₃ => ?_
      refine (Excerpt.over_expect "=>" h₃.last).bind fun _ c₄ h₄ => ?_
      exact (ended_returnType hr (Forth.refl (c := c₄) h₄.last)).bind fun _ _ h₅ => .pure ((h₃.trans h₄).trans h₅.over)
    · rcases closerIndex_cut h "(" ")" with heq | ⟨hle, _⟩
      · rw [heq] at harrow ⊢
        have := hout _ _ harrow (by simpa [hopen'] using hb'.2)
        omega
      · have := h.lengths
        omega
  · refine ⟨1, (ended_functionType hr (.refl h.last)).mono fun _ _ => Ended.over, ?_⟩
    have hopen := (Bool.and_eq_true_iff.1 (hb.resolve_left hangle)).1
    have := hout _ _ hopen (Bool.eq_false_iff.2 hopen')
    omega

/-! ### Mapped types -/

/-- Where the bracket of a mapped type stands, if one begins here. -/
def mappedKey (c : Cursor) : Nat :=
  let i := if (c.peek 1).isOneOf ["+", "-"] then 2 else 1
  if c.sees "readonly" i then i + 1 else i

theorem beginsMapped_eq (c : Cursor) : beginsMapped c =
    (c.sees "[" (mappedKey c) && (c.peek (mappedKey c + 1)).isWord && c.sees "in" (mappedKey c + 2)) := rfl

theorem mappedKey_cut (h : o.Cut near c c') (hlt : o.behind.rest.length + 2 < c.rest.length) : mappedKey c' = mappedKey c := by
  have hsign : (c'.peek 1).isOneOf ["+", "-"] = (c.peek 1).isOneOf ["+", "-"] :=
    h.inside (P := fun t => t.isOneOf ["+", "-"]) (Excerpt.told_isOneOf _) (by omega)
  have hread (n : Nat) (hn : n ≤ 2) : c'.sees "readonly" n = c.sees "readonly" n := h.inside (Excerpt.told_is _) (by omega)
  simp only [mappedKey, hsign]
  split
  · rw [hread 2 (Nat.le_refl 2)]
  · rw [hread 1 (by decide)]

theorem beginsMapped_cut (h : o.Cut near c c') (hlt : o.behind.rest.length + mappedKey c + 2 < c.rest.length) :
    beginsMapped c' = beginsMapped c := by
  have hkey := mappedKey_cut h (by omega)
  have hsees (w : Text) (n : Nat) (hn : n ≤ mappedKey c + 2) : c'.sees w n = c.sees w n := h.inside (Excerpt.told_is _) (by omega)
  have hword : (c'.peek (mappedKey c + 1)).isWord = (c.peek (mappedKey c + 1)).isWord := h.inside Excerpt.told_isWord (by omega)
  rw [beginsMapped_eq, beginsMapped_eq, hkey, hsees _ _ (by omega), hword, hsees _ _ (Nat.le_refl _)]

theorem beginsMapped_of_copy (h : o.Cut near c c') (hb : beginsMapped c' = true) : beginsMapped c = true := by
  have hin : c'.sees "in" (mappedKey c' + 2) = true := by
    rw [beginsMapped_eq, Bool.and_eq_true] at hb
    exact hb.2
  have hlt : o.behind.rest.length + (mappedKey c' + 2) < c.rest.length := by
    rcases h.told (Excerpt.told_is "in") (mappedKey c' + 2) with ⟨_, hlt⟩ | ⟨hfalse, _⟩
    · exact hlt
    · rw [Cursor.sees, hfalse] at hin
      cases hin
  rw [mappedKey_cut h (by omega)] at hlt
  rwa [← beginsMapped_cut h (by omega)]

/-- The token does not close a bracket. -/
theorem not_closes_of_is {t : Token} (h : t.is w = true) (hw : w ∉ ([")", "]", "\x7d", ">"] : List Text)) :
    t.isOneOf [")", "]", "\x7d", ">"] = false := by
  rw [Token.is, Bool.and_eq_true, beq_iff_eq] at h
  rw [Token.isOneOf, h.2, Bool.and_eq_false_iff]
  exact .inr (by simpa using hw)

/-- The sign and the word before the bracket do not close a bracket. -/
theorem not_closes_modifier (hpos : 0 < n) (hlt : n < mappedKey c) : (c.peek n).isOneOf [")", "]", "\x7d", ">"] = false := by
  rw [mappedKey] at hlt
  have hsign (h : (c.peek 1).isOneOf ["+", "-"] = true) : (c.peek 1).isOneOf [")", "]", "\x7d", ">"] = false := by
    simp only [Token.isOneOf, Bool.and_eq_true, List.contains_iff_mem, List.mem_cons, List.not_mem_nil, or_false] at h ⊢
    rcases h.2 with hraw | hraw <;> simp [hraw]
  have hread {j : Nat} (h : c.sees "readonly" j = true) : (c.peek j).isOneOf [")", "]", "\x7d", ">"] = false :=
    not_closes_of_is h (by decide)
  split at hlt
  next hsigned =>
    split at hlt
    next hmodified =>
      obtain rfl | rfl : n = 1 ∨ n = 2 := by omega
      · exact hsign hsigned
      · exact hread hmodified
    · obtain rfl : n = 1 := by omega
      exact hsign hsigned
  · split at hlt
    next hmodified =>
      obtain rfl : n = 1 := by omega
      exact hread hmodified
    · omega

/-- No token up to the word `in` closes a bracket. -/
theorem not_closes_mapped (hopen : c.sees "\x7b" = true) (hb : beginsMapped c = true) (n : Nat) (hn : n ≤ mappedKey c + 2) :
    (c.peek n).isOneOf [")", "]", "\x7d", ">"] = false := by
  rw [beginsMapped_eq, Bool.and_eq_true, Bool.and_eq_true] at hb
  obtain ⟨⟨hbracket, hword⟩, hin⟩ := hb
  rcases Nat.eq_zero_or_pos n with rfl | hpos
  · exact not_closes_of_is hopen (by decide)
  rcases Nat.lt_or_ge n (mappedKey c) with hlt | hge
  · exact not_closes_modifier hpos hlt
  obtain rfl | rfl | rfl : n = mappedKey c ∨ n = mappedKey c + 1 ∨ n = mappedKey c + 2 := by omega
  · exact not_closes_of_is hbracket (by decide)
  · have hmark : (c.peek (mappedKey c + 1)).isMark = false := by
      rw [Token.isMark, show (c.peek (mappedKey c + 1)).lexeme = .word from beq_iff_eq.1 hword]
      rfl
    rw [Token.isOneOf, hmark, Bool.false_and]
  · exact not_closes_of_is hin (by decide)

/-- A mapped type that begins here and not at the copies goes beyond the run. -/
theorem out_mapped (h : o.Cut near c c') (hopen : c.sees "\x7b" = true) (hb : beginsMapped c = true)
    (hb' : beginsMapped c' = false) :
    ∃ n, Answers skipBalanced c (fun _ d => Over n c d) ∧ c.rest.length < o.behind.rest.length + n := by
  refine ⟨mappedKey c + 4, ?_, ?_⟩
  · refine (forth_skipBalanced (.refl h.last)).mono fun _ d ⟨t, ⟨⟨ts, hts⟩, hlast⟩, hcloser⟩ => ?_
    have hnot := not_closes_mapped hopen hb
    have htoken : c.peek ts.length = t := by rw [hts, ← Nat.add_zero ts.length, peek_before_length]; rfl
    have hlong : mappedKey c + 2 < ts.length := Nat.lt_of_not_le fun hle => by
      rw [← htoken, hnot _ hle] at hcloser
      cases hcloser
    have hlength : c.rest.length = ts.length + (d.rest.length + 1) := by
      rw [congrArg (·.rest.length) hts]
      simp
    exact ⟨⟨.trans ⟨ts, hts⟩ ⟨[t], rfl⟩, hlast⟩, by omega⟩
  · refine Nat.lt_of_not_le fun hle => ?_
    rw [beginsMapped_cut h (by omega), hb] at hb'
    cases hb'

end

end TypeGrammar

/-! ## Rules -/

/-- The rules of a text read copies as the rules of the source read the tokens. -/
structure Rules.Reread (source text : Text) (rules rules' : Rules) : Prop where
  closes : rules.Close
  type : ∀ {o : Excerpt} {near : Bool} {c c' : Cursor}, o.source = source → o.text = text → o.At near c c' →
    o.Recalls near false (TypeExpr.redocument o.docs) rules.type rules'.type c c'
  operand : ∀ {o : Excerpt} {near : Bool} {c c' : Cursor}, o.source = source → o.text = text → o.At near c c' →
    o.Recalls near true (TypeExpr.redocument o.docs) rules.operand rules'.operand c c'
  hole : ∀ {a b a' b' : Nat} {t : TypeExpr}, EndsWindow source b → a ≤ b → EndsWindow text b' → a' ≤ b' →
    slice text a' b' = slice source a b → rules.hole a b = .ok t → rules'.hole a' b' = .ok t

namespace TypeGrammar

open Excerpt

section
variable {o : Excerpt} {near : Bool} {c c' start start' : Cursor} {rules rules' : Rules} {word : Text}

theorem over_dotted (hlast : c.last.isEnd = true) (hdot : (c.sees "." && (c.peek 1).isWord) = true) (parts : List Text) :
    Answers (do
      let _ ← next
      return (.again ((← next).raw :: parts) : Turn (List Text) (List Text))) c fun _ d => Over 2 c d := by
  rw [Bool.and_eq_true] at hdot
  refine over_next hlast (Token.not_isEnd_of_is hdot.1) fun t d hc hd => ?_
  subst hc
  exact over_next hlast (Token.not_isEnd_of_isWord hdot.2) fun u e _ he => .pure (hd.trans he)

theorem recalls_qualifiedName (h : o.At near c c') : o.Recalls near false id qualifiedName qualifiedName c c' := by
  refine .bind h (recalls_expectName h) fun first d d' _ _ hat => .bind hat
    (recalls_loop_of_takes (S := id) [first] hat (fun parts e e' _ hat => ?_) fun parts e hlast => ?_)
    fun parts _ _ _ _ hat => .stay hat rfl
  · simp only [qualifiedRound, recalls_sees_bind, recalls_peek_bind, id]
    refine .branch 2 hat (fun hcut => ?_) (fun hcut hle => ?_) (fun hdot => over_dotted hat.last hdot parts)
      (fun hdot hdot' hcut => ?_) fun _ => .stay hat rfl
    · simp only [Bool.and_eq_true]
      exact .imp (hcut.of_copy (told_is ".")) (hcut.of_copy told_isWord)
    · rw [hcut.sees "." (by omega), hcut.inside told_isWord (by omega)]
      exact id
    · rw [Bool.and_eq_true] at hdot hdot'
      refine recalls_next_bind hcut (hcut.lt_of_copy (told_is ".") hdot'.1) fun u v x x' hc _ _ _ hat₁ => ?_
      subst hc
      refine recalls_step hat₁ (Token.not_isEnd_of_isWord hdot.2) (fun _ _ hlast => .pure (.refl hlast))
        fun u v _ _ _ _ _ hcopy hat =>
        .stay hat ?_
      rw [hcopy.raw]
      rfl
  · simp only [qualifiedRound, answers_sees_bind, answers_peek_bind]
    refine .ite (fun hdot => (over_dotted hlast hdot parts).mono fun _ e he _ _ => ?_) fun _ => answers_done
    exact ⟨he.toForth, by have := he.length; omega⟩

variable (hr : rules.Reread o.source o.text rules')
include hr

theorem recalls_returnType (h : o.At near c c') :
    o.Recalls near false (TypeExpr.redocument o.docs) (returnType rules) (returnType rules') c c' := by
  have htail {d d' : Cursor} (hd : c.Reaches d) (hat : o.At near d d') :
      o.Recalls near false (TypeExpr.redocument o.docs) (do
        let type ← rules.type
        if ← accept "is" then
          let _ ← rules.type
          return .verbatim (← textSince c) .typePredicate
        else return type) (do
        let type ← rules'.type
        if ← accept "is" then
          let _ ← rules'.type
          return .verbatim (← textSince c') .typePredicate
        else return type) d d' := by
    refine .bind hat (hr.type rfl rfl hat) fun type e e' _ he hat => .bind hat (recalls_accept "is" hat) fun taken x x' _ hx hat =>
      .alike .rfl (fun _ => ?_) fun _ => .stay hat rfl
    refine .bind hat (hr.type rfl rfl hat) fun _ y y' _ hy hat => ?_
    exact recalls_textSince_bind h (hd.trans (he.trans (hx.trans hy))) hat fun _ => .stay hat (by simp)
  simp only [returnType, recalls_get_bind, recalls_sees_bind, recalls_peek_bind]
  rw [when_bind, when_bind]
  refine .branch 2 h (fun hcut => ?copied) (fun hcut hle => ?inside) (fun hword => ?beyond) (fun _ _ hcut => ?taken)
    fun _ => htail (.refl c) h
  case copied =>
    simp only [Bool.and_eq_true]
    exact .imp (hcut.of_copy (told_is "asserts")) (hcut.of_copy told_isWord)
  case inside =>
    rw [hcut.sees "asserts" (by omega), hcut.inside told_isWord (by omega)]
    exact id
  case beyond =>
    rw [Bool.and_eq_true] at hword
    refine over_skip h.last (Token.not_isEnd_of_is hword.1) fun t d _ hd => ?_
    refine (hr.closes.type (.refl hd.last)).bind fun _ e he => (forth_accept "is" he.forth.here).bind fun _ x hx => ?_
    have hover := (hd.trans he.over).trans hx.1.over
    exact .ite (fun _ => (hr.closes.type hx.1.here).bind fun _ _ hy => .pure (hover.trans hy.forth.over)) fun _ => .pure hover
  case taken => exact .bind h (recalls_skip h) fun _ _ _ _ hd hat => htail hd hat

theorem recalls_functionType (h : o.At near c c') :
    o.Recalls near false (TypeExpr.redocument o.docs) (functionType rules) (functionType rules') c c' := by
  simp only [functionType, recalls_get_bind, recalls_sees_bind]
  refine .bind h (recalls_when_skipBalanced h (fun hcut => hcut.of_copy (told_is "<")) fun hcut hlt => ?_) fun _ d d' _ hd hat => ?_
  · rw [hcut.sees "<" hlt]
    exact id
  simp only [recalls_sees_bind]
  refine recalls_demand hat (told_is "(") (fun _ => ?_) fun _ => ?_
  · exact (ended_skipBalanced (.refl hat.last)).bind fun _ _ h₁ => (forth_expected "=>" h₁.forth).bind fun _ _ h₂ =>
      (ended_returnType hr.closes h₂).bind fun _ _ h₃ => .pure h₃.over
  · refine .bind hat (recalls_skipBalanced hat) fun _ e e' _ he hat => .bind hat (recalls_expect "=>" hat) fun _ x x' _ hx hat =>
      .bind hat (recalls_returnType hr hat) fun _ y y' _ hy hat => ?_
    exact recalls_textSince_bind h (hd.trans (he.trans (hx.trans hy))) hat fun _ => .stay hat (by simp)

/-! ## Members of object shapes -/

theorem recalls_skipPiece (h : o.At true c c') : o.Recalls true false id (skipPiece rules) (skipPiece rules') c c' := by
  rcases h.place with hcut | hbeyond
  · simp only [skipPiece, recalls_peek_bind, hcut.present (told_isOneOf _)]
    refine .alike .rfl (fun _ => recalls_skipBalanced h) fun _ =>
      .bind h (recalls_acceptEither ":" "=>" h) fun taken d d' _ _ hat =>
      .alike .rfl (fun _ => ?_) fun _ => recalls_skip hat
    exact .bind hat (hr.type rfl rfl hat) fun _ _ _ _ _ hat => .stay hat rfl
  · exact .beyond hbeyond (forth_skipPiece hr.closes h.forth)

omit hr in
theorem over_skipPiece (hr : rules.Close) (hlast : c.last.isEnd = true) (hend : c.peek.isEnd = false) :
    Answers (skipPiece rules) c fun _ d => Over 1 c d := by
  simp only [skipPiece, answers_peek_bind]
  refine .ite (fun _ => (ended_skipBalanced (.refl hlast)).mono fun _ _ => Ended.over) fun _ => ?_
  have heither : Answers (acceptEither ":" "=>") c fun taken d => c.Forth d ∧ (taken = false → d = c) :=
    (forth_acceptEither ":" "=>" (.refl hlast)).and fun taken d hrun ht => acceptEither_false (ht ▸ hrun)
  refine heither.bind fun taken d hd => .ite (fun _ => ?_) fun htaken => ?_
  · exact (hr.type hd.1).bind fun _ _ he => .pure he.over
  · obtain rfl := hd.2 (Bool.eq_false_iff.2 htaken)
    exact over_next hlast hend fun _ _ _ he => .pure he

theorem recalls_skipSignature (h : o.At true c c') : o.Recalls true false id (skipSignature rules) (skipSignature rules') c c' := by
  refine recalls_loop_of_takes (S := id) () h (fun _ d d' _ hat => ?_) fun _ d hlast => ?_
  · rcases hat.place with hcut | hbeyond
    · simp only [signatureRound, recalls_get_bind, hcut.sees_now, hcut.not_end]
      exact .alike .rfl (fun _ => .stay hat rfl) fun _ => .bind hat (recalls_skipPiece hr hat) fun _ _ _ _ _ hat => .stay hat rfl
    · exact .beyond hbeyond (forth_signatureRound hr.closes hat.forth)
  · simp only [signatureRound, answers_get_bind]
    refine .ite (fun _ => answers_done) fun hgo => ?_
    simp only [Bool.or_eq_true, not_or, Bool.not_eq_true] at hgo
    exact (over_skipPiece hr.closes hlast hgo.2).bind fun _ _ he => .pure fun _ _ => he

theorem recalls_methodType (h : o.At true c c') :
    o.Recalls true false (TypeExpr.redocument o.docs) (methodType rules) (methodType rules') c c' := by
  simp only [methodType, recalls_get_bind, recalls_sees_bind]
  refine .bind h (recalls_when_skipBalanced h (fun hcut => hcut.of_copy (told_is "<")) fun hcut hlt => ?_) fun _ d d' _ hd hat =>
    .bind hat (recalls_skipBalanced hat) fun _ e e' _ he hat => recalls_textSince_bind h (hd.trans he) hat fun parameters => ?_
  · rw [hcut.sees "<" hlt]
    exact id
  · have hresult : o.Recalls true false id (resultText rules) (resultText rules') e e' :=
      .bind hat (recalls_accept ":" hat) fun taken x x' _ _ hat => .alike .rfl (fun _ => ?_) fun _ => .stay hat rfl
    · exact .bind hat hresult fun _ _ _ _ _ hat => .stay hat (by simp)
    · exact .bind hat (recalls_returnType hr hat) fun _ _ _ _ _ hat => .stay hat (by simp)

theorem recalls_memberType (h : o.At true c c') :
    o.Recalls true false (TypeExpr.redocument o.docs) (memberType rules) (memberType rules') c c' := by
  rcases h.place with hcut | hbeyond
  · simp only [memberType, recalls_get_bind, hcut.sees_now]
    refine .alike .rfl (fun _ => recalls_methodType hr h) fun _ => .bind h (recalls_accept ":" h) fun taken d d' _ _ hat =>
      .alike .rfl (fun _ => hr.type rfl rfl hat) fun _ => .stay hat (by simp)
  · exact .beyond hbeyond (forth_memberType hr.closes h.forth)

omit hr in
/-- Whether a modifier is followed by what it modifies is told by the copies. -/
theorem told_following : o.Told fun t => t.isWord || t.isString || t.isNumber || t.isOneOf ["["] :=
  ((told_isWord.or told_isString).or told_isNumber).or (told_isOneOf _)

omit hr in
theorem recalls_readonly (h : o.At true c c') : o.Recalls true false id (loop readonlyRound ()) (loop readonlyRound ()) c c' := by
  refine recalls_loop_of_takes (S := id) () h (fun _ d d' _ hat => ?_) fun _ d hlast => ?_
  · simp only [readonlyRound, recalls_get_bind]
    refine .branch 1 hat (fun hcut => ?copied) (fun hcut hle => ?inside) (fun hmodified => ?beyond)
      (fun _ hmodified hcut => ?taken) fun _ =>
      .stay hat rfl
    case copied =>
      simp only [beginsModified, Bool.and_eq_true]
      exact .imp (hcut.of_copy (told_is "readonly")) (hcut.of_copy told_following)
    case inside =>
      rw [Bool.toNat_true] at hle
      have hfollowing := hcut.inside (n := 1) told_following (by omega)
      rw [beginsModified, beginsModified, hcut.sees_now, hfollowing]
      exact id
    case beyond =>
      rw [beginsModified, Bool.and_eq_true] at hmodified
      exact over_next hat.last (Token.not_isEnd_of_is hmodified.1) fun _ _ _ he => .pure he
    case taken => exact recalls_next_bind hcut hcut.lt fun _ _ _ _ _ _ _ _ hat => .stay hat rfl
  · simp only [readonlyRound, answers_get_bind]
    refine .ite (fun hmodified => ?_) fun _ => answers_done
    rw [beginsModified, Bool.and_eq_true] at hmodified
    exact over_next hlast (Token.not_isEnd_of_is hmodified.1) fun _ _ _ he => .pure fun _ _ => he

omit hr in
theorem recalls_separators (h : o.At near c c') :
    o.Recalls near false id (loop separatorRound ()) (loop separatorRound ()) c c' := by
  refine recalls_loop_of_takes (S := id) () h (fun _ d d' _ hat => ?_) fun _ d hlast => ?_
  · exact .bind hat (recalls_acceptEither ";" "," hat) fun _ _ _ _ _ hat => .alike .rfl (fun _ => .stay hat rfl)
      fun _ => .stay hat rfl
  · have heither : Answers (acceptEither ";" ",") d fun taken e => taken = true → Over 1 d e :=
      (over_accept ";" hlast).bind fun taken e he => .ite (fun htaken => .pure fun _ => he.2 htaken) fun _ =>
        (over_accept "," he.1.last).mono fun _ _ hx htaken => he.1.over.trans (hx.2 htaken)
    exact heither.bind fun _ _ he => .ite (fun htaken => .pure fun _ _ => he htaken) fun _ => answers_done

theorem recalls_behindName {docs docs' : DocComment} {name name' : Token} (hdocs : docs' = o.docs docs)
    (hname : name.Copied o.source o.text o.docs name') (h : o.At true c c') :
    o.Recalls true false (Option.map (·.redocument o.docs)) (behindName rules docs name) (behindName rules' docs' name') c c' := by
  rw [behindName, behindName, hname.value, told_isWord.same hname, told_isString.same hname, told_isNumber.same hname]
  have hknown : o.Recalls true false id
      (Parser.when (!(name.isWord || name.isString || name.isNumber)) (rejectAt name (.unexpectedInObject name.raw)))
      (Parser.when (!(name.isWord || name.isString || name.isNumber)) (rejectAt name' (.unexpectedInObject name'.raw))) c c' :=
    .alike .rfl (fun _ => recalls_rejectAt) fun _ => .stay h rfl
  refine .bind h hknown fun _ d d' _ _ hat => .bind hat (recalls_accept "?" hat) fun optional e e' _ _ hat =>
    .bind hat (recalls_memberType hr hat) fun type _ _ _ _ hat => .stay hat ?_
  rw [hdocs]
  rfl

omit hr in
theorem over_skipSignature (hr : rules.Close) (hlast : c.last.isEnd = true)
    (hgo : (c.sees ";" || c.sees "," || c.sees "\x7d" || c.peek.isEnd) = false) :
    Answers (skipSignature rules) c fun _ d => Over 1 c d := by
  refine answers_loop (I := fun _ d => d = c ∨ Over 1 c d) (.inl rfl) fun _ d hd => ?_
  simp only [signatureRound, answers_get_bind]
  rcases hd with rfl | hd
  · rw [hgo, if_neg Bool.false_ne_true]
    rw [Bool.or_eq_false_iff] at hgo
    exact (over_skipPiece hr hlast hgo.2).bind fun _ _ he => .pure (.inr he)
  · exact .ite (fun _ => .pure hd) fun _ => (forth_skipPiece hr (.refl hd.last)).bind fun _ _ he => .pure (.inr (hd.trans he.over))

omit hr in
/-- A signature begins with a token that does not end it. -/
theorem over_signature (hr : rules.Close) (hlast : c.last.isEnd = true) (hw : c.peek.is word = true)
    (hne : ∀ v ∈ ([";", ",", "\x7d"] : List Text), word ≠ v) : Answers (skipSignature rules) c fun _ d => Over 1 c d := by
  refine over_skipSignature hr hlast ?_
  have hnot (v : Text) (hv : v ∈ ([";", ",", "\x7d"] : List Text)) : c.sees v = false := Token.is_ne hw (hne v hv)
  rw [hnot ";" (by decide), hnot "," (by decide), hnot "\x7d" (by decide), Token.not_isEnd_of_is hw]
  rfl

omit hr in
theorem over_accessor (hr : rules.Close) (hlast : c.last.isEnd = true) (hword : (c.sees "get" || c.sees "set") = true) :
    Answers (skipSignature rules) c fun _ d => Over 1 c d := by
  rcases Bool.or_eq_true_iff.1 hword with h | h
  · exact over_signature hr hlast h (by decide)
  · exact over_signature hr hlast h (by decide)

theorem recalls_unmodified {docs docs' : DocComment} (hdocs : docs' = o.docs docs) (h : o.At true c c') :
    o.Recalls true false (Option.map (·.redocument o.docs)) (unmodified rules docs) (unmodified rules' docs') c c' := by
  have hsigned {d d' : Cursor} (hat : o.At true d d') : o.Recalls true false (Option.map (·.redocument o.docs)) (do
      skipSignature rules
      return none : Parser (Option (Property TypeExpr))) (do
      skipSignature rules'
      return none) d d' := .bind hat (recalls_skipSignature hr hat) fun _ _ _ _ _ hat => .stay hat rfl
  rcases h.place with hcut | hbeyond
  · have hsecond (hle : o.behind.rest.length + Bool.toNat true + 1 ≤ c.rest.length) : o.behind.rest.length + 1 < c.rest.length := by
      rw [Bool.toNat_true] at hle
      omega
    simp only [unmodified, recalls_get_bind, hcut.sees_now]
    -- a branch on the second token may look beyond the cut; the longer run then ends beyond it too
    refine .alike .rfl (fun _ => hsigned h) fun _ => .branch 1 h (fun _ => ?new_copied) (fun _ hle => ?new_inside)
      (fun hnew => ?new_beyond) (fun _ _ _ => ?new_taken) fun _ =>
      .branch 1 h (fun _ => ?accessor_copied) (fun _ hle => ?accessor_inside) (fun haccessor => ?accessor_beyond)
      (fun _ _ _ => hsigned h) fun _ => ?named
    case new_copied =>
      simp only [Bool.and_eq_true, Bool.or_eq_true]
      exact .imp id (.imp (hcut.of_copy (told_is "(")) (hcut.of_copy (told_is "<")))
    case new_inside =>
      rw [hcut.sees "(" (hsecond hle), hcut.sees "<" (hsecond hle)]
      exact id
    case new_beyond =>
      rw [Bool.and_eq_true] at hnew
      refine over_next h.last (Token.not_isEnd_of_is hnew.1) fun _ d _ hd => ?_
      exact (forth_skipSignature hr.closes (.refl hd.last)).bind fun _ _ he => .pure (hd.trans he.over)
    case new_taken => exact recalls_next_bind hcut hcut.lt fun _ _ _ _ _ _ _ _ hat => hsigned hat
    case accessor_copied =>
      simp only [Bool.and_eq_true, Bool.or_eq_true]
      exact .imp id (.imp (hcut.of_copy told_isWord) (hcut.of_copy told_isString))
    case accessor_inside =>
      rw [hcut.inside told_isWord (hsecond hle), hcut.inside told_isString (hsecond hle)]
      exact id
    case accessor_beyond =>
      rw [Bool.and_eq_true] at haccessor
      exact (over_accessor hr.closes h.last haccessor.1).bind fun _ _ hd => .pure hd
    case named => exact recalls_next_bind hcut hcut.lt fun u v _ _ _ _ _ hcopy hat => recalls_behindName hr hdocs hcopy hat
  · exact .beyond hbeyond (forth_unmodified hr.closes h.forth)

theorem recalls_member (h : o.At true c c') :
    o.Recalls true false (Option.map (·.redocument o.docs)) (member rules) (member rules') c c' := by
  rw [member_eq, member_eq]
  rcases h.place with hcut | hbeyond
  · simp only [recalls_peek_bind]
    exact .bind h (recalls_readonly h) fun _ _ _ _ _ hat => recalls_unmodified hr hcut.docs hat
  · simpa only [← member_eq] using Recalls.beyond hbeyond (forth_member hr.closes h.forth)

omit hr in
theorem over_member (hr : rules.Close) (hlast : c.last.isEnd = true) : Answers (member rules) c fun _ d => Over 1 c d := by
  have hsigned {d : Cursor} (h : Answers (skipSignature rules) d fun _ e => Over 1 d e) : Answers (do
      skipSignature rules
      return none : Parser (Option (Property TypeExpr))) d fun _ e => Over 1 d e := h.bind fun _ _ he => .pure he
  rw [member_eq]
  simp only [answers_peek_bind]
  refine (forth_readonly (.refl hlast)).bind fun _ d hd => Answers.mono ?_ fun _ e (he : Over 1 d e) => hd.over.trans he
  simp only [unmodified, answers_get_bind]
  refine .ite (fun hopen => hsigned ?signed) fun _ => .ite (fun hnew => ?new) fun _ => .ite (fun haccessor => ?accessor)
    fun _ => ?named
  case signed =>
    obtain ⟨w, hw, hne⟩ : ∃ w : Text, d.peek.is w = true ∧ ∀ v ∈ ([";", ",", "\x7d"] : List Text), w ≠ v := by
      rw [Bool.or_eq_true, Bool.or_eq_true] at hopen
      rcases hopen with (h | h) | h
      · exact ⟨_, h, by decide⟩
      · exact ⟨_, h, by decide⟩
      · exact ⟨_, h, by decide⟩
    exact over_signature hr hd.last hw hne
  case new =>
    rw [Bool.and_eq_true] at hnew
    refine over_next hd.last (Token.not_isEnd_of_is hnew.1) fun _ e _ he => ?_
    exact (forth_skipSignature hr (.refl he.last)).bind fun _ _ hx => .pure (he.trans hx.over)
  case accessor =>
    rw [Bool.and_eq_true] at haccessor
    exact hsigned (over_accessor hr hd.last haccessor.1)
  case named =>
    by_cases hend : d.peek.isEnd = true
    · refine (forth_next (.refl hd.last)).bind fun t e ht => ?_
      exact fun a x hrun => absurd hrun (refuses_behindName (ht.1 ▸ hend) (a, x))
    · refine over_next hd.last (Bool.eq_false_iff.2 hend) fun t e _ he => ?_
      refine (forth_when (.refl he.last) fun _ => answers_rejectAt).bind fun _ x hx => (forth_accept "?" hx).bind fun _ y hy =>
        (forth_memberType hr hy.1).bind fun _ _ hz => .pure (he.trans hz.over)

theorem recalls_membersRound (found : List (Property TypeExpr)) (h : o.At true c c') :
    o.Recalls true false (Turn.map (List.map (·.redocument o.docs)) (List.map (·.redocument o.docs))) (membersRound rules found)
      (membersRound rules' (found.map (·.redocument o.docs))) c c' := by
  rcases h.place with hcut | hbeyond
  · simp only [membersRound, recalls_get_bind, hcut.sees_now, hcut.not_end]
    refine .alike .rfl (fun _ => .stay h ?_) fun _ => .bind (F := id) h (.alike .rfl nofun fun _ => .stay h rfl)
      fun _ d d' _ _ hat =>
      .bind hat (recalls_member hr hat) fun m e e' _ _ hat => .bind hat (recalls_separators hat) fun _ _ _ _ _ hat => .stay hat ?_
    · rw [Turn.map, List.map_reverse]
    · cases m <;> rfl
  · exact .beyond hbeyond (forth_membersRound hr.closes h.forth)

theorem recalls_members (h : o.At near c c') :
    o.Recalls near false (List.map (·.redocument o.docs)) (members rules) (members rules') c c' := by
  refine .bind h (recalls_expect "\x7b" h) fun _ d d' _ _ hat => .wanted (F := List.map (·.redocument o.docs)) hat (fun hat => ?_)
    (fun found e hlast => ?_) fun found e e' _ _ hcut => ?_
  · refine recalls_loop_of_takes (S := List.map (·.redocument o.docs)) [] hat
      (fun found e e' _ hat => recalls_membersRound hr found hat) fun found e hlast => ?_
    simp only [membersRound, answers_get_bind]
    refine .ite (fun _ => answers_done) fun _ => (forth_demand (.refl hlast)).bind fun _ x hx => ?_
    refine (over_member hr.closes hx.last).bind fun _ y hy =>
      (forth_separators (.refl hy.last)).bind fun _ z hz => .pure fun _ _ => ?_
    exact (hx.over.trans hy).trans hz.over
  · exact (over_expect "\x7d" hlast).bind fun _ _ hx => .pure hx
  · exact .bind hcut.closer.at_ (recalls_expect "\x7d" hcut.closer.at_) fun _ _ _ _ _ hat => .stay hat rfl

end

end TypeGrammar

end WireSchema
