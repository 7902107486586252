import WireSchema.Proofs.Grammar.Behind
import WireSchema.Proofs.Grammar.Ahead
import WireSchema.Proofs.Grammar.Spacing
/-!
# Declarations behind other statements

Statements that declare no type are passed over, in as many pieces as it takes,
and what is passed over does not change the declarations behind.
-/

namespace WireSchema

open Source Source.Cursor Source.Parser

/-! ## Two texts on lines of their own -/

namespace Source

section
variable {source other : Text} {ts us : List Token} {u last : Token}

/-- A text behind a line feed keeps its tokens; the first one is told of the line feed. -/
theorem tokenize_line (htokens : tokenize source 0 source.length = .ok (ts ++ [last])) (hspace : last.spaceBefore = false)
    (hother : tokenize other 0 other.length = .ok (u :: us)) :
    tokenize (source ++ ("\n" ++ other)) 0 (source ++ ("\n" ++ other)).length =
      .ok (ts ++ (u.later (source.length + 1)).widen true :: us.map (·.later (source.length + 1))) := by
  have hlength : (source ++ (("\n" : Text) ++ other)).length = other.length + (source.length + 1) := by
    simp only [List.length_append, show ("\n" : Text).length = 1 from rfl]
    omega
  have hmoved : tokensFrom (other.length + (source.length + 1)) (source.length + 1) {} other =
      .ok ((u :: us).map (·.later (source.length + 1))) := by
    have hwithin := tokensFrom_within (k := source.length + 1) (.inl rfl) parted_nil (Nat.zero_le _) rfl hother
    rw [slice_length, List.append_nil, Nat.zero_add] at hwithin
    exact hwithin
  have hline : tokensFrom (other.length + (source.length + 1)) (source.length + 0) {} ("\n" ++ other) =
      .ok ((u.later (source.length + 1)).widen true :: us.map (·.later (source.length + 1))) := by
    have hblank : (CodePoint.ofChar '\n').isBlank = true := by decide
    have hpiece (stop at_ : Nat) : readPiece stop at_ {} (CodePoint.ofChar '\n') other = .ok (.gap (Gap.widen true {}) 0) := by
      rw [readPiece, if_pos hblank]
      rfl
    change tokensFrom _ _ {} (CodePoint.ofChar '\n' :: other) = _
    rw [tokensFrom, if_neg (by omega), hpiece]
    exact tokensFrom_widen true hmoved
  rw [tokenize, hlength, List.drop_zero]
  have hbehind := tokenize_behind (k := 0) htokens hspace (parted_cons (by decide) other) (by omega) hline
  rw [List.map_congr_left fun t _ => Token.later_zero t, List.map_id'] at hbehind
  exact hbehind

end

end Source

namespace DeclarationGrammar

/-- Tokens that hold no declaration: their brackets are closed, `awaited` being
open before them; outside of all brackets there is no word that starts a
declaration; a semicolon or a brace comes last. -/
structure Foreign (awaited : List Text) (ts : List Token) : Prop where
  nested : awaitedBehind awaited ts = some []
  start : ∀ before t after, ts = before ++ t :: after → awaitedBehind awaited before = some [] →
    startWords.any t.is = false
  last : ∀ t, ts.getLast? = some t → t.isOneOf [";", "\x7d"] = true

section
variable {awaited awaited' : List Text} {t : Token} {ts us : List Token} {c : Cursor} {rules : Rules}
  {depth : Int} {isFirst : Bool}

/-- Whether tokens hold no declaration can be computed place by place. -/
theorem foreign_iff : Foreign awaited ts ↔ awaitedBehind awaited ts = some [] ∧
    (∀ i (hi : i < ts.length), awaitedBehind awaited (ts.take i) = some [] → startWords.any ts[i].is = false) ∧
    ∀ t ∈ ts.getLast?, t.isOneOf [";", "\x7d"] = true := by
  constructor
  · intro h
    refine ⟨h.nested, fun i hi hnested => ?_, h.last⟩
    exact h.start (ts.take i) ts[i] (ts.drop (i + 1)) (by simp) hnested
  · rintro ⟨hnested, hstart, hlast⟩
    refine ⟨hnested, ?_, hlast⟩
    rintro before t after rfl hbefore
    have hplace := hstart before.length (by simp) (by simpa using hbefore)
    simpa using hplace

instance : Decidable (Foreign awaited ts) := decidable_of_iff _ foreign_iff.symm

/-- What is behind a token holds no declaration either. -/
theorem Foreign.behind (h : Foreign awaited (t :: ts)) (hturn : t.turn? awaited = some awaited') : Foreign awaited' ts := by
  obtain ⟨outer, houter, hnested⟩ := awaitedBehind_cons.1 h.nested
  rw [hturn, Option.some_inj] at houter
  subst houter
  refine ⟨hnested, fun before u after hts hbefore => ?_, fun u hu => h.last u ?_⟩
  · exact h.start (t :: before) u after (by rw [hts]; rfl) (awaitedBehind_cons.2 ⟨_, hturn, hbefore⟩)
  · cases ts with
    | nil => cases hu
    | cons v ts => rw [List.getLast?_cons_cons, hu]

/-- One more token of a statement, unless it ends here. -/
def skipRound (state : Int × Bool) : Parser (Turn (Int × Bool) Unit) := do
  let (depth, isFirst) := state
  let token ← peek
  if token.isEnd then return .done ()
  else if !isFirst && depth ≤ 0 && token.lineBreak && token.isWord && startWords.contains token.raw then
    return .done ()
  else
    let _ ← next
    if token.isOneOf ["(", "[", "\x7b"] then return .again (depth + 1, false)
    else if token.isOneOf [")", "]", "\x7d"] then
      if depth ≤ 1 && token.isOneOf ["\x7d"] then return .done ()
      else return .again (depth - 1, false)
    else if token.isOneOf [";"] && depth ≤ 0 then return .done ()
    else return .again (depth, false)

/-- Outside of all brackets no word starts a declaration. -/
theorem Foreign.not_start (h : Foreign awaited (t :: ts)) :
    (!isFirst && (awaited.length : Int) ≤ 0 && t.lineBreak && t.isWord && startWords.contains t.raw) = false := by
  refine Bool.eq_false_iff.2 fun hstart => ?_
  simp only [Bool.and_eq_true, decide_eq_true_eq, List.contains_iff_mem] at hstart
  obtain ⟨⟨⟨⟨_, hdepth⟩, _⟩, hword⟩, hmem⟩ := hstart
  have hnil : awaited = [] := List.length_eq_zero_iff.1 (by omega)
  have hany : startWords.any t.is = true :=
    List.any_eq_true.2 ⟨t.raw, hmem, by rw [Token.is, hword, Bool.true_or, Bool.true_and, beq_self_eq_true]⟩
  rw [h.start [] t ts rfl (by rw [hnil]; rfl)] at hany
  cases hany

theorem ends_cases (h : t.isOneOf [";", "\x7d"] = true) : t.isOneOf [";"] = true ∨ t.isOneOf ["\x7d"] = true := by
  obtain ⟨hmark, hmem⟩ := isOneOf_iff.1 h
  rcases List.mem_cons.1 hmem with hraw | hraw
  · exact .inl (isOneOf_iff.2 ⟨hmark, List.mem_singleton.2 hraw⟩)
  · exact .inr (isOneOf_iff.2 ⟨hmark, hraw⟩)

/-- A round goes on with the brackets that are open behind the token, or ends
the statement where none is. Behind the last token it ends. -/
theorem skipRound_foreign (h : Foreign awaited (t :: ts)) (hturn : t.turn? awaited = some awaited') (hend : t.isEnd = false) :
    ts ≠ [] ∧ skipRound ((awaited.length : Int), isFirst) (c.before (t :: ts)) =
        .ok (.again ((awaited'.length : Int), false), c.before ts) ∨
      awaited' = [] ∧ skipRound ((awaited.length : Int), isFirst) (c.before (t :: ts)) = .ok (.done (), c.before ts) := by
  have hnested := (h.behind hturn).nested
  -- the last token closes the statement, so nothing is awaited behind it
  have hlast : ts = [] → awaited' = [] ∧ t.isOneOf [";", "\x7d"] = true := by
    rintro rfl
    exact ⟨Option.some_inj.1 hnested, h.last t rfl⟩
  simp only [skipRound, bind_apply, peek_apply, peek_before, ok_bind, hend, h.not_start, Bool.false_eq_true, if_false,
    next_before]
  cases nests_of_turn? hturn with
  | opens hopen =>
    refine .inl ⟨fun hts => ?_, ?_⟩
    · cases (hlast hts).1
    · rw [if_pos hopen, List.length_cons]
      rfl
  | closes hopen hclose =>
    simp only [hopen, Bool.false_eq_true, if_false, hclose, if_true, List.length_cons]
    by_cases hbrace : (decide ((awaited'.length + 1 : Nat) ≤ (1 : Int)) && t.isOneOf ["\x7d"]) = true
    · rw [if_pos hbrace]
      rw [Bool.and_eq_true, decide_eq_true_eq] at hbrace
      exact .inr ⟨List.length_eq_zero_iff.1 (by omega), rfl⟩
    · rw [if_neg hbrace]
      refine .inl ⟨fun hts => hbrace ?_, ?_⟩
      · obtain ⟨rfl, hends⟩ := hlast hts
        rw [Bool.and_eq_true]
        refine ⟨rfl, (ends_cases hends).resolve_left fun hsemicolon => ?_⟩
        have hmem := (isOneOf_iff.1 hclose).2
        rw [List.mem_singleton.1 (isOneOf_iff.1 hsemicolon).2] at hmem
        revert hmem
        decide
      · rw [show ((awaited'.length + 1 : Nat) : Int) - 1 = awaited'.length by omega]
        rfl
  | plain hopen hclose =>
    simp only [hopen, hclose, Bool.false_eq_true, if_false]
    by_cases hsemicolon : (t.isOneOf [";"] && decide ((awaited.length : Int) ≤ 0)) = true
    · rw [if_pos hsemicolon]
      rw [Bool.and_eq_true, decide_eq_true_eq] at hsemicolon
      exact .inr ⟨List.length_eq_zero_iff.1 (by omega), rfl⟩
    · rw [if_neg hsemicolon]
      refine .inl ⟨fun hts => hsemicolon ?_, rfl⟩
      obtain ⟨rfl, hends⟩ := hlast hts
      rw [Bool.and_eq_true]
      refine ⟨(ends_cases hends).resolve_right fun hbrace => ?_, rfl⟩
      obtain ⟨hmark, hmem⟩ := isOneOf_iff.1 hbrace
      rw [isOneOf_iff.2 ⟨hmark, List.mem_cons_of_mem _ (List.mem_cons_of_mem _ hmem)⟩] at hclose
      cases hclose

/-- Passing over a statement stops outside of all brackets and behind a token. -/
theorem rounds_foreign (c : Cursor) (isFirst : Bool) (h : Foreign awaited ts) (hne : ts ≠ [])
    (hends : ∀ t ∈ ts, t.isEnd = false) {n : Nat}
    (hn : ts.length ≤ n) :
    ∃ us, us.length < ts.length ∧ us <:+ ts ∧ Foreign [] us ∧
      rounds skipRound n ((awaited.length : Int), isFirst) (c.before ts) = .ok ((), c.before us) := by
  induction ts generalizing awaited isFirst n with
  | nil => exact absurd rfl hne
  | cons t ts ih =>
    obtain ⟨n, rfl⟩ : ∃ m, n = m + 1 := ⟨n - 1, by rw [List.length_cons] at hn; omega⟩
    obtain ⟨awaited', hturn, hnested⟩ := awaitedBehind_cons.1 h.nested
    have hbehind := h.behind hturn
    have hlength : ts.length < (t :: ts).length := Nat.lt_succ_self _
    rcases skipRound_foreign (c := c) h hturn (hends t List.mem_cons_self) with ⟨hts, hround⟩ | ⟨rfl, hround⟩
    · rw [rounds_again hround]
      obtain ⟨us, hus, hsuffix, hforeign, hrounds⟩ :=
        ih false hbehind hts (fun u hu => hends u (List.mem_cons_of_mem t hu)) (Nat.le_of_succ_le_succ hn)
      exact ⟨us, Nat.lt_trans hus hlength, hsuffix.trans (List.suffix_cons t ts), hforeign, hrounds⟩
    · exact ⟨ts, hlength, List.suffix_cons t ts, hbehind, rounds_done hround (Nat.succ_pos n)⟩

/-- A statement passes over foreign tokens in part and behind one at least. -/
theorem statement_foreign (rules : Rules) (c : Cursor) (h : Foreign [] ts) (hne : ts ≠ []) (hends : ∀ t ∈ ts, t.isEnd = false) :
    ∃ us, us.length < ts.length ∧ us <:+ ts ∧ Foreign [] us ∧ statement rules (c.before ts) = .ok (none, c.before us) := by
  cases ts with
  | nil => exact absurd rfl hne
  | cons t ts =>
  have hnot (w : Text) (hw : w ∈ startWords) : t.is w = false := by
    have hany := h.start [] t ts rfl rfl
    exact Bool.eq_false_iff.2 fun his => Bool.eq_false_iff.1 hany (List.any_eq_true.2 ⟨w, hw, his⟩)
  obtain ⟨awaited', hturn, _⟩ := awaitedBehind_cons.1 h.nested
  by_cases hsemicolon : t.is ";" = true
  · have hplain : t.turn? [] = some [] := turn?_plain hsemicolon (by decide)
    refine ⟨ts, Nat.lt_succ_self _, List.suffix_cons t ts, h.behind hplain, ?_⟩
    simp [statement, accept_before hsemicolon]
  · obtain ⟨us, hlength, hsuffix, hforeign, hskip⟩ :=
      rounds_foreign c true h hne hends (n := (c.before (t :: ts)).rest.length + 1) (by simp; omega)
    refine ⟨us, hlength, hsuffix, hforeign, ?_⟩
    have hskip : skipStatement (c.before (t :: ts)) = .ok ((), c.before us) := hskip
    -- the words of a constant enumeration would have to stand side by side
    have hconst : ((c.before (t :: ts)).sees "const" && (c.before (t :: ts)).sees "enum" 1) = false := by
      refine Bool.eq_false_iff.2 fun hboth => ?_
      rw [Bool.and_eq_true] at hboth
      have hplain : t.turn? [] = some [] := turn?_plain hboth.1 (by decide)
      cases ts with
      | nil =>
        have hraw : t.raw = "const" := by
          have his := hboth.1
          rw [sees_before, Token.is, Bool.and_eq_true] at his
          exact beq_iff_eq.1 his.2
        have hmem := (isOneOf_iff.1 (h.last t rfl)).2
        rw [hraw] at hmem
        revert hmem
        decide
      | cons u ts =>
        have hany := h.start [t] u ts rfl (awaitedBehind_cons.2 ⟨[], hplain, rfl⟩)
        rw [List.any_eq_false] at hany
        exact hany "enum" (by decide) hboth.2
    have hmodifiers : loop (fun () => do
        if ← acceptEither "export" "declare" then return .again () else return .done () : Unit → Parser (Turn Unit Unit)) ()
          (c.before (t :: ts)) = .ok ((), c.before (t :: ts)) :=
      loop_done (by simp [acceptEither_of_not_sees (c := c.before (t :: ts)) (hnot "export" (by decide))
      (hnot "declare" (by decide))])
    have hnone {w : Text} {b : Bool} (hw : w ∈ startWords) : ¬ ((c.before (t :: ts)).sees w && b) = true := by
      rw [sees_before, hnot w hw, Bool.false_and]
      exact Bool.false_ne_true
    refine bind_ok.2 ⟨_, _, rfl, bind_ok.2 ⟨_, _, accept_of_not_sees (Bool.eq_false_iff.2 hsemicolon), ?_⟩⟩
    rw [if_neg Bool.false_ne_true]
    refine bind_ok.2 ⟨_, _, rfl, bind_ok.2 ⟨_, _, rfl, ?_⟩⟩
    rw [if_neg (hnone (by decide))]
    refine bind_ok.2 ⟨_, _, hmodifiers, bind_ok.2 ⟨_, _, rfl, ?_⟩⟩
    rw [if_neg (hnone (by decide)), if_neg (hnone (by decide)), if_neg (Bool.eq_false_iff.1 hconst)]
    refine bind_ok.2 ⟨_, _, rfl, ?_⟩
    rw [if_neg (hnone (by decide))]
    exact bind_ok.2 ⟨_, _, hskip, rfl⟩

/-- One more statement unless the input ends. -/
def statementsRound (rules : Rules) (found : List Declaration) : Parser (Turn (List Declaration) (List Declaration)) := do
  if (← peek).isEnd then return .done found.reverse
  else return .again ((← statement rules).toList ++ found)

theorem statements_eq (rules : Rules) : statements rules = loop (statementsRound rules) [] := rfl

/-- Foreign tokens are passed over, in as many statements as it takes. -/
theorem statements_foreign (h : Foreign [] ts) (hends : ∀ t ∈ ts, t.isEnd = false) {n : Nat} {found : List Declaration}
    {x : List Declaration × Cursor} (hrest : rounds (statementsRound rules) n found c = .ok x) :
    rounds (statementsRound rules) (ts.length + n) found (c.before ts) = .ok x := by
  induction hlength : ts.length using Nat.strongRecOn generalizing ts with
  | ind length ih =>
  subst hlength
  by_cases hne : ts = []
  · subst hne
    simpa using hrest
  obtain ⟨us, hus, hsuffix, hforeign, hstatement⟩ := statement_foreign rules c h hne hends
  have hround : statementsRound rules found (c.before ts) = .ok (.again found, c.before us) := by
    cases ts with
    | nil => exact absurd rfl hne
    | cons t ts =>
      simp only [statementsRound, bind_apply, peek_apply, peek_before, ok_bind, hends t List.mem_cons_self, Bool.false_eq_true,
        if_false, hstatement]
      rfl
  have hbehind := ih us.length hus hforeign (fun t ht => hends t (hsuffix.subset ht)) rfl
  obtain ⟨n', hn'⟩ : ∃ n', ts.length + n = n' + 1 := ⟨ts.length + n - 1, by omega⟩
  rw [hn', rounds_again hround]
  exact rounds_of_le (by omega) hbehind

theorem statements_end (hlast : c.last.isEnd = true) (h : c.rest = []) : statements rules c = .ok ([], c) := by
  rw [statements_eq]
  refine loop_done ?_
  simp only [statementsRound, bind_apply, peek_apply, ok_bind, peek_length_le (n := 0) (c := c) (by simp [h]), hlast, if_true]
  rfl

/-- What declares no type is passed over before declarations. -/
theorem statements_behind (h : Foreign [] ts) (hends : ∀ t ∈ ts, t.isEnd = false) {x : List Declaration × Cursor}
    (hx : statements rules c = .ok x) : statements rules (c.before ts) = .ok x := by
  rw [statements_eq, loop_apply] at hx ⊢
  rw [rest_before, List.length_append, Nat.add_assoc]
  exact statements_foreign h hends hx

end

/-! ## The gap before a statement -/

section
variable {t : Token} {c : Cursor} {rules : Rules}

/-- A statement that is passed over is not told apart by the start of its line. -/
theorem alike_skipStatement (hend : t.isEnd = false) : Alike true t c skipStatement := by
  refine alike_loop ?_
  change skipRound (0, true) (c.before [t.widen true]) = skipRound (0, true) (c.before [t])
  have hend' : (t.widen true).isEnd = false := hend
  simp only [skipRound, bind_apply, peek_apply, peek_before, ok_bind, hend, hend', Bool.false_eq_true, if_false, Bool.not_true,
    Bool.false_and, next_before]
  rfl

/-- A statement behind its documentation. -/
def documented (rules : Rules) (docs : DocComment) : Parser (Option Declaration) := do
  if ← accept ";" then return none
  else if (← sees "export") && (← sees "default" 1) then
    skipStatement
    return none
  else
    loop (fun () => do
      if ← acceptEither "export" "declare" then return .again () else return .done ()) ()
    let c ← get
    if c.sees "interface" && (c.peek 1).isWord then return some (← interface rules docs)
    else if c.sees "type" && (c.peek 1).isWord then return some (← typeAlias rules docs)
    else
      if c.sees "const" && c.sees "enum" 1 then
        let _ ← next
      let c ← get
      if c.sees "enum" && (c.peek 1).isWord then return some (← enumeration docs)
      else
        skipStatement
        return none

theorem statement_eq (rules : Rules) :
    statement rules = (do
      let docs := DocComment.ofBlocks (← peek).docs
      documented rules docs) := rfl

theorem alike_documented (hend : t.isEnd = false) (docs : DocComment) : Alike true t c (documented rules docs) := by
  have hskip : Alike true t c (do
      skipStatement
      return none : Parser (Option Declaration)) := (alike_skipStatement hend).bind _
  refine alike_accept_bind fun _ => ?_
  rw [if_neg Bool.false_ne_true]
  refine alike_sees_bind (alike_sees_bind (.ite (fun _ => hskip) fun _ => ?_))
  -- words before a declaration are taken, or none is there
  by_cases hmodifier : t.is "export" = true ∨ t.is "declare" = true
  · refine Alike.bind (alike_loop (Alike.bind ?_ _)) _
    refine alike_accept_bind fun hexport => alike_accept (hmodifier.resolve_left ?_)
    exact Bool.eq_false_iff.1 hexport
  · have hnot : t.is "export" = false ∧ t.is "declare" = false := by simpa using hmodifier
    have hloop {u : Token} (hexport : u.is "export" = false) (hdeclare : u.is "declare" = false) :
        loop (fun () => do
          if ← acceptEither "export" "declare" then return .again () else return .done () : Unit → Parser (Turn Unit Unit)) ()
            (c.before [u]) = .ok ((), c.before [u]) :=
      loop_done (by simp [acceptEither_of_not_sees (c := c.before [u]) hexport hdeclare])
    have hbehind {f : Unit → Parser (Option Declaration)} (hf : Alike true t c (f ())) : Alike true t c (loop (fun () => do
          if ← acceptEither "export" "declare" then return .again () else return .done () : Unit → Parser (Turn Unit Unit)) ()
            >>= f) := by
      rw [Alike, bind_apply, bind_apply, hloop hnot.1 hnot.2, hloop (u := t.widen true) hnot.1 hnot.2]
      exact hf
    refine hbehind (alike_get_bind rfl (.ite (fun _ => ?_) fun _ => .ite (fun _ => ?_) fun _ =>
      .ite (fun _ => alike_next_bind _) fun _ => alike_get_bind rfl (.ite (fun _ => ?_) fun _ => hskip)))
    · exact (alike_expect.bind _).bind _
    · exact (alike_expect.bind _).bind _
    · exact (alike_expect.bind _).bind _

/-- A statement does not ask for the gap before it, its documentation apart. -/
theorem alike_statement (hend : t.isEnd = false) : Alike true t c (statement rules) := by
  rw [statement_eq, Alike, bind_apply, bind_apply, peek_apply, peek_apply, ok_bind, ok_bind]
  exact alike_documented hend (DocComment.ofBlocks t.docs)

theorem alike_statements (hend : t.isEnd = false) : Alike true t c (statements rules) := by
  rw [statements_eq]
  refine alike_loop ?_
  have hend' : (t.widen true).isEnd = false := hend
  have hstatement : Alike true t c (statement rules) := alike_statement hend
  simp only [Alike, statementsRound, bind_apply, peek_apply, peek_before, ok_bind, hend, hend', Bool.false_eq_true,
    if_false] at hstatement ⊢
  rw [hstatement]

end

end DeclarationGrammar

namespace Declaration

/-- A text that declares no type: brackets are nested, outside of them no word
stands that starts a declaration, and the text ends with the last token, which
is a semicolon or a brace. -/
def Foreign (source : Text) : Prop :=
  ∃ ts t last, tokenize source 0 source.length = .ok (ts ++ [t, last]) ∧ DeclarationGrammar.Foreign [] (ts ++ [t]) ∧
    t.stop = source.length

/-- What declares no type does not change the declarations on the lines behind it. -/
theorem parse_line {source other : Text} {ds : List Declaration} (hforeign : Foreign source) (hparse : parse other = .ok ds) :
    parse (source ++ ("\n" ++ other)) = .ok ds := by
  obtain ⟨ts, t, last, htokens, hskipped, hstop⟩ := hforeign
  obtain ⟨tokens, hother, hparse⟩ := Except.bind_eq_ok.1 hparse
  obtain ⟨⟨found, e⟩, hfound, hparse⟩ := Except.bind_eq_ok.1 hparse
  cases hparse
  have haccounts := tokenize_accounts (.inl rfl) htokens
  have hspace := haccounts.space_last hstop
  have hsplit : ts ++ [t, last] = (ts ++ [t]) ++ [last] := (List.append_assoc ts [t] [last]).symm
  rw [hsplit] at htokens haccounts
  have hends : ∀ u ∈ ts ++ [t], u.isEnd = false := fun u hu => haccounts.not_isEnd hu
  obtain ⟨us, lastOther, rfl, hplaced, hlast, _⟩ := tokensFrom_placed (Nat.le_refl _) rfl hother
  -- alone and behind the text, the declarations are read alike
  let o : Place := ⟨source.length + 1, ⟨[], lastOther.later (source.length + 1)⟩⟩
  have hquiet : o.Quiet := ⟨rfl, by rw [Token.isEnd_later, hlast]⟩
  have hseam : Seam other o false (ofTokens (us ++ [lastOther])) :=
    ⟨by simpa [ofTokens] using hplaced, by simpa [ofTokens] using hlast, parts_of_isEnd _ hquiet.2, .inl hquiet⟩
  have hlength : (source ++ ("\n" : Text)).length = source.length + 1 := by simp; rfl
  have hrules : (Rules.of other).Repeat other (source.length + 1) (Rules.of (source ++ ("\n" ++ other))) := by
    have hrepeat := Rules.repeat_upTo other (source ++ ("\n" : Text)) [] parted_nil
      (n := other.length + 2) (m := (source ++ ("\n" ++ other)).length + 2) (by simp; omega)
    rw [List.append_nil, hlength, List.append_assoc] at hrepeat
    exact hrepeat
  have hrepeats : Repeats o false (DeclarationGrammar.statements (Rules.of other))
      (DeclarationGrammar.statements (Rules.of (source ++ ("\n" ++ other)))) (ofTokens (us ++ [lastOther])) :=
    DeclarationGrammar.repeats_statements hrules rfl hquiet hseam
  have hbehind := (hrepeats ds e hfound).2 fun hnear => absurd hnear Bool.false_ne_true
  cases us with
  | nil =>
    -- nothing is declared behind the text
    rw [DeclarationGrammar.statements_end hseam.last rfl] at hfound
    cases hfound
    let stop : Cursor := ⟨[], (lastOther.later (source.length + 1)).widen true⟩
    have hcursor : ofTokens (ts ++ [t] ++ [stop.last]) = stop.before (ts ++ [t]) := ofTokens_before (ts ++ [t]) [] stop.last
    refine Except.bind_eq_ok.2 ⟨_, tokenize_line htokens hspace hother, Except.bind_eq_ok.2 ⟨([], stop), ?_, rfl⟩⟩
    refine Eq.trans (congrArg _ hcursor) ?_
    exact DeclarationGrammar.statements_behind hskipped hends (DeclarationGrammar.statements_end hquiet.2 rfl)
  | cons u us =>
    have hend : u.isEnd = false := (tokenize_accounts (.inl rfl) hother).not_isEnd List.mem_cons_self
    let rest : Cursor := o.put ⟨us, lastOther⟩
    have hcursor : ofTokens (ts ++ [t] ++
        (u.later (source.length + 1)).widen true :: (us ++ [lastOther]).map (·.later (source.length + 1))) =
          (rest.before [(u.later (source.length + 1)).widen true]).before (ts ++ [t]) := by
      rw [List.map_append, List.map_singleton, ← List.cons_append, ofTokens_before]
      simp [rest, o, Place.put, Cursor.before]
    have hfirst : o.put (ofTokens (u :: us ++ [lastOther])) = rest.before [u.later (source.length + 1)] := by
      rw [ofTokens, List.dropLast_concat, List.getLastD_concat]
      rfl
    refine Except.bind_eq_ok.2 ⟨_, tokenize_line htokens hspace hother, Except.bind_eq_ok.2 ⟨(ds, o.put e), ?_, rfl⟩⟩
    refine Eq.trans (congrArg _ hcursor) (DeclarationGrammar.statements_behind hskipped hends ?_)
    have halike : Alike true (u.later (source.length + 1)) rest
        (DeclarationGrammar.statements (Rules.of (source ++ ("\n" ++ other)))) :=
      DeclarationGrammar.alike_statements (by rw [Token.isEnd_later, hend])
    rw [halike, ← hfirst]
    exact hbehind

/-- A statement that is passed over in two pieces, with a type behind it. -/
theorem parse_line_pieces :
    Foreign "x = \x7ba\x7d, b;" ∧
      parse "type T = string" = .ok [{ name := "T", docs := {}, body := .typeAlias [] (.keyword "string") }] ∧
      parse ("x = \x7ba\x7d, b;" ++ ("\n" ++ "type T = string")) =
        .ok [{ name := "T", docs := {}, body := .typeAlias [] (.keyword "string") }] := by
  let token (lexeme : Lexeme) (raw : Text) (start stop : Nat) (spaceBefore : Bool) : Token :=
    { lexeme, raw, start, stop, spaceBefore, lineBreak := lexeme == .endOfInput, docs := [] }
  have hforeign : Foreign "x = \x7ba\x7d, b;" :=
    ⟨[token .word "x" 0 1 false, token .mark "=" 2 3 true, token .mark "\x7b" 4 5 true,
      token .word "a" 5 6 false, token .mark "\x7d" 6 7 false, token .mark "," 7 8 false,
      token .word "b" 9 10 true], token .mark ";" 10 11 false, token .endOfInput [] 11 11 false,
      by cbv, by decide, rfl⟩
  have htokens : tokenize "type T = string" 0 ("type T = string" : Text).length =
      .ok [token .word "type" 0 4 false, token .word "T" 5 6 true, token .mark "=" 7 8 true,
        token .word "string" 9 15 true, token .endOfInput [] 15 15 false] := by cbv
  have hparse : parse "type T = string" = .ok [{ name := "T", docs := {}, body := .typeAlias [] (.keyword "string") }] := by
    rw [parse]
    exact (congrArg (· >>= _) htokens).trans rfl
  exact ⟨hforeign, hparse, parse_line hforeign hparse⟩

end Declaration

end WireSchema
