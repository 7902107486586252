import WireSchema.Declaration.Grammar
import WireSchema.Proofs.Grammar.Ahead
import WireSchema.Proofs.Grammar.Answers
/-!
# Enumerations

An enumeration is read member by member. What stands behind the `=` of a member
reaches up to the first comma or closing bracket outside of its own brackets, so
that no member is lost behind it; it is kept if it is a string or a number, and
members that say nothing count on from the one before them.
-/

namespace WireSchema.DeclarationGrammar

open Source Source.Parser Source.Cursor

/-! ## Members as they are written -/

/-- How many brackets are open behind a token, if `depth` are open before it. A
comma or a closing bracket may not come where none are open. -/
def depthTurn? (depth : Nat) (t : Token) : Option Nat :=
  if t.isEnd then none
  else if t.isOneOf ["(", "[", "\x7b"] then some (depth + 1)
  else if t.isOneOf [")", "]", "\x7d"] then
    match depth with
    | 0 => none
    | depth + 1 => some depth
  else if t.isOneOf [","] && depth == 0 then none
  else some depth

/-- All brackets that the tokens open are closed, and commas and closing brackets
stand only inside of them. -/
def Enclosed (ts : List Token) : Prop := ts.foldlM depthTurn? 0 = some 0

/-- A string, or a number with or without a minus. -/
def IsConstant (us : List Token) : Prop :=
  (∃ t, us = [t] ∧ (t.isString = true ∨ t.isNumber = true)) ∨
    ∃ m t : Token, us = [m, t] ∧ m.Marks "-" ∧ t.isNumber = true

/-- What the tokens behind a `=` come to: the text that is kept, and the integer
that the next member stands for if it does not say. -/
inductive Initial : List Token → Option Text → Option Int → Prop where
  | string {t : Token} {v : Text} : t.lexeme = .string v → Initial [t] (some (Text.quote v)) none
  | integer {t : Token} {n : Nat} : t.isNumber = true → Text.decimalValue? t.raw = some n →
    Initial [t] (some (Text.ofInt n)) (some (n + 1))
  | negative {m t : Token} {n : Nat} : m.Marks "-" → t.isNumber = true → Text.decimalValue? t.raw = some n →
    Initial [m, t] (some (Text.ofInt (-n))) (some (-n + 1))
  | numeral {t : Token} : t.isNumber = true → Text.decimalValue? t.raw = none → Initial [t] (some t.raw) none
  | negativeNumeral {m t : Token} : m.Marks "-" → t.isNumber = true → Text.decimalValue? t.raw = none →
    Initial [m, t] (some ("-" ++ t.raw)) none
  | other {us : List Token} : ¬ IsConstant us → Initial us none none

/-- The marks that end a value. -/
def valueEnds : List Text := [",", ")", "]", "\x7d"]

section
variable {c c' d : Cursor} {t : Token} {us : List Token} {depth depth' : Nat}

theorem exists_marks {ws : List Text} (h : t.isOneOf ws = true) : ∃ w ∈ ws, t.Marks w := by
  obtain ⟨hmark, hraw⟩ := isOneOf_iff.1 h
  exact ⟨t.raw, hraw, by simpa [Token.isMark] using hmark, rfl⟩

/-- Rounds that take one token each take a run of tokens. -/
theorem rounds_before {σ β : Type} {round : σ → Parser (Turn σ β)} {step : σ → Token → Option σ}
    (hround : ∀ {s t s'}, step s t = some s' → ∀ d, round s (d.before [t]) = .ok (.again s', d))
    {s s' : σ} (h : us.foldlM step s = some s') (n : Nat) :
    rounds round (us.length + n) s (c.before us) = rounds round n s' c := by
  induction us generalizing s with
  | nil =>
    cases h
    rw [List.length_nil, Nat.zero_add, before_nil]
  | cons t us ih =>
    rw [List.foldlM_cons, Option.bind_eq_bind, Option.bind_eq_some_iff] at h
    obtain ⟨s₁, hstep, h⟩ := h
    rw [List.length_cons, Nat.add_right_comm, before_cons, rounds_again (hround hstep _), ih h]

/-- A value that is no constant is passed over up to the comma or the bracket behind it. -/
theorem skipValue_takes (h : Enclosed us) (hstop : c.peek.isOneOf valueEnds = true) : Takes skipValue us c () := by
  unfold Takes skipValue
  rw [loop_apply, rest_before, List.length_append, Nat.add_assoc, rounds_before ?_ (show us.foldlM depthTurn? 0 = some 0 from h)]
  · refine rounds_done ?_ (Nat.succ_pos _)
    have hend : c.peek.isEnd = false := Token.not_isEnd_of_isOneOf hstop
    obtain ⟨w, hw, hmark⟩ := exists_marks hstop
    simp only [valueEnds, List.mem_cons, List.not_mem_nil, or_false] at hw
    rcases hw with rfl | rfl | rfl | rfl <;>
      simp only [bind_apply, peek_apply, ok_bind, hend, hmark.isOneOf_eq, Bool.false_eq_true, if_false] <;> rfl
  · -- the turn of the loop is that of `depthTurn?`, test by test
    intro depth t depth' hstep d
    unfold depthTurn? at hstep
    simp only [bind_apply, peek_apply, ok_bind, peek_before]
    split at hstep
    · cases hstep
    next hend =>
    rw [if_neg hend]
    split at hstep
    next hopen =>
      cases hstep
      rw [if_pos hopen]
      rfl
    next hopen =>
    rw [if_neg hopen]
    split at hstep
    next hclose =>
      rw [if_pos hclose]
      cases depth with
      | zero => cases hstep
      | succ depth =>
        cases hstep
        rfl
    next hclose =>
    rw [if_neg hclose]
    split at hstep
    · cases hstep
    next hcomma =>
      cases hstep
      rw [if_neg hcomma]
      rfl

/-- Where each round takes one token or is the last and takes none, the tokens
that were taken are a run. -/
theorem exists_run {σ β : Type} {round : σ → Parser (Turn σ β)} (step : σ → Token → Option σ)
    (R : σ → β → Cursor → Prop)
    (hround : ∀ {s c turn d}, c.Lexed → round s c = .ok (turn, d) →
      (∃ t s', c = d.before [t] ∧ d.Lexed ∧ step s t = some s' ∧ turn = .again s') ∨
        ∃ b, turn = .done b ∧ d = c ∧ R s b c)
    {n : Nat} {s : σ} {b : β} (hc : c.Lexed) (h : rounds round n s c = .ok (b, c')) :
    ∃ us s', c = c'.before us ∧ c'.Lexed ∧ us.foldlM step s = some s' ∧ R s' b c' := by
  induction n generalizing s c with
  | zero => cases h
  | succ n ih =>
    obtain ⟨turn, d, hturn, hrest⟩ := bind_ok.1 h
    rcases hround hc hturn with ⟨t, s', rfl, hd, hstep, rfl⟩ | ⟨b', rfl, rfl, hlast⟩
    · obtain ⟨us, s'', rfl, hc', hus, hlast⟩ := ih hd hrest
      refine ⟨t :: us, s'', (before_append c' [t] us).symm, hc', ?_, hlast⟩
      rw [List.foldlM_cons, hstep]
      exact hus
    · cases hrest
      exact ⟨[], s, rfl, hc, rfl, hlast⟩

/-- What is passed over ends at the end of the input, or at a comma or a closing
bracket where no bracket is open. -/
theorem skipValue_ok (hc : c.Lexed) (h : skipValue c = .ok ((), c')) : ∃ us depth, c = c'.before us ∧ c'.Lexed ∧
    us.foldlM depthTurn? 0 = some depth ∧ (c'.peek.isEnd = true ∨ depth = 0 ∧ c'.peek.isOneOf valueEnds = true) := by
  refine exists_run depthTurn? (fun depth _ c => c.peek.isEnd = true ∨ depth = 0 ∧ c.peek.isOneOf valueEnds = true) ?_ hc h
  intro depth c turn d hc hturn
  simp only [bind_apply, peek_apply, ok_bind] at hturn
  split at hturn
  next hend =>
    cases hturn
    exact .inr ⟨(), rfl, rfl, .inl hend⟩
  next hend =>
  obtain ⟨t, b, rfl, ht, hb⟩ := hc.exists_of_not_end (Bool.not_eq_true _ ▸ hend)
  rw [peek_before] at hend hturn
  -- What is not taken stays where it is, and what is taken turns the depth.
  split at hturn
  next hopen =>
    cases hturn
    exact .inl ⟨t, depth + 1, rfl, hb, by rw [depthTurn?.eq_def, if_neg hend, if_pos hopen], rfl⟩
  next hopen =>
  split at hturn
  next hclose =>
    cases depth with
    | zero =>
      cases hturn
      have hstop : t.isOneOf valueEnds = true :=
        isOneOf_iff.2 ⟨(isOneOf_iff.1 hclose).1, List.mem_cons_of_mem _ (isOneOf_iff.1 hclose).2⟩
      exact .inr ⟨(), rfl, rfl, .inr ⟨rfl, hstop⟩⟩
    | succ depth =>
      cases hturn
      exact .inl ⟨t, depth, rfl, hb, by rw [depthTurn?.eq_def, if_neg hend, if_neg hopen, if_pos hclose], rfl⟩
  next hclose =>
  split at hturn
  next hcomma =>
    cases hturn
    rw [Bool.and_eq_true, beq_iff_eq] at hcomma
    refine .inr ⟨(), rfl, rfl, .inr ⟨hcomma.2, ?_⟩⟩
    obtain ⟨w, hw, hmark⟩ := exists_marks hcomma.1
    cases List.mem_singleton.1 hw
    exact (hmark.isOneOf_eq _).trans (by decide)
  next hcomma =>
    cases hturn
    have hstep : depthTurn? depth t = some depth := by
      rw [depthTurn?.eq_def, if_neg hend, if_neg hopen, if_neg hclose, if_neg hcomma]
    exact .inl ⟨t, depth, rfl, hb, hstep, rfl⟩

/-- Where the brackets are nested, they are open as deep as closers are awaited. -/
theorem depth_of_nested {awaited awaited' : List Text} (h : awaitedBehind awaited us = some awaited')
    (hend : ∀ t ∈ us, t.isEnd = false)
    (hcomma : ∀ front t back, us = front ++ t :: back → awaitedBehind awaited front = some [] → t.isOneOf [","] = false) :
    us.foldlM depthTurn? awaited.length = some awaited'.length := by
  induction us generalizing awaited with
  | nil =>
    cases h
    rfl
  | cons t us ih =>
    obtain ⟨mid, hturn, hrest⟩ := awaitedBehind_cons.1 h
    have hnotEnd : ¬ t.isEnd = true := Bool.eq_false_iff.1 (hend t List.mem_cons_self)
    have hstep : depthTurn? awaited.length t = some mid.length := by
      rw [depthTurn?.eq_def, if_neg hnotEnd]
      cases nests_of_turn? hturn with
      | opens hopen _ => rw [if_pos hopen, List.length_cons]
      | closes hopen hclose => rw [if_neg (Bool.eq_false_iff.1 hopen), if_pos hclose, List.length_cons]
      | plain hopen hclose =>
        rw [if_neg (Bool.eq_false_iff.1 hopen), if_neg (Bool.eq_false_iff.1 hclose), if_neg]
        rw [Bool.and_eq_true, beq_iff_eq, List.length_eq_zero_iff]
        rintro ⟨hmark, rfl⟩
        rw [hcomma [] t us rfl rfl] at hmark
        cases hmark
    rw [List.foldlM_cons, hstep]
    refine ih hrest (fun t ht => hend t (List.mem_cons_of_mem _ ht)) ?_
    rintro front t' back rfl hfront
    exact hcomma (t :: front) t' back rfl (awaitedBehind_cons.2 ⟨mid, hturn, hfront⟩)

/-- Nested brackets with all commas inside of them. -/
theorem enclosed_of_nested (h : Nested us) (hend : ∀ t ∈ us, t.isEnd = false)
    (hcomma : ∀ front t back, us = front ++ t :: back → Nested front → t.isOneOf [","] = false) : Enclosed us :=
  depth_of_nested h hend hcomma

/-! ## Values -/

theorem not_mark_of_isConstant (h : t.isString = true ∨ t.isNumber = true) :
    t.isMark = false ∧ t.isWord = false ∧ t.isEnd = false :=
  ⟨h.elim Token.not_isMark_of_isString Token.not_isMark_of_isNumber,
    h.elim Token.not_isWord_of_isString Token.not_isWord_of_isNumber,
    h.elim Token.not_isEnd_of_isString Token.not_isEnd_of_isNumber⟩

theorem depthTurn?_constant (h : t.isString = true ∨ t.isNumber = true) (depth : Nat) :
    depthTurn? depth t = some depth := by
  obtain ⟨hmark, _, hend⟩ := not_mark_of_isConstant h
  have hplain (ws : List Text) : t.isOneOf ws = false := by rw [Token.isOneOf, hmark, Bool.false_and]
  simp [depthTurn?.eq_def, hend, hplain]

/-- A comma or a closing bracket does not come right behind a constant. -/
theorem not_isConstant_of_enclosed {u : Token} (h : Enclosed (t :: u :: us)) (hu : u.isOneOf valueEnds = true) :
    t.isString = false ∧ t.isNumber = false := by
  rw [← Bool.not_eq_true, ← Bool.not_eq_true, ← not_or]
  intro hconstant
  rw [Enclosed, List.foldlM_cons, depthTurn?_constant hconstant] at h
  have hu' : depthTurn? 0 u = none := by
    obtain ⟨w, hw, hmarks⟩ := exists_marks hu
    simp only [valueEnds, List.mem_cons, List.not_mem_nil, or_false] at hw
    rcases hw with rfl | rfl | rfl | rfl <;>
      simp only [depthTurn?, Token.not_isEnd_of_isOneOf hu, hmarks.isOneOf_eq, Bool.false_eq_true, if_false] <;> rfl
  have hnone : (some 0 >>= fun depth => List.foldlM depthTurn? depth (u :: us)) = none := by
    rw [Option.bind_eq_bind, Option.bind_some, List.foldlM_cons, hu']
    rfl
  rw [hnone] at h
  cases h

/-- What a token that is a whole value comes to, behind a minus or not. -/
def constant? (isNegative : Bool) (t : Token) : Option (Text × Option Int) :=
  if t.isString && !isNegative then some (Text.quote t.value, none)
  else if t.isNumber then
    match Text.decimalValue? t.raw with
    | some n =>
      let n : Int := if isNegative then -(n : Int) else n
      some (Text.ofInt n, some (n + 1))
    | none => some ((if isNegative then ("-" : Text) else []) ++ t.raw, none)
  else none

/-- Behind its sign a value is one token before a comma or a brace, or it is passed over. -/
theorem value_apply (c : Cursor) : value c = (accept "-" c).bind fun x =>
    match if (x.2.peek 1).isOneOf [",", "\x7d"] then constant? x.1 x.2.peek else none with
    | some (text, after) => (next x.2).bind fun y => .ok ((some text, after), y.2)
    | none => (skipValue x.2).bind fun y => .ok ((none, none), y.2) := by
  rw [value, bind_apply]
  congr 1
  funext x
  obtain ⟨isNegative, d⟩ := x
  simp only [bind_apply, peek_apply, ok_bind]
  split
  · rw [constant?]
    split
    · rfl
    · split
      · cases Text.decimalValue? d.peek.raw <;> rfl
      · rfl
  · rfl

section
variable {after : Option Int} {text : Text} {value? : Option Text} {m : Token}

theorem initial_of_constant (h : constant? false t = some (text, after)) : Initial [t] (some text) after := by
  unfold constant? at h
  split at h
  next hstring =>
    cases h
    rw [Bool.not_false, Bool.and_true] at hstring
    obtain ⟨v, hv⟩ := Token.exists_string hstring
    rw [Token.value, hv]
    exact .string hv
  · split at h
    next hnumber =>
      split at h
      next n hn =>
        cases h
        exact .integer hnumber hn
      next hn =>
        cases h
        exact .numeral hnumber hn
    · cases h

theorem initial_of_negative (hm : m.Marks "-") (h : constant? true t = some (text, after)) :
    Initial [m, t] (some text) after := by
  unfold constant? at h
  split at h
  next hstring =>
    rw [Bool.not_true, Bool.and_false] at hstring
    cases hstring
  · split at h
    next hnumber =>
      split at h
      next n hn =>
        cases h
        exact .negative hm hnumber hn
      next hn =>
        cases h
        exact .negativeNumeral hm hnumber hn
    · cases h

theorem constant?_eq_none {isNegative : Bool} :
    constant? isNegative t = none ↔ (t.isString && !isNegative) = false ∧ t.isNumber = false := by
  rw [constant?]
  constructor
  · intro h
    split at h
    · cases h
    next hstring =>
      split at h
      · split at h <;> cases h
      next hnumber => exact ⟨Bool.not_eq_true _ ▸ hstring, Bool.not_eq_true _ ▸ hnumber⟩
  · rintro ⟨hstring, hnumber⟩
    rw [hstring, hnumber, if_neg Bool.false_ne_true, if_neg Bool.false_ne_true]

/-- A minus is no bracket and no comma. -/
theorem enclosed_minus (hm : m.Marks "-") : Enclosed (m :: us) ↔ Enclosed us := by
  have hend : m.isEnd = false := by simp [Token.isEnd, hm.1]
  have hturn : depthTurn? 0 m = some 0 := by
    simp only [depthTurn?, hend, hm.isOneOf_eq, Bool.false_eq_true, if_false]
    rfl
  rw [Enclosed, List.foldlM_cons, hturn]
  rfl

/-- What comes behind a value that the parser keeps. -/
abbrev EndsValue (t : Token) : Prop := t.isOneOf [",", "\x7d"] = true

theorem EndsValue.stops (h : EndsValue t) : t.isOneOf valueEnds = true := by
  obtain ⟨w, hw, hmark⟩ := exists_marks h
  rw [hmark.isOneOf_eq]
  simp only [List.mem_cons, List.not_mem_nil, or_false] at hw
  rcases hw with rfl | rfl <;> decide

/-- A token before one that ends a value is no constant unless it is all there is. -/
theorem constant?_of_enclosed {isNegative : Bool} (h : Enclosed us) (hstop : EndsValue c.peek)
    (hnot : ∀ t, us = [t] → constant? isNegative t = none) :
    (if ((c.before us).peek 1).isOneOf [",", "\x7d"] then constant? isNegative (c.before us).peek else none) = none := by
  rw [ite_eq_right_iff]
  intro hnext
  -- Behind two tokens or more the second one would have to end a value, where none may end.
  match us with
  | [] =>
    obtain ⟨w, _, hmark⟩ := exists_marks hstop
    exact constant?_eq_none.2 ⟨by rw [before_nil, hmark.isString, Bool.false_and], hmark.isNumber⟩
  | [t] => exact hnot t rfl
  | t :: u :: us =>
    obtain ⟨hstring, hnumber⟩ := not_isConstant_of_enclosed h (EndsValue.stops hnext)
    exact constant?_eq_none.2 ⟨by rw [peek_before, hstring, Bool.false_and], hnumber⟩

/-- A constant without a sign is a value. -/
theorem value_constant (hstop : EndsValue c.peek) (ht : t.isString = true ∨ t.isNumber = true)
    (hconstant : constant? false t = some (text, after)) :
    Takes value [t] c (some text, after) := by
  have hminus : t.is "-" = false := by
    obtain ⟨hmark, hword, _⟩ := not_mark_of_isConstant ht
    rw [Token.is, hmark, hword]
    rfl
  have hnext : ((c.before [t]).peek 1).isOneOf [",", "\x7d"] = true := hstop
  rw [Takes, value_apply, accept_of_not_sees (c := c.before [t]) hminus]
  simp only [ok_bind, hnext, if_true, peek_before, hconstant]
  rfl

/-- A constant behind a sign is a value. -/
theorem value_signed (hstop : EndsValue c.peek) (hm : m.Marks "-")
    (hconstant : constant? true t = some (text, after)) : Takes value [m, t] c (some text, after) := by
  have hnext : ((c.before [t]).peek 1).isOneOf [",", "\x7d"] = true := hstop
  rw [Takes, value_apply, accept_before (hm.is_eq _ ▸ beq_self_eq_true _)]
  simp only [ok_bind, hnext, if_true, peek_before, hconstant]
  rfl

/-- Any other value is passed over, a sign before it or not. -/
theorem value_skipped (hc : (c.before us).Lexed) (h : Enclosed us) (hstop : EndsValue c.peek)
    (hplain : ∀ t, us = [t] → constant? false t = none)
    (hsigned : ∀ m t, us = [m, t] → m.Marks "-" → constant? true t = none) : Takes value us c (none, none) := by
  rw [Takes, value_apply]
  cases hsees : (c.before us).sees "-" with
  | false =>
    rw [accept_of_not_sees hsees, ok_bind, constant?_of_enclosed h hstop hplain]
    rw [show skipValue (c.before us) = _ from skipValue_takes h hstop.stops]
    rfl
  | true =>
    cases us with
    | nil =>
      obtain ⟨w, hw, hmark⟩ := exists_marks hstop
      rw [before_nil, Cursor.sees, hmark.is_eq, beq_iff_eq] at hsees
      rw [hsees] at hw
      exact absurd hw (by decide)
    | cons m ws =>
      obtain ⟨m', b, heq, hm, _⟩ := hc.exists_mark hsees (by decide)
      cases (congrArg Cursor.peek heq : m = m')
      rw [enclosed_minus hm] at h
      rw [accept_before (hm.is_eq _ ▸ beq_self_eq_true _), ok_bind,
        constant?_of_enclosed h hstop fun t ht => hsigned m t (by rw [ht]) hm]
      rw [show skipValue (c.before ws) = _ from skipValue_takes h hstop.stops]
      rfl

theorem value_takes (hc : (c.before us).Lexed) (h : Enclosed us) (hi : Initial us value? after)
    (hstop : EndsValue c.peek) : Takes value us c (value?, after) := by
  cases hi with
  | @string t v hv =>
    have ht : t.isString = true := by rw [Token.isString, hv]
    refine value_constant hstop (.inl ht) ?_
    rw [constant?, ht, Token.value, hv]
    rfl
  | integer hnumber hn | numeral hnumber hn =>
    refine value_constant hstop (.inr hnumber) ?_
    rw [constant?, Token.not_isString_of_isNumber hnumber, hnumber, hn]
    rfl
  | negative hm hnumber hn | negativeNumeral hm hnumber hn =>
    refine value_signed hstop hm ?_
    rw [constant?, Token.not_isString_of_isNumber hnumber, hnumber, hn]
    rfl
  | other hnot =>
    refine value_skipped hc h hstop (fun t ht => ?_) fun m t hmt hm => ?_
    · refine constant?_eq_none.2 ⟨Bool.eq_false_iff.2 fun hstring => ?_, Bool.eq_false_iff.2 fun hnumber => ?_⟩
      · rw [Bool.not_false, Bool.and_true] at hstring
        exact hnot (.inl ⟨t, ht, .inl hstring⟩)
      · exact hnot (.inl ⟨t, ht, .inr hnumber⟩)
    · refine constant?_eq_none.2 ⟨Bool.and_false _, Bool.eq_false_iff.2 fun hnumber => ?_⟩
      exact hnot (.inr ⟨m, t, hmt, hm, hnumber⟩)

/-- What is read behind the sign of a value: a token that is kept, or tokens that are not. -/
theorem unsigned_ok {isNegative : Bool} (hc : c.Lexed) (hstop : c'.Lexed → EndsValue c'.peek)
    (h : (match if (c.peek 1).isOneOf [",", "\x7d"] then constant? isNegative c.peek else none with
      | some (text, after) => (next c).bind fun y => .ok ((some text, after), y.2)
      | none => (skipValue c).bind fun y => .ok ((none, none), y.2)) = .ok ((value?, after), c')) :
    ∃ us, c = c'.before us ∧ c'.Lexed ∧ Enclosed us ∧
      ((∃ t text, us = [t] ∧ value? = some text ∧ constant? isNegative t = some (text, after)) ∨
        value? = none ∧ after = none ∧ ∀ t, us = [t] → constant? isNegative t = none) := by
  split at h
  next text after' hkept =>
    obtain ⟨_, hconstant⟩ := Option.ite_none_right_eq_some.1 hkept
    -- only strings and numbers have a constant
    have hkind : c.peek.isString = true ∨ c.peek.isNumber = true := by
      by_contra hkind
      rw [not_or, Bool.not_eq_true, Bool.not_eq_true] at hkind
      rw [constant?_eq_none.2 ⟨by rw [hkind.1, Bool.false_and], hkind.2⟩] at hconstant
      cases hconstant
    obtain ⟨t, b, rfl, _, hb⟩ := hc.exists_of_not_end (not_mark_of_isConstant hkind).2.2
    cases h
    rw [peek_before] at hkind hconstant
    have henclosed : Enclosed [t] := by
      rw [Enclosed, List.foldlM_cons, depthTurn?_constant hkind]
      rfl
    exact ⟨[t], rfl, hb, henclosed, .inl ⟨t, text, rfl, rfl, hconstant⟩⟩
  next hnone =>
    cases hskip : skipValue c with
    | error fault =>
      rw [hskip] at h
      cases h
    | ok x =>
      rw [hskip] at h
      cases h
      obtain ⟨us, depth, rfl, hx, hus, hend⟩ := skipValue_ok hc hskip
      rcases hend with hend | ⟨rfl, _⟩
      · rw [Token.not_isEnd_of_isOneOf (hstop hx)] at hend
        cases hend
      refine ⟨us, rfl, hx, hus, .inr ⟨rfl, rfl, ?_⟩⟩
      -- a value that is one token ends at once, so it was tried as a constant
      rintro t rfl
      have hnext : ((x.2.before [t]).peek 1).isOneOf [",", "\x7d"] = true := hstop hx
      rwa [if_pos hnext] at hnone

theorem value_ok (hc : c.Lexed) (h : value c = .ok ((value?, after), c')) (hstop : c'.Lexed → EndsValue c'.peek) :
    ∃ us, c = c'.before us ∧ c'.Lexed ∧ Enclosed us ∧ Initial us value? after := by
  rw [value_apply] at h
  cases hsees : c.sees "-" with
  | false =>
    rw [accept_of_not_sees hsees, ok_bind] at h
    obtain ⟨us, rfl, hc', henclosed, hvalue⟩ := unsigned_ok hc hstop h
    refine ⟨us, rfl, hc', henclosed, ?_⟩
    rcases hvalue with ⟨t, text, rfl, rfl, hconstant⟩ | ⟨rfl, rfl, hnone⟩
    · exact initial_of_constant hconstant
    · refine .other ?_
      rintro (⟨t, rfl, hkind⟩ | ⟨m, t, rfl, hm, _⟩)
      · have hnot := constant?_eq_none.1 (hnone t rfl)
        rw [Bool.not_false, Bool.and_true] at hnot
        rw [hnot.1, hnot.2] at hkind
        exact hkind.elim Bool.false_ne_true Bool.false_ne_true
      · rw [sees_before, hm.is_eq] at hsees
        exact absurd hsees (by simp)
  | true =>
    obtain ⟨m, b, rfl, hm, hb⟩ := hc.exists_mark hsees (by decide)
    rw [accept_before (hm.is_eq _ ▸ beq_self_eq_true _), ok_bind] at h
    obtain ⟨us, rfl, hc', henclosed, hvalue⟩ := unsigned_ok hb hstop h
    refine ⟨m :: us, (before_append c' [m] us).symm, hc', (enclosed_minus hm).2 henclosed, ?_⟩
    rcases hvalue with ⟨t, text, rfl, rfl, hconstant⟩ | ⟨rfl, rfl, hnone⟩
    · exact initial_of_negative hm hconstant
    · refine .other ?_
      rintro (⟨t, heq, hkind⟩ | ⟨m', t, heq, _, hnumber⟩)
      · cases heq
        rw [hm.isString, hm.isNumber] at hkind
        exact hkind.elim Bool.false_ne_true Bool.false_ne_true
      · cases heq
        rw [(constant?_eq_none.1 (hnone t rfl)).2] at hnumber
        cases hnumber

end

end

/-! ## Members -/

/-- A member as it is written: its name, and the tokens behind its `=` if it has one. -/
structure Entry where
  name : Text
  initial : Option (List Token)

/-- The tokens of a member. -/
inductive Entry.Spelled : Entry → List Token → Prop where
  | bare {t : Token} : t.isWord = true ∨ t.isString = true → Spelled ⟨t.value, none⟩ [t]
  | given {t e : Token} {us : List Token} : t.isWord = true ∨ t.isString = true → e.Marks "=" → Enclosed us →
    Spelled ⟨t.value, some us⟩ (t :: e :: us)

/-- The tokens of members with commas between them; one comma may come last. -/
inductive Entries : List Entry → List Token → Prop where
  | nil : Entries [] []
  | last {entry : Entry} {ts : List Token} : entry.Spelled ts → Entries [entry] ts
  | cons {entry : Entry} {entries : List Entry} {comma : Token} {ts us : List Token} :
    entry.Spelled ts → comma.Marks "," → Entries entries us → Entries (entry :: entries) (ts ++ comma :: us)

/-- What a member stands for if it counts as the integer `counter` unless it says
something itself, and the integer that the next member counts as. -/
inductive Entry.Counts : Option Int → Entry → Option Text → Option Int → Prop where
  | given {counter after : Option Int} {name : Text} {us : List Token} {value? : Option Text} :
    Initial us value? after → Counts counter ⟨name, some us⟩ value? after
  | next {n : Int} {name : Text} : Counts (some n) ⟨name, none⟩ (some (Text.ofInt n)) (some (n + 1))
  | unknown {name : Text} : Counts none ⟨name, none⟩ none none

/-- What members stand for one after the other. -/
inductive Counted : Option Int → List Entry → List EnumMember → Prop where
  | nil {counter : Option Int} : Counted counter [] []
  | cons {counter after : Option Int} {entry : Entry} {value? : Option Text} {entries : List Entry}
      {members : List EnumMember} : entry.Counts counter value? after → Counted after entries members →
    Counted counter (entry :: entries) (⟨entry.name, value?⟩ :: members)

/-- An enumeration as it is written. The first member counts as zero. -/
inductive Enumerates : List Token → Declaration → Prop where
  | intro {keyword name opener closer : Token} {docs : DocComment} {entries : List Entry} {ts : List Token}
      {members : List EnumMember} : keyword.is "enum" = true → name.isWord = true → opener.Marks "\x7b" →
    closer.Marks "\x7d" → Entries entries ts → Counted (some 0) entries members →
    Enumerates (keyword :: name :: opener :: (ts ++ [closer])) { name := name.raw, docs, body := .enumeration members }

/-- What is behind the name of a member. -/
def assigned (counter : Option Int) : Parser (Option Text × Option Int) := do
  if ← accept "=" then value
  else match counter with
    | some n => pure (some (Text.ofInt n), some (n + 1))
    | none => pure (none, none)

/-- A member, and the integer that the next one counts as. -/
def member (counter : Option Int) : Parser (EnumMember × Option Int) := do
  let name ← next
  if !(name.isWord || name.isString) then rejectAt name .expectedEnumMember
  let (value, after) ← assigned counter
  return ({ name := name.value, value }, after)

/-- One more member unless the brace comes; the last one if no comma comes behind it. -/
def memberRound (state : List EnumMember × Option Int) :
    Parser (Turn (List EnumMember × Option Int) (List EnumMember)) := do
  if ← sees "\x7d" then return .done state.1.reverse
  else
    let (found, after) ← member state.2
    if ← accept "," then return .again (found :: state.1, after)
    else return .done (found :: state.1).reverse

theorem enumMembers_eq : enumMembers = loop memberRound ([], some 0) := by
  have hassigned {α : Type} (counter : Option Int) (k : Option Text × Option Int → Parser α) :
      assigned counter >>= k = (do
      if ← accept "=" then k (← value)
      else match counter with
        | some n => k (← pure (some (Text.ofInt n), some (n + 1)))
        | none => k (← pure (none, none))) := by
    unfold assigned
    rw [bind_assoc]
    congr 1
    funext taken
    cases taken
    · cases counter <;> rfl
    · rfl
  have hmember {α : Type} (counter : Option Int) (k : EnumMember × Option Int → Parser α) : member counter >>= k = (do
      let name ← next
      if !(name.isWord || name.isString) then rejectAt name .expectedEnumMember
      let (value, after) ← assigned counter
      k ({ name := name.value, value }, after)) := by
    unfold member
    rw [bind_assoc]
    congr 1
    funext name
    cases hkind : !(name.isWord || name.isString) <;>
      simp only [Bool.false_eq_true, if_false, if_true, bind_assoc, pure_bind]
  unfold enumMembers
  congr 1
  funext ⟨found, counter⟩
  have hround := memberRound.eq_def (found, counter)
  simp only [hmember, hassigned] at hround
  exact hround.symm

/-! ## One member -/

section
variable {c c' : Cursor} {entry : Entry} {entries : List Entry} {t : Token} {ts : List Token}
  {counter after : Option Int} {value? : Option Text} {found members : List EnumMember} {m : EnumMember}

theorem lexed_of_before (ts : List Token) (h : (c.before ts).Lexed) : c.Lexed :=
  ⟨fun t ht => h.rest t (List.mem_append_right _ ht), h.last⟩

theorem EndsValue.not_sees (h : EndsValue c.peek) {w : Text} (hw : ([",", "\x7d"] : List Text).contains w = false) :
    c.sees w = false := by
  obtain ⟨v, hv, hmark⟩ := exists_marks h
  rw [Cursor.sees, hmark.is_eq]
  refine beq_eq_false_iff_ne.2 ?_
  rintro rfl
  rw [List.contains_iff_mem.2 hv] at hw
  cases hw

/-- A name of a member is not the brace that closes the enumeration. -/
theorem Entry.Spelled.not_sees (h : entry.Spelled ts) (hc : (c.before ts).Lexed) :
    (c.before ts).sees "\x7d" = false := by
  have hname {t : Token} {us : List Token} (ht : t.isWord = true ∨ t.isString = true)
      (hc : (c.before (t :: us)).Lexed) : (c.before (t :: us)).sees "\x7d" = false := by
    refine Bool.eq_false_iff.2 fun hsees => ?_
    obtain ⟨t', b, heq, hmark, _⟩ := hc.exists_mark hsees (by decide)
    cases (congrArg Cursor.peek heq : t = t')
    rw [hmark.isWord, hmark.isString] at ht
    exact ht.elim Bool.false_ne_true Bool.false_ne_true
  cases h with
  | bare ht => exact hname ht hc
  | given ht => exact hname ht hc

theorem member_takes (hc : (c.before ts).Lexed) (h : entry.Spelled ts) (hcount : entry.Counts counter value? after)
    (hstop : EndsValue c.peek) : Takes (member counter) ts c (⟨entry.name, value?⟩, after) := by
  have hkind {t : Token} (ht : t.isWord = true ∨ t.isString = true) : ¬ (!(t.isWord || t.isString)) = true := by
    rw [Bool.not_eq_true', Bool.not_eq_false, Bool.or_eq_true]
    exact ht
  cases h with
  | bare ht =>
    have hassign : accept "=" c = .ok (false, c) := accept_of_not_sees (hstop.not_sees (by decide))
    unfold Takes member assigned
    simp only [bind_apply, next_before, ok_bind, if_neg (hkind ht), before_nil, hassign, Bool.false_eq_true, if_false]
    cases hcount <;> rfl
  | @given t e us ht he henclosed =>
    have hassign : accept "=" (c.before (e :: us)) = .ok (true, c.before us) :=
      accept_before (he.is_eq _ ▸ beq_self_eq_true _) us c
    cases hcount with
    | given hi =>
      have hvalue : value (c.before us) = .ok ((value?, after), c) :=
        value_takes (lexed_of_before [t, e] (by rwa [← before_append])) henclosed hi hstop
      unfold Takes member assigned
      simp only [bind_apply, next_before, ok_bind, if_neg (hkind ht), hassign, if_true, hvalue]
      rfl

theorem member_ok (hc : c.Lexed) (h : member counter c = .ok ((m, after), c'))
    (hstop : c'.Lexed → EndsValue c'.peek) :
    ∃ (entry : Entry) (ts : List Token), c = c'.before ts ∧ c'.Lexed ∧ entry.Spelled ts ∧
      entry.Counts counter m.value after ∧ m.name = entry.name := by
  obtain ⟨name, d, hnext, hrest⟩ := bind_ok.1 h
  have hpeek : name = c.peek := by
    obtain ⟨rest, last⟩ := c
    cases rest <;> cases hnext <;> rfl
  by_cases hkind : (!(name.isWord || name.isString)) = true
  · rw [if_pos hkind] at hrest
    cases hrest
  rw [if_neg hkind] at hrest
  rw [Bool.not_eq_true', Bool.not_eq_false, Bool.or_eq_true] at hkind
  have hend : c.peek.isEnd = false := hpeek ▸ hkind.elim Token.not_isEnd_of_isWord Token.not_isEnd_of_isString
  obtain ⟨t, b, rfl, _, hb⟩ := hc.exists_of_not_end hend
  rw [next_before, before_nil] at hnext
  obtain ⟨rfl, rfl⟩ := Prod.mk.inj (Except.ok.inj hnext)
  obtain ⟨⟨value?, after'⟩, d, hassigned, hdone⟩ := bind_ok.1 hrest
  cases hdone
  obtain ⟨taken, e, haccept, hvalue⟩ := bind_ok.1 hassigned
  cases hsees : b.sees "=" with
  | false =>
    rw [accept_of_not_sees hsees] at haccept
    cases haccept
    rw [if_neg Bool.false_ne_true] at hvalue
    cases counter with
    | none =>
      cases hvalue
      exact ⟨⟨t.value, none⟩, [t], rfl, hb, .bare hkind, .unknown, rfl⟩
    | some n =>
      cases hvalue
      exact ⟨⟨t.value, none⟩, [t], rfl, hb, .bare hkind, .next, rfl⟩
  | true =>
    obtain ⟨e', d, rfl, he, hd⟩ := hb.exists_mark hsees (by decide)
    rw [accept_before (he.is_eq _ ▸ beq_self_eq_true _), before_nil] at haccept
    cases haccept
    rw [if_pos rfl] at hvalue
    obtain ⟨us, rfl, hc', henclosed, hi⟩ := value_ok hd hvalue hstop
    exact ⟨⟨t.value, some us⟩, t :: e' :: us, rfl, hc', .given hkind he henclosed, .given hi, rfl⟩

/-! ## All members -/

/-- A round at a member takes it, and the comma behind it if there is one. -/
theorem memberRound_before (hc : (c.before ts).Lexed) (h : entry.Spelled ts)
    (hcount : entry.Counts counter value? after) (hstop : EndsValue c.peek) :
    memberRound (found, counter) (c.before ts) = (accept "," c).bind fun x =>
      .ok (if x.1 then .again (⟨entry.name, value?⟩ :: found, after)
        else .done (⟨entry.name, value?⟩ :: found).reverse, x.2) := by
  have hmember : member counter (c.before ts) = .ok ((⟨entry.name, value?⟩, after), c) := member_takes hc h hcount hstop
  unfold memberRound
  simp only [bind_apply, sees_apply, ok_bind, h.not_sees hc, Bool.false_eq_true, if_false, hmember]
  congr 1
  funext ⟨taken, d⟩
  cases taken <;> rfl

theorem Entries.takes (h : Entries entries ts) (hclose : c.peek.Marks "\x7d") (hc : (c.before ts).Lexed)
    (hcount : Counted counter entries members) {n : Nat} (hn : ts.length < n) :
    rounds memberRound n (found, counter) (c.before ts) = .ok (found.reverse ++ members, c) := by
  have hbrace : c.sees "\x7d" = true := by
    rw [Cursor.sees, hclose.is_eq]
    exact beq_self_eq_true _
  induction h generalizing counter found members n with
  | nil =>
    cases hcount
    rw [List.append_nil]
    exact rounds_done (by simp [memberRound, hbrace]) (Nat.zero_lt_of_lt hn)
  | last hentry =>
    cases hcount with
    | cons hfirst hrest =>
    cases hrest
    have hstop : EndsValue c.peek := (hclose.isOneOf_eq _).trans (by decide)
    refine rounds_done ?_ (Nat.zero_lt_of_lt hn)
    rw [memberRound_before hc hentry hfirst hstop, accept_of_not_sees, ok_bind, if_neg Bool.false_ne_true,
      List.reverse_cons]
    rw [Cursor.sees, hclose.is_eq]
    decide
  | @cons entry entries comma ts us hentry hcomma _ ih =>
    cases hcount with
    | @cons _ after _ value? _ members hfirst hrest =>
    rw [before_append, before_cons] at hc ⊢
    rw [List.length_append, List.length_cons] at hn
    have hstop : EndsValue ((c.before us).before [comma]).peek := (hcomma.isOneOf_eq _).trans (by decide)
    have hround : memberRound (found, counter) (((c.before us).before [comma]).before ts) =
        .ok (.again (⟨entry.name, value?⟩ :: found, after), c.before us) := by
      rw [memberRound_before hc hentry hfirst hstop, accept_before (hcomma.is_eq _ ▸ beq_self_eq_true _)]
      rfl
    obtain ⟨n, rfl⟩ : ∃ k, n = k + 1 := ⟨n - 1, by omega⟩
    rw [rounds_again hround, ih (lexed_of_before (ts ++ [comma]) (by rwa [before_append])) hrest (by omega),
      List.reverse_cons, List.append_assoc, List.singleton_append]

theorem enumMembers_takes (hc : (c.before ts).Lexed) (h : Entries entries ts)
    (hcount : Counted (some 0) entries members) (hclose : c.peek.Marks "\x7d") : Takes enumMembers ts c members := by
  rw [Takes, enumMembers_eq, loop_apply]
  exact h.takes hclose hc hcount (by rw [rest_before, List.length_append]; omega)

theorem rounds_ok (hc : c.Lexed) {n : Nat} (h : rounds memberRound n (found, counter) c = .ok (members, c'))
    (hclose : c'.Lexed → c'.peek.Marks "\x7d") :
    ∃ entries ts others, c = c'.before ts ∧ c'.Lexed ∧ Entries entries ts ∧
      Counted counter entries others ∧ members = found.reverse ++ others := by
  induction n generalizing found counter c with
  | zero => cases h
  | succ n ih =>
    obtain ⟨turn, d, hturn, hrest⟩ := bind_ok.1 h
    obtain ⟨isClosed, _, hsees, hturn⟩ := bind_ok.1 hturn
    rw [sees_apply] at hsees
    cases hsees
    split at hturn
    · cases hturn
      cases hrest
      exact ⟨[], [], [], rfl, hc, .nil, .nil, (List.append_nil _).symm⟩
    obtain ⟨⟨m, after⟩, e, hmember, hturn⟩ := bind_ok.1 hturn
    obtain ⟨taken, f, haccept, hturn⟩ := bind_ok.1 hturn
    -- The member ends at the comma that is taken, or at the brace that comes behind the loop.
    cases hsees : e.sees "," with
    | false =>
      rw [accept_of_not_sees hsees] at haccept
      cases haccept
      cases hturn
      cases hrest
      obtain ⟨entry, ts, rfl, hc', hentry, hcount, hname⟩ :=
        member_ok hc hmember fun hc' => ((hclose hc').isOneOf_eq _).trans (by decide)
      refine ⟨[entry], ts, [m], rfl, hc', .last hentry, ?_, List.reverse_cons⟩
      obtain ⟨name, value?⟩ := m
      cases hname
      exact .cons hcount .nil
    | true =>
      have hcomma (he : e.Lexed) : ∃ (comma : Token) (b : Cursor), e = b.before [comma] ∧ comma.Marks "," ∧ b.Lexed :=
        he.exists_mark hsees (by decide)
      obtain ⟨entry, ts, rfl, he, hentry, hcount, hname⟩ := member_ok hc hmember fun he => by
        obtain ⟨comma, b, rfl, hmark, _⟩ := hcomma he
        exact (hmark.isOneOf_eq _).trans (by decide)
      obtain ⟨comma, b, rfl, hmark, hb⟩ := hcomma he
      rw [accept_before (hmark.is_eq _ ▸ beq_self_eq_true _), before_nil] at haccept
      obtain ⟨rfl, rfl⟩ := Prod.mk.inj (Except.ok.inj haccept)
      obtain ⟨rfl, rfl⟩ := Prod.mk.inj (Except.ok.inj hturn)
      obtain ⟨entries, us, others, rfl, hc', hentries, hcounted, rfl⟩ := ih hb hrest
      refine ⟨entry :: entries, ts ++ comma :: us, m :: others, ?_, hc', .cons hentry hmark hentries, ?_, ?_⟩
      · exact (before_append c' ts (comma :: us)).symm
      · obtain ⟨name, value?⟩ := m
        cases hname
        exact .cons hcount hcounted
      · rw [List.reverse_cons, List.append_assoc, List.singleton_append]

theorem enumMembers_ok (hc : c.Lexed) (h : enumMembers c = .ok (members, c'))
    (hclose : c'.Lexed → c'.peek.Marks "\x7d") :
    ∃ entries ts, c = c'.before ts ∧ c'.Lexed ∧ Entries entries ts ∧ Counted (some 0) entries members := by
  rw [enumMembers_eq, loop_apply] at h
  obtain ⟨entries, ts, others, hts, hc', hentries, hcount, rfl⟩ := rounds_ok hc h hclose
  exact ⟨entries, ts, hts, hc', hentries, hcount⟩

/-! ## Enumerations -/

theorem expectName_ok {name : Text} {d : Cursor} (hc : c.Lexed) (h : expectName c = .ok (name, d)) :
    ∃ t, c = d.before [t] ∧ t.isWord = true ∧ name = t.raw := by
  obtain ⟨token, _, hpeek, h⟩ := bind_ok.1 h
  rw [peek_apply] at hpeek
  cases hpeek
  split at h
  next hword =>
    obtain ⟨t, b, rfl, _, _⟩ := hc.exists_of_not_end (Token.not_isEnd_of_isWord hword)
    cases h
    exact ⟨t, rfl, hword, rfl⟩
  · cases h

/-- A mark that is expected was there. -/
theorem expect_mark {w : Text} {a : Unit} {d : Cursor} (hc : c.Lexed) (hw : Text.isName w = false)
    (h : expect w c = .ok (a, d)) : ∃ t, c = d.before [t] ∧ t.Marks w := by
  obtain ⟨t, rfl, ht⟩ := expect_ok hc.last h
  obtain ⟨t', b, heq, hmark, _⟩ := hc.exists_mark (c := d.before [t]) ht hw
  cases (congrArg Cursor.peek heq : t = t')
  exact ⟨t, rfl, hmark⟩

theorem Enumerates.takes {d : Declaration} (h : Enumerates ts d) (hc : (c.before ts).Lexed) :
    Takes (enumeration d.docs) ts c d := by
  cases h with
  | @intro keyword name opener closer docs entries ts members hkeyword hname hopen hclose h hcount =>
  have hmembers : enumMembers ((c.before [closer]).before ts) = .ok (members, c.before [closer]) := by
    refine enumMembers_takes (lexed_of_before [keyword, name, opener] ?_) h hcount hclose
    rwa [← before_append, ← before_append]
  unfold Takes enumeration
  simp only [bind_apply, expect_before hkeyword, expectName_before hname, ok_bind,
    expect_before (w := "\x7b") (hopen.is_eq _ ▸ beq_self_eq_true _), before_append, hmembers,
    expect_before (w := "\x7d") (hclose.is_eq _ ▸ beq_self_eq_true _)]
  rfl

theorem enumeration_ok {docs : DocComment} {d : Declaration} (hc : c.Lexed) (h : enumeration docs c = .ok (d, c')) :
    ∃ ts, c = c'.before ts ∧ Enumerates ts d ∧ d.docs = docs := by
  obtain ⟨_, c₁, hfirst, h⟩ := bind_ok.1 h
  obtain ⟨text, c₂, hsecond, h⟩ := bind_ok.1 h
  obtain ⟨_, c₃, hthird, h⟩ := bind_ok.1 h
  obtain ⟨members, c₄, hmembers, h⟩ := bind_ok.1 h
  obtain ⟨_, c₅, hlast, h⟩ := bind_ok.1 h
  cases h
  obtain ⟨keyword, rfl, hkeyword⟩ := expect_ok hc.last hfirst
  have hc₁ := lexed_of_before _ hc
  obtain ⟨name, rfl, hname, rfl⟩ := expectName_ok hc₁ hsecond
  have hc₂ := lexed_of_before _ hc₁
  obtain ⟨opener, rfl, hopen⟩ := expect_mark hc₂ (by decide) hthird
  obtain ⟨entries, ts, rfl, hc₄, hentries, hcount⟩ := enumMembers_ok (lexed_of_before _ hc₂) hmembers fun hc₄ => by
    obtain ⟨closer, rfl, hmark⟩ := expect_mark hc₄ (by decide) hlast
    exact hmark
  obtain ⟨closer, rfl, hclose⟩ := expect_mark hc₄ (by decide) hlast
  refine ⟨keyword :: name :: opener :: (ts ++ [closer]), ?_, .intro hkeyword hname hopen hclose hentries hcount, rfl⟩
  simp only [before_cons, before_append, before_nil]

end

end WireSchema.DeclarationGrammar
