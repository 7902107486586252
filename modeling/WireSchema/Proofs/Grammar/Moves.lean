import WireSchema.Source.Cursor
/-!
# How parsers move the cursor

A parser is followed token by token. `c.before ts` is the cursor `c` with the
tokens `ts` put back before it; `Takes p ts c a` says that `p`, put there,
answers `a` and stops at `c`. What a parser does on tokens is put together from
what its parts do.
-/

namespace WireSchema.Source

namespace Token

/-- The token is the punctuation mark `text`. -/
def Marks (t : Token) (text : Text) : Prop := t.lexeme = .mark ∧ t.raw = text

variable {t : Token} {m : Text}

theorem Marks.is_eq (h : t.Marks m) (w : Text) : t.is w = (m == w) := by
  obtain ⟨hl, rfl⟩ := h
  simp [Token.is, isMark, hl]

theorem Marks.isOneOf_eq (h : t.Marks m) (l : List Text) : t.isOneOf l = l.contains m := by
  obtain ⟨hl, rfl⟩ := h
  simp [Token.isOneOf, isMark, hl]

theorem Marks.isMark (h : t.Marks m) : t.isMark = true := by simp [Token.isMark, h.1]

theorem Marks.isWord (h : t.Marks m) : t.isWord = false := by simp [Token.isWord, h.1]

theorem Marks.isString (h : t.Marks m) : t.isString = false := by simp [Token.isString, h.1]

theorem Marks.isNumber (h : t.Marks m) : t.isNumber = false := by simp [Token.isNumber, h.1]

theorem Marks.isTemplate (h : t.Marks m) : t.isTemplate = false := by simp [Token.isTemplate, h.1]

/-! ## A token is of one kind -/

theorem exists_string (h : t.isString = true) : ∃ v, t.lexeme = .string v := by
  cases hl : t.lexeme with
  | string v => exact ⟨v, rfl⟩
  | _ => simp [isString, hl] at h

theorem exists_template (h : t.isTemplate = true) : ∃ parts, t.lexeme = .template parts := by
  cases hl : t.lexeme with
  | template parts => exact ⟨parts, rfl⟩
  | _ => simp [isTemplate, hl] at h

theorem not_isMark_of_isString (h : t.isString = true) : t.isMark = false := by
  obtain ⟨v, hl⟩ := exists_string h
  simp [isMark, hl]

theorem not_isWord_of_isString (h : t.isString = true) : t.isWord = false := by
  obtain ⟨v, hl⟩ := exists_string h
  simp [isWord, hl]

theorem not_isMark_of_isNumber (h : t.isNumber = true) : t.isMark = false := by
  simp [isMark, show t.lexeme = .number from beq_iff_eq.1 h]

theorem not_isWord_of_isNumber (h : t.isNumber = true) : t.isWord = false := by
  simp [isWord, show t.lexeme = .number from beq_iff_eq.1 h]

theorem not_isString_of_isNumber (h : t.isNumber = true) : t.isString = false := by
  simp [isString, show t.lexeme = .number from beq_iff_eq.1 h]

theorem not_isEnd_of_isWord (h : t.isWord = true) : t.isEnd = false := by
  simp [isEnd, show t.lexeme = .word from beq_iff_eq.1 h]

theorem not_isEnd_of_isMark (h : t.isMark = true) : t.isEnd = false := by
  simp [isEnd, show t.lexeme = .mark from beq_iff_eq.1 h]

theorem not_isEnd_of_isNumber (h : t.isNumber = true) : t.isEnd = false := by
  simp [isEnd, show t.lexeme = .number from beq_iff_eq.1 h]

theorem not_isEnd_of_isString (h : t.isString = true) : t.isEnd = false := by
  obtain ⟨v, hl⟩ := exists_string h
  simp [isEnd, hl]

theorem not_isEnd_of_isTemplate (h : t.isTemplate = true) : t.isEnd = false := by
  obtain ⟨parts, hl⟩ := exists_template h
  simp [isEnd, hl]

/-- A token is one word or mark only. -/
theorem is_ne {v w : Text} (h : t.is w = true) (hne : w ≠ v) : t.is v = false := by
  rw [Token.is, Bool.and_eq_true, beq_iff_eq] at h
  rw [Token.is, h.2, beq_eq_false_iff_ne.2 hne, Bool.and_false]

theorem not_isEnd_of_is (h : t.is m = true) : t.isEnd = false := by
  rw [Token.is, Bool.and_eq_true, Bool.or_eq_true] at h
  exact h.1.elim not_isEnd_of_isWord not_isEnd_of_isMark

theorem not_isEnd_of_isOneOf {marks : List Text} (h : t.isOneOf marks = true) : t.isEnd = false := by
  rw [isOneOf, Bool.and_eq_true] at h
  exact not_isEnd_of_isMark h.1

end Token

namespace Cursor

/-- The cursor `c` with tokens put back before it. -/
def before (c : Cursor) (ts : List Token) : Cursor := { c with rest := ts ++ c.rest }

variable (c : Cursor) (t : Token) (ts us : List Token)

@[simp] theorem before_nil : c.before [] = c := rfl

theorem before_append : c.before (ts ++ us) = (c.before us).before ts := by
  simp [before]

theorem before_cons : c.before (t :: ts) = (c.before ts).before [t] := rfl

@[simp] theorem rest_before : (c.before ts).rest = ts ++ c.rest := rfl

@[simp] theorem last_before : (c.before ts).last = c.last := rfl

@[simp] theorem peek_before : (c.before (t :: ts)).peek = t := rfl

@[simp] theorem peek_before_succ (n : Nat) :
    (c.before (t :: ts)).peek (n + 1) = (c.before ts).peek n := rfl

@[simp] theorem sees_before (w : Text) : (c.before (t :: ts)).sees w = t.is w := rfl

@[simp] theorem sees_before_succ (w : Text) (n : Nat) :
    (c.before (t :: ts)).sees w (n + 1) = (c.before ts).sees w n := rfl

theorem peek_before_length (n : Nat) : (c.before ts).peek (ts.length + n) = c.peek n := by
  simp [peek, List.getElem?_append_right]

/-- The tokens between a cursor and one that lies before it are those put back. -/
@[simp] theorem upTo_before : (c.before ts).upTo c = ts := by
  simp [upTo]

end Cursor

namespace Parser

variable {α β σ : Type}

@[simp] theorem bind_apply (p : Parser α) (f : α → Parser β) (c : Cursor) :
    (p >>= f) c = (p c).bind fun x => f x.1 x.2 := rfl

@[simp] theorem pure_apply (a : α) (c : Cursor) : (pure a : Parser α) c = .ok (a, c) := rfl

@[simp] theorem map_apply (f : α → β) (p : Parser α) (c : Cursor) :
    (f <$> p) c = (p c).bind fun x => .ok (f x.1, x.2) := rfl

@[simp] theorem get_apply (c : Cursor) : (get : Parser Cursor) c = .ok (c, c) := rfl

@[simp] theorem peek_apply (n : Nat) (c : Cursor) : peek n c = .ok (c.peek n, c) := rfl

@[simp] theorem sees_apply (w : Text) (n : Nat) (c : Cursor) :
    sees w n c = .ok (c.sees w n, c) := rfl

@[simp] theorem ok_bind {ε : Type} (a : α) (f : α → Except ε β) : (Except.ok a).bind f = f a := rfl

theorem ok_of_toOption {ε : Type} {x : Except ε α} {a : α} (h : x.toOption = some a) : x = .ok a := by
  cases x with
  | error => cases h
  | ok => cases h; rfl

@[simp] theorem next_before (t : Token) (ts : List Token) (c : Cursor) :
    next (c.before (t :: ts)) = .ok (t, c.before ts) := rfl

@[simp] theorem skip_before (t : Token) (ts : List Token) (c : Cursor) :
    skip (c.before (t :: ts)) = .ok ((), c.before ts) := rfl

@[simp] theorem when_false (p : Parser Unit) (c : Cursor) : when false p c = .ok ((), c) := rfl

@[simp] theorem when_true (p : Parser Unit) : when true p = p := rfl

@[simp] theorem textSince_apply (start c : Cursor) :
    textSince start c = .ok (spell (start.upTo c), c) := rfl

theorem accept_before {w : Text} {t : Token} (h : t.is w = true) (ts : List Token) (c : Cursor) :
    accept w (c.before (t :: ts)) = .ok (true, c.before ts) := by
  simp [accept, h]

theorem accept_of_not_sees {w : Text} {c : Cursor} (h : c.sees w = false) :
    accept w c = .ok (false, c) := by
  simp [accept, h]

theorem acceptEither_of_not_sees {v w : Text} {c : Cursor} (hv : c.sees v = false)
    (hw : c.sees w = false) : acceptEither v w c = .ok (false, c) := by
  simp [acceptEither, accept_of_not_sees hv, accept_of_not_sees hw]

theorem expect_before {w : Text} {t : Token} (h : t.is w = true) (ts : List Token) (c : Cursor) :
    expect w (c.before (t :: ts)) = .ok ((), c.before ts) := by
  simp [expect, accept_before h]

theorem expectName_before {t : Token} (h : t.isWord = true) (ts : List Token) (c : Cursor) :
    expectName (c.before (t :: ts)) = .ok (t.raw, c.before ts) := by
  simp [expectName, h]

/-- The parser takes the tokens `ts` before `c` and answers `a`. -/
def Takes (p : Parser α) (ts : List Token) (c : Cursor) (a : α) : Prop :=
  p (c.before ts) = .ok (a, c)

/-! ## Loops -/

section Rounds
variable {round : σ → Parser (Turn σ β)} {n : Nat} {s s' : σ} {c c' : Cursor} {b : β}

theorem rounds_again (h : round s c = .ok (.again s', c')) :
    rounds round (n + 1) s c = rounds round n s' c' := by
  simp [rounds, h]

theorem rounds_done (h : round s c = .ok (.done b, c')) (hn : 0 < n) :
    rounds round n s c = .ok (b, c') := by
  obtain ⟨n, rfl⟩ : ∃ k, n = k + 1 := ⟨n - 1, by omega⟩
  simp [rounds, h]

theorem loop_apply (round : σ → Parser (Turn σ β)) (s : σ) (c : Cursor) :
    loop round s c = rounds round (c.rest.length + 1) s c := rfl

/-- A loop that ends at once. -/
theorem loop_done (h : round s c = .ok (.done b, c')) : loop round s c = .ok (b, c') :=
  rounds_done h (Nat.succ_pos _)

end Rounds

/-! ## Brackets -/

/-- One more token, with the closers that are awaited. -/
def balancedRound (closers : List Text) : Parser (Turn (List Text) Unit) := do
  let token ← next
  if token.isEnd then rejectAt token .unbalancedBrackets
  else if token.isMark then
    match closerOf? token.raw, closers with
    | some closer, _ => return .again (closer :: closers)
    | none, closer :: outer =>
      if token.raw = closer then
        return if outer.isEmpty then .done () else .again outer
      else return .again closers
    | none, [] => return .again closers
  else return .again closers

theorem skipBalanced_eq : skipBalanced = loop balancedRound [] := rfl

end Parser

end WireSchema.Source
