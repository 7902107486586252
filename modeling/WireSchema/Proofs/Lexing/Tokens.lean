import WireSchema.Proofs.Lexing.Chunks
import WireSchema.Proofs.Lexing.Gaps
/-!
# Tokens of the lexer

The text of a word is read as a word, and that of a number as a number, also
where nothing comes behind it.
-/

namespace WireSchema.Source

/-! ## Numbers cut off behind their end -/

section
variable {t : Text} {m : Nat}

theorem runLength_take {p : CodePoint → Bool} (h : runLength p t ≤ m) :
    runLength p (t.take m) = runLength p t := by
  induction t generalizing m with
  | nil => simp
  | cons c rest ih =>
    cases hc : p c with
    | false => cases m <;> simp [runLength, hc]
    | true =>
      simp only [runLength, List.takeWhile_cons, hc, if_true, List.length_cons] at h ⊢
      obtain ⟨m, rfl⟩ : ∃ k, m = k + 1 := ⟨m - 1, by omega⟩
      simpa [hc, runLength] using ih (m := m) (by simp only [runLength]; omega)

theorem startsWith_singleton_take {c : CodePoint} (h : 0 < m) :
    Text.startsWith (t.take m) [c] = Text.startsWith t [c] := by
  obtain ⟨m, rfl⟩ : ∃ k, m = k + 1 := ⟨m - 1, by omega⟩
  cases t <;> rfl

theorem bigMarkLength_take (h : bigMarkLength t ≤ m) : bigMarkLength (t.take m) = bigMarkLength t := by
  cases m with
  | zero =>
    rw [Nat.le_zero.1 h]
    rfl
  | succ m =>
    rw [bigMarkLength, bigMarkLength]
    exact congrArg (if · then 1 else 0) (startsWith_singleton_take (Nat.succ_pos m))

theorem digitsLength_take (h : digitsLength t ≤ m) : digitsLength (t.take m) = digitsLength t := by
  cases t with
  | nil => simp
  | cons c rest =>
    cases hc : c.isDecimal with
    | false => cases m <;> simp [digitsLength, hc]
    | true =>
      simp only [digitsLength, hc, if_true] at h ⊢
      obtain ⟨m, rfl⟩ : ∃ k, m = k + 1 := ⟨m - 1, by omega⟩
      have hrun : runLength (fun d => d.isDecimal || d == CodePoint.ofChar '_') rest ≤ m := by omega
      simp [hc, runLength_take hrun]

theorem signLength_take (h : signLength t ≤ m) : signLength (t.take m) = signLength t := by
  cases m with
  | zero =>
    rw [Nat.le_zero.1 h]
    rfl
  | succ m => cases t <;> rfl

theorem signLength_le_one (t : Text) : signLength t ≤ 1 := by
  cases t with
  | nil => exact Nat.zero_le 1
  | cons c rest =>
    rw [signLength]
    split <;> simp

theorem exponentLength_take (h : exponentLength t ≤ m) :
    exponentLength (t.take m) = exponentLength t := by
  cases t with
  | nil => simp
  | cons c rest =>
    cases m with
    | zero =>
      rw [Nat.le_zero.1 h]
      rfl
    | succ m =>
      rw [List.take_succ_cons]
      simp only [exponentLength] at h ⊢
      split
      next hmark =>
        rw [if_pos hmark] at h
        have hone := signLength_le_one rest
        cases m with
        | zero =>
          -- nothing is left behind the mark, so there were no digits
          split at h
          next => simp [runLength]
          next => omega
        | succ m =>
          rw [signLength_take (m := m + 1) (by omega), List.drop_take]
          rw [runLength_take]
          split at h <;> omega
      · rfl

theorem fractionLength_take (h : fractionLength t ≤ m) :
    fractionLength (t.take m) = fractionLength t := by
  cases m with
  | zero =>
    rw [Nat.le_zero.1 h]
    rfl
  | succ m =>
    have hstart : Text.startsWith (t.take (m + 1)) "." = Text.startsWith t "." :=
      startsWith_singleton_take (Nat.succ_pos m)
    rw [fractionLength, fractionLength, hstart]
    split
    next hdot =>
      rw [fractionLength, if_pos hdot] at h
      rw [List.drop_take, runLength_take]
      omega
    · rfl

theorem mantissaLength_take (h : mantissaLength t ≤ m) :
    mantissaLength (t.take m) = mantissaLength t := by
  cases m with
  | zero =>
    rw [Nat.le_zero.1 h]
    rfl
  | succ m =>
    have hstart : Text.startsWith (t.take (m + 1)) "." = Text.startsWith t "." :=
      startsWith_singleton_take (Nat.succ_pos m)
    have hdigits : digitsLength (t.take (m + 1)) = digitsLength t := by
      refine digitsLength_take ?_
      rw [mantissaLength] at h
      split at h <;> omega
    rw [mantissaLength, mantissaLength, hdigits, hstart]
    split
    next hzero =>
      split
      next hdot =>
        simp only [mantissaLength, hzero, hdot, if_true] at h
        rw [List.drop_take, digitsLength_take]
        split at h <;> omega
      · rfl
    next whole hwhole =>
      simp only [mantissaLength, hwhole] at h
      rw [List.drop_take, fractionLength_take (by omega)]

theorem decimalNumberLength_take (h : decimalNumberLength t ≤ m) :
    decimalNumberLength (t.take m) = decimalNumberLength t := by
  have hmantissa : mantissaLength (t.take m) = mantissaLength t := by
    refine mantissaLength_take ?_
    simp only [decimalNumberLength] at h
    split at h <;> omega
  rw [decimalNumberLength, decimalNumberLength, hmantissa]
  split
  · rfl
  next body hbody =>
    simp only [decimalNumberLength, hbody] at h
    simp only [List.drop_take]
    rw [exponentLength_take (by omega), bigMarkLength_take (by omega)]

theorem markedNumberLength_take (h : markedNumberLength t ≤ m) :
    markedNumberLength (t.take m) = markedNumberLength t := by
  match t, m with
  | [], _ => simp
  | [_], 0 => rfl
  | [_], m + 1 => simp
  | z :: x :: rest, 0 =>
    rw [Nat.le_zero.1 h]
    rfl
  | z :: x :: rest, 1 =>
    simp only [List.take_succ_cons, List.take_zero, markedNumberLength] at h ⊢
    split at h
    next =>
      split at h
      next => simp
      next isDigit hdigit =>
        split at h
        next => simp
        next => omega
    next hzero => simp [hzero]
  | z :: x :: rest, m + 2 =>
    simp only [List.take_succ_cons, markedNumberLength] at h ⊢
    split
    · split
      · rfl
      next isDigit hdigit =>
        rw [if_pos (by assumption)] at h
        simp only [hdigit] at h
        have hrun : runLength isDigit (rest.take m) = runLength isDigit rest := by
          refine runLength_take ?_
          split at h <;> omega
        rw [hrun]
        split
        · rfl
        next digits hdigits =>
          simp only [hdigits] at h
          rw [List.drop_take, bigMarkLength_take (by omega)]
    · rfl

theorem numberLength_take (h : numberLength t ≤ m) : numberLength (t.take m) = numberLength t := by
  have hmarked : markedNumberLength (t.take m) = markedNumberLength t := by
    refine markedNumberLength_take ?_
    rw [numberLength] at h
    split at h <;> omega
  rw [numberLength, numberLength, hmarked]
  split
  next hzero =>
    rw [numberLength, hzero] at h
    exact decimalNumberLength_take h
  · rfl

end

theorem numberLength_of_isNumeral {raw : Text} (h : Text.isNumeral raw = true) :
    numberLength raw = raw.length := by
  cases raw with
  | nil => cases h
  | cons c rest =>
    simp only [Text.isNumeral, Bool.and_eq_true, beq_iff_eq] at h
    exact h.2

/-- A number is made of what goes on with one. -/
theorem continuesNumber_of_isNumeral {raw : Text} {c : CodePoint} (h : Text.isNumeral raw = true) (hc : c ∈ raw) :
    c.continuesNumber = true := by
  refine Decidable.byContradiction fun hno => ?_
  obtain ⟨s, rest, rfl⟩ := List.append_of_mem hc
  have hlength := numberLength_of_isNumeral h
  have hends : Stays CodePoint.continuesNumber (c :: rest) := by
    rintro d ⟨⟩
    exact Bool.eq_false_iff.2 hno
  have hle := numberLength_le s
  rw [numberLength_append hends, List.length_append, List.length_cons] at hlength
  omega

/-- A number stands on one line, since a line feed ends it. -/
theorem line_of_isNumeral {raw : Text} (h : Text.isNumeral raw = true) : CodePoint.ofChar '\n' ∉ raw := by
  intro hmem
  have hfeed : (CodePoint.ofChar '\n').continuesNumber = false := by decide
  rw [continuesNumber_of_isNumeral h hmem] at hfeed
  cases hfeed

/-! ## Tokens -/

/-- The text of the token is one that the lexer reads as such a token. -/
structure Token.Lexed (t : Token) : Prop where
  word : t.lexeme = .word → Text.isName t.raw = true
  number : t.lexeme = .number → Text.isNumeral t.raw = true

theorem take_runLength (p : CodePoint → Bool) (t : Text) : t.take (runLength p t) = t.takeWhile p := by
  induction t with
  | nil => rfl
  | cons c rest ih =>
    cases hc : p c with
    | false => simp [runLength, hc]
    | true => simpa [runLength, hc] using ih

/-- A number cut out of a text is read as one number. -/
theorem isNumeral_take {c : CodePoint} {rest : Text} {n : Nat} (hblank : c.isBlank = false)
    (hbegin : (c.isDigit || (c == CodePoint.ofChar '.' &&
      (rest.head?.map CodePoint.isDigit).getD false)) = true)
    (hlength : numberLength (c :: rest) = n + 1) : Text.isNumeral (c :: rest.take n) = true := by
  have hle := numberLength_le (c :: rest)
  have htake := numberLength_take (t := c :: rest) (m := n + 1) (by omega)
  rw [hlength, List.length_cons] at hle
  rw [List.take_succ_cons, hlength] at htake
  have hcut : (rest.take n).length = n := by
    rw [List.length_take]
    omega
  have hhead : (c.isDigit || (c == CodePoint.ofChar '.' &&
      ((rest.take n).head?.map CodePoint.isDigit).getD false)) = true := by
    cases n with
    | zero =>
      -- a dot alone is no number
      cases hdigit : c.isDigit with
      | true => rfl
      | false =>
        simp only [hdigit, Bool.false_or, Bool.and_eq_true, beq_iff_eq] at hbegin
        rw [hbegin.1, List.take_zero] at htake
        exact absurd htake (by decide)
    | succ n =>
      cases rest with
      | nil => exact hbegin
      | cons d rest => exact hbegin
  simp only [Text.isNumeral, hblank, hhead, htake, hcut, Bool.not_false, Bool.true_and, beq_self_eq_true]

/-- What is read as a word or a number is read as such by itself. -/
theorem readPiece_lexed {stop at_ more : Nat} {gap : Gap} {c : CodePoint} {rest : Text} {lexeme : Lexeme}
    (h : readPiece stop at_ gap c rest = .ok (.token lexeme more)) :
    (lexeme = .word → Text.isName (c :: rest.take more) = true) ∧
      (lexeme = .number → Text.isNumeral (c :: rest.take more) = true) := by
  obtain ⟨hends, htoken⟩ := readPiece_eq_token.1 h
  cases htoken with
  | number _ hnumeral hlength =>
    refine ⟨fun hl => ?_, fun _ => isNumeral_take hends.blank hnumeral hlength⟩
    cases hl
  | word _ hnumeral hword =>
    have hdigit : c.isDigit = false := by
      rw [beginsNumber, Bool.or_eq_false_iff] at hnumeral
      exact hnumeral.1
    refine ⟨fun _ => ?_, fun hl => ?_⟩
    · simp [Text.isName, hword, hends.blank, hdigit, take_runLength]
    · cases hl
  | _ => constructor <;> intro hl <;> cases hl

/-- The lexer answers with such tokens, the end of the input behind them. -/
theorem tokensFrom_lexed {stop at_ : Nat} {gap : Gap} {t : Text} {tokens : List Token}
    (h : tokensFrom stop at_ gap t = .ok tokens) :
    ∃ (ts : List Token) (last : Token), tokens = ts ++ [last] ∧ (∀ t ∈ ts, t.Lexed) ∧ last.isEnd = true := by
  rw [tokensFrom_eq_ok] at h
  induction h with
  | ended _ => exact ⟨[], _, rfl, by simp, rfl⟩
  | gap _ _ _ ih => exact ih
  | token _ hpiece _ ih =>
    obtain ⟨ts, last, rfl, hts, hlast⟩ := ih
    obtain ⟨hword, hnumber⟩ := readPiece_lexed hpiece
    exact ⟨_ :: ts, last, rfl, List.forall_mem_cons.2 ⟨⟨hword, hnumber⟩, hts⟩, hlast⟩

theorem tokenize_lexed {source : Text} {start stop : Nat} {tokens : List Token}
    (h : tokenize source start stop = .ok tokens) :
    ∃ (ts : List Token) (last : Token), tokens = ts ++ [last] ∧ (∀ t ∈ ts, t.Lexed) ∧ last.isEnd = true :=
  tokensFrom_lexed h

theorem lexed_of_mem {source : Text} {start stop : Nat} {tokens : List Token} (h : tokenize source start stop = .ok tokens) :
    ∀ u ∈ tokens, u.Lexed := by
  obtain ⟨ts, last, rfl, hts, hlast⟩ := tokenize_lexed h
  have hend : last.lexeme = .endOfInput := beq_iff_eq.1 hlast
  have hlexed : last.Lexed := by
    constructor
    · intro hword
      cases hend.symm.trans hword
    · intro hnumber
      cases hend.symm.trans hnumber
  exact List.forall_mem_append.2 ⟨hts, List.forall_mem_singleton.2 hlexed⟩

end WireSchema.Source
