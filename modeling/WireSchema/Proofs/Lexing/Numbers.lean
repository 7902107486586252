import WireSchema.Source.Lexer
/-!
# Numbers do not look behind their end

How long a number is does not change when something comes behind it that cannot
go on with it, such as white space, a bracket or a separator.
-/

namespace WireSchema

/-- May go on with a number: a digit of any base, a dot, an underscore, a sign,
or a letter that marks a base or a large number. -/
def CodePoint.continuesNumber (c : CodePoint) : Bool :=
  c.isDigit || c.isBetween 'a' 'f' || c.isBetween 'A' 'F' || (Text.ofString "._+-xXoOn").contains c

namespace Source

/-- The code points that end a number: white space, brackets and separators. -/
def numberBreaks : Text := " \n,;:?|&()[]<>\x7b\x7d"

/-- The text is empty or begins with what ends a number. -/
def Breaks (s : Text) : Prop := ∀ c, s.head? = some c → c ∈ numberBreaks

/-- The text is empty or its first code point does not satisfy `p`. -/
def Stays (p : CodePoint → Bool) (s : Text) : Prop := ∀ c, s.head? = some c → p c = false

theorem Breaks.stays {p : CodePoint → Bool} {s : Text} (h : Breaks s)
    (hp : ∀ c ∈ numberBreaks, p c = false) : Stays p s := fun c hc => hp c (h c hc)

theorem Breaks.ends {s : Text} (h : Breaks s) : Stays CodePoint.continuesNumber s := h.stays (by decide)

section
variable {p q : CodePoint → Bool} {s : Text}

theorem Stays.mono (hs : Stays q s) (hp : ∀ c, p c = true → q c = true) : Stays p s :=
  fun c hc => Bool.eq_false_iff.2 fun hyes => Bool.eq_false_iff.1 (hs c hc) (hp c hyes)

theorem runLength_append (hs : Stays p s) (t : Text) : runLength p (t ++ s) = runLength p t := by
  induction t with
  | nil =>
    cases s with
    | nil => rfl
    | cons c rest => simp [runLength, hs c rfl]
  | cons c rest ih =>
    simp only [runLength, List.cons_append, List.takeWhile_cons] at ih ⊢
    split
    · rw [List.length_cons, List.length_cons, ih]
    · rfl

theorem runLength_le (p : CodePoint → Bool) (t : Text) : runLength p t ≤ t.length :=
  (List.takeWhile_sublist p).length_le

theorem runLength_of_all {t : Text} (h : t.all p = true) : runLength p t = t.length := by
  induction t with
  | nil => rfl
  | cons c rest ih =>
    simp only [List.all_cons, Bool.and_eq_true] at h
    have hrest : (rest.takeWhile p).length = rest.length := ih h.2
    rw [runLength, List.takeWhile_cons, if_pos h.1, List.length_cons, List.length_cons, hrest]

theorem startsWith_append_of_stays {c : CodePoint} (hs : Stays (· == c) s) (t : Text) :
    Text.startsWith (t ++ s) [c] = Text.startsWith t [c] := by
  cases t with
  | nil =>
    cases s with
    | nil => rfl
    | cons d rest =>
      have hne : (c == d) = false := by
        rw [Bool.beq_comm]
        exact hs d rfl
      simp [Text.startsWith, List.isPrefixOf, hne]
  | cons d rest => simp [Text.startsWith, List.isPrefixOf]

/-! ## Lengths are no longer than the text -/

theorem signLength_le (t : Text) : signLength t ≤ t.length := by
  cases t with
  | nil => exact Nat.le_refl 0
  | cons c rest =>
    rw [signLength]
    split <;> simp

theorem digitsLength_le (t : Text) : digitsLength t ≤ t.length := by
  cases t with
  | nil => exact Nat.le_refl 0
  | cons c rest =>
    rw [digitsLength]
    split
    · rw [List.length_cons, Nat.add_comm]
      exact Nat.succ_le_succ (runLength_le _ rest)
    · exact Nat.zero_le _

theorem fractionLength_le (t : Text) : fractionLength t ≤ t.length := by
  rw [fractionLength]
  split
  next h =>
    cases t with
    | nil => cases h
    | cons c rest =>
      have := runLength_le (fun d => d.isDecimal || d == CodePoint.ofChar '_') rest
      simp only [List.drop_one, List.tail_cons, List.length_cons]
      omega
  · exact Nat.zero_le _

theorem mantissaLength_le (t : Text) : mantissaLength t ≤ t.length := by
  rw [mantissaLength]
  have hdigits := digitsLength_le t
  split
  · split
    next h =>
      have hrest := digitsLength_le (t.drop 1)
      split
      · exact Nat.zero_le _
      next digits hdigits =>
        simp only [hdigits, List.length_drop] at hrest
        omega
    · exact Nat.zero_le _
  next whole hwhole =>
    have := fractionLength_le (t.drop (whole + 1))
    simp only [List.length_drop] at this
    omega

theorem exponentLength_le (t : Text) : exponentLength t ≤ t.length := by
  cases t with
  | nil => exact Nat.le_refl 0
  | cons c rest =>
    simp only [exponentLength]
    split
    · have hrun := runLength_le CodePoint.isDecimal (rest.drop (signLength rest))
      have hsign := signLength_le rest
      split
      · exact Nat.zero_le _
      next digits hdigits =>
        simp only [hdigits, List.length_drop] at hrun
        simp only [List.length_cons]
        omega
    · exact Nat.zero_le _

theorem bigMarkLength_le (t : Text) : bigMarkLength t ≤ t.length := by
  rw [bigMarkLength]
  split
  next h =>
    cases t with
    | nil => cases h
    | cons c rest => simp
  · exact Nat.zero_le _

theorem decimalNumberLength_le (t : Text) : decimalNumberLength t ≤ t.length := by
  have hbody := mantissaLength_le t
  rw [decimalNumberLength]
  split
  · exact Nat.zero_le _
  next body heq =>
    have hexponent := exponentLength_le (t.drop (body + 1))
    have hmark := bigMarkLength_le (t.drop (body + 1 + exponentLength (t.drop (body + 1))))
    simp only [List.length_drop] at hexponent hmark
    show body + 1 + exponentLength (t.drop (body + 1)) +
      bigMarkLength (t.drop (body + 1 + exponentLength (t.drop (body + 1)))) ≤ t.length
    omega

theorem markedNumberLength_le (t : Text) : markedNumberLength t ≤ t.length := by
  match t with
  | [] => exact Nat.le_refl 0
  | [_] => exact Nat.zero_le _
  | z :: x :: rest =>
    rw [markedNumberLength]
    split
    · split
      · exact Nat.zero_le _
      next isDigit _ =>
        have hrun := runLength_le isDigit rest
        split
        · exact Nat.zero_le _
        next digits _ =>
          have hmark := bigMarkLength_le (rest.drop (digits + 1))
          simp only [List.length_drop] at hmark
          simp only [List.length_cons]
          omega
    · exact Nat.zero_le _

theorem numberLength_le (t : Text) : numberLength t ≤ t.length := by
  have hmarked := markedNumberLength_le t
  rw [numberLength]
  split
  · exact decimalNumberLength_le t
  · omega

end

/-! ## What goes on with a number -/

section
variable {c : CodePoint}

theorem isDecimal_of_isBetween (h : c.isBetween '0' '9' = true) : c.isDecimal = true := by
  simp only [CodePoint.isBetween, Bool.and_eq_true, decide_eq_true_eq] at h
  rw [CodePoint.isDecimal, CodePoint.decimal?, Option.isSome_map, List.find?_isSome]
  refine ⟨0x30, List.mem_cons_self, ?_⟩
  simp only [Bool.and_eq_true, decide_eq_true_eq]
  exact ⟨h.1, Nat.lt_succ_of_le h.2⟩

theorem continuesNumber_of_isDecimal (h : c.isDecimal = true) : c.continuesNumber = true := by
  rw [CodePoint.continuesNumber, CodePoint.isDigit, h]
  rfl

/-- The marks that go on with a number. -/
theorem continuesNumber_of_mem (h : c ∈ Text.ofString "._+-nxXoObBeE0") : c.continuesNumber = true := by
  have hall : ∀ c ∈ Text.ofString "._+-nxXoObBeE0", c.continuesNumber = true := by decide
  exact hall c h

theorem continuesNumber_of_digits (h : (c.isDecimal || c == CodePoint.ofChar '_') = true) : c.continuesNumber = true := by
  rcases Bool.or_eq_true_iff.1 h with hdigit | hmark
  · exact continuesNumber_of_isDecimal hdigit
  · rw [beq_iff_eq.1 hmark]
    exact continuesNumber_of_mem (by decide)

theorem continuesNumber_of_marked {x : CodePoint} {isDigit : CodePoint → Bool} (hx : markedDigit? x = some isDigit)
    (h : isDigit c = true) : c.continuesNumber = true := by
  have hnine (hbetween : c.isBetween '0' '9' = true) : c.continuesNumber = true :=
    continuesNumber_of_isDecimal (isDecimal_of_isBetween hbetween)
  have hline (heq : c = CodePoint.ofChar '_') : c.continuesNumber = true := by
    rw [heq]
    exact continuesNumber_of_mem (by decide)
  unfold markedDigit? at hx
  split at hx
  · cases hx
    simp only [Bool.or_eq_true, beq_iff_eq] at h
    rcases h with ((hdigit | hlow) | hhigh) | hmark
    · exact hnine hdigit
    · simp [CodePoint.continuesNumber, hlow]
    · simp [CodePoint.continuesNumber, hhigh]
    · exact hline hmark
  split at hx
  · cases hx
    simp only [Bool.or_eq_true, beq_iff_eq] at h
    rcases h with (rfl | rfl) | hmark
    · exact hnine (by decide)
    · exact hnine (by decide)
    · exact hline hmark
  split at hx
  · cases hx
    simp only [Bool.or_eq_true, beq_iff_eq] at h
    rcases h with hdigit | hmark
    · refine hnine ?_
      simp only [CodePoint.isBetween, Bool.and_eq_true, decide_eq_true_eq] at hdigit ⊢
      exact ⟨hdigit.1, Nat.le_trans hdigit.2 (by decide)⟩
    · exact hline hmark
  · cases hx

/-- The mark of a base goes on with a number. -/
theorem continuesNumber_of_mark (h : (markedDigit? c).isSome = true) : c.continuesNumber = true := by
  unfold markedDigit? at h
  split at h
  next hc => exact continuesNumber_of_mem (by rcases hc with rfl | rfl <;> decide)
  split at h
  next hc => exact continuesNumber_of_mem (by rcases hc with rfl | rfl <;> decide)
  split at h
  next hc => exact continuesNumber_of_mem (by rcases hc with rfl | rfl <;> decide)
  · cases h

end

/-! ## Lengths do not change -/

section
variable {s : Text} (hs : Stays CodePoint.continuesNumber s)
include hs

theorem ends_mark {d : CodePoint} (hd : d ∈ Text.ofString "._+-nxXoObBeE0") : Stays (· == d) s :=
  hs.mono fun _ hc => beq_iff_eq.1 hc ▸ continuesNumber_of_mem hd

theorem bigMarkLength_append (t : Text) : bigMarkLength (t ++ s) = bigMarkLength t := by
  have : Stays (· == CodePoint.ofChar 'n') s := ends_mark hs (by decide)
  rw [bigMarkLength, bigMarkLength]
  exact congrArg (if · then 1 else 0) (startsWith_append_of_stays this t)

theorem digitsLength_append (t : Text) : digitsLength (t ++ s) = digitsLength t := by
  cases t with
  | nil =>
    cases s with
    | nil => rfl
    | cons c rest =>
      have : c.isDecimal = false := hs.mono (fun _ => continuesNumber_of_isDecimal) c rfl
      simp [digitsLength, this]
  | cons c rest =>
    have : Stays (fun d => d.isDecimal || d == CodePoint.ofChar '_') s := hs.mono fun _ => continuesNumber_of_digits
    simp only [digitsLength, List.cons_append, runLength_append this]

theorem signLength_append (t : Text) : signLength (t ++ s) = signLength t := by
  cases t with
  | nil =>
    cases s with
    | nil => rfl
    | cons c rest =>
      have hplus := ends_mark hs (d := '+') (by decide) c rfl
      have hminus := ends_mark hs (d := '-') (by decide) c rfl
      rw [beq_eq_false_iff_ne] at hplus hminus
      simp [signLength, hplus, hminus]
  | cons c rest => rfl

theorem exponentLength_append (t : Text) : exponentLength (t ++ s) = exponentLength t := by
  have hdecimal : Stays CodePoint.isDecimal s := hs.mono fun _ => continuesNumber_of_isDecimal
  cases t with
  | nil =>
    cases s with
    | nil => rfl
    | cons c rest =>
      have hsmall := ends_mark hs (d := 'e') (by decide) c rfl
      have hlarge := ends_mark hs (d := 'E') (by decide) c rfl
      rw [beq_eq_false_iff_ne] at hsmall hlarge
      simp [exponentLength, hsmall, hlarge]
  | cons c rest =>
    simp only [exponentLength, List.cons_append, signLength_append hs,
      List.drop_append_of_le_length (signLength_le rest), runLength_append hdecimal]

theorem fractionLength_append (t : Text) : fractionLength (t ++ s) = fractionLength t := by
  have hdot : Stays (· == CodePoint.ofChar '.') s := ends_mark hs (by decide)
  have hdigit : Stays (fun d => d.isDecimal || d == CodePoint.ofChar '_') s := hs.mono fun _ => continuesNumber_of_digits
  have hstart : Text.startsWith (t ++ s) "." = Text.startsWith t "." := startsWith_append_of_stays hdot t
  rw [fractionLength, fractionLength, hstart]
  cases t with
  | nil => rfl
  | cons c rest => rw [List.cons_append, List.drop_one, List.drop_one, List.tail_cons, List.tail_cons, runLength_append hdigit]

theorem mantissaLength_append (t : Text) : mantissaLength (t ++ s) = mantissaLength t := by
  have hdot : Stays (· == CodePoint.ofChar '.') s := ends_mark hs (by decide)
  have hstart : Text.startsWith (t ++ s) "." = Text.startsWith t "." := startsWith_append_of_stays hdot t
  have hle := digitsLength_le t
  rw [mantissaLength, mantissaLength, digitsLength_append hs, hstart]
  split
  · cases t with
    | nil => rfl
    | cons c rest => rw [List.cons_append, List.drop_one, List.drop_one, List.tail_cons, List.tail_cons, digitsLength_append hs]
  next whole hwhole =>
    rw [hwhole] at hle
    rw [List.drop_append_of_le_length hle, fractionLength_append hs]

theorem decimalNumberLength_append (t : Text) :
    decimalNumberLength (t ++ s) = decimalNumberLength t := by
  rw [decimalNumberLength, decimalNumberLength, mantissaLength_append hs]
  have hbody := mantissaLength_le t
  split
  · rfl
  next body heq =>
    have hexponent := exponentLength_le (t.drop (body + 1))
    simp only [List.length_drop] at hexponent
    have hdrop : (t ++ s).drop (body + 1) = t.drop (body + 1) ++ s :=
      List.drop_append_of_le_length (by omega)
    simp only [hdrop, exponentLength_append hs]
    rw [List.drop_append_of_le_length (by omega), bigMarkLength_append hs]

theorem markedNumberLength_append (t : Text) :
    markedNumberLength (t ++ s) = markedNumberLength t := by
  match t with
  | [] =>
    match s with
    | [] => rfl
    | [_] => rfl
    | c :: d :: rest =>
      have hzero : (c == CodePoint.ofChar '0') = false :=
        ends_mark hs (by decide) c rfl
      simp only [List.nil_append, markedNumberLength, beq_eq_false_iff_ne.1 hzero, if_false]
  | [z] =>
    match s with
    | [] => rfl
    | c :: rest =>
      have hmark : (markedDigit? c).isSome = false :=
        hs.mono (fun _ => continuesNumber_of_mark) c rfl
      rw [Option.isSome_eq_false_iff, Option.isNone_iff_eq_none] at hmark
      simp [markedNumberLength, hmark]
  | z :: x :: rest =>
    simp only [List.cons_append, markedNumberLength]
    split
    · split
      · rfl
      next isDigit hdigit =>
        have hrun := runLength_le isDigit rest
        have hstays : Stays isDigit s := hs.mono fun _ => continuesNumber_of_marked hdigit
        rw [runLength_append hstays]
        split
        · rfl
        next digits heq =>
          rw [List.drop_append_of_le_length (by omega), bigMarkLength_append hs]
    · rfl

/-- A number is as long as it is, if what comes behind cannot go on with it. -/
theorem numberLength_append (t : Text) : numberLength (t ++ s) = numberLength t := by
  rw [numberLength, numberLength, markedNumberLength_append hs, decimalNumberLength_append hs]

end

end Source

end WireSchema
