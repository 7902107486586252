import WireSchema.Proofs.Grammar.Repeats
/-!
# Looking ahead in a longer source

The rules of the grammar look at the present token, at the one behind it and, at
a parenthesis or a brace, as far as its closer. What comes next in a longer
source does not change what they see, if it leaves the tokens alone.
-/

namespace WireSchema

open Source Source.Cursor Source.Parser

namespace TypeGrammar

/-! ## Looking ahead -/

section
variable {source : Text} {o : Place} {near : Bool} {c d : Cursor} {t next : Token} {opener closer : Text} {depth : Nat}
  {ts us : List Token}

theorem closerIndex_later (k : Nat) (opener closer : Text) (depth : Nat) (ts : List Token) :
    closerIndex opener closer depth (ts.map (·.later k)) = closerIndex opener closer depth ts := by
  induction ts generalizing depth with
  | nil => rfl
  | cons t ts ih => simp only [List.map_cons, closerIndex, Token.isMark_later, Token.raw_later, ih]

theorem closerIndex_le (opener closer : Text) (depth : Nat) (ts : List Token) :
    closerIndex opener closer depth ts ≤ ts.length := by
  induction ts generalizing depth with
  | nil => exact Nat.le_refl _
  | cons t ts ih =>
    have hup := ih (depth + 1)
    have hdown := ih (depth - 1)
    have hsame := ih depth
    rw [closerIndex, List.length_cons]
    split
    · omega
    · split
      · split <;> omega
      · omega

/-- A closer that is there is found before anything behind. -/
theorem closerIndex_append (h : closerIndex opener closer depth ts < ts.length) (us : List Token) :
    closerIndex opener closer depth (ts ++ us) = closerIndex opener closer depth ts := by
  induction ts generalizing depth with
  | nil => exact absurd h (Nat.not_lt_zero _)
  | cons t ts ih =>
    rw [List.cons_append, closerIndex, closerIndex]
    rw [closerIndex, List.length_cons] at h
    split
    next hopen =>
      rw [if_pos hopen] at h
      rw [ih (by omega)]
    next hopen =>
      rw [if_neg hopen] at h
      split
      next hclose =>
        rw [if_pos hclose] at h
        split
        · rfl
        next hdepth =>
          rw [if_neg hdepth] at h
          rw [ih (by omega)]
      next hclose =>
        rw [if_neg hclose] at h
        rw [ih (by omega)]

/-- What two tokens in a row decide is decided alike where they would join. -/
theorem ahead_put (h : Seam source o near c) (hne : c.rest ≠ []) {P Q : Token → Bool}
    (hP : ∀ t, P (t.later o.shift) = P t) (hQ : ∀ t, Q (t.later o.shift) = Q t)
    (hend : ∀ t, t.isEnd = true → Q t = false) (hjoins : ∀ t next, P t = true → Q next = true → t.joins next = true) :
    (P (o.put c).peek && Q ((o.put c).peek 1)) = (P c.peek && Q (c.peek 1)) := by
  obtain ⟨t, d, rfl⟩ := exists_first hne
  rw [peek_put o (by simp), hP]
  by_cases hd : d.rest = []
  · -- behind the last token comes the end here and what comes next there
    have hlength : (d.before [t]).rest.length = 1 := by simp [hd]
    have hlast : t.joins o.next.peek = false := h.parts.last t (by simp [hd])
    rw [peek_length_le (Nat.le_of_eq hlength), hend _ h.last, peek_put_of_le o (Nat.le_of_eq hlength), hlength,
      peek_before, Bool.and_false, Bool.and_eq_false_imp]
    intro ht
    refine Bool.eq_false_iff.2 fun hnext => ?_
    rw [hjoins t _ ht hnext] at hlast
    cases hlast
  · have hlength := List.length_pos_iff.2 hd
    rw [peek_put o (by simp; omega), hQ]

theorem dotted_put (h : Seam source o near c) :
    ((o.put c).sees "." && ((o.put c).peek 1).isWord) = (c.sees "." && (c.peek 1).isWord) := by
  by_cases hne : c.rest = []
  · have hdot : c.sees "." = false := not_sees_end h.last (by simp [hne]) "."
    rw [h.sees_joint (Nat.zero_le _) (by decide), hdot, Bool.false_and, Bool.false_and]
  · exact ahead_put (P := fun t => t.is ".") (Q := Token.isWord) h hne (Token.is_later _ · _) (Token.isWord_later _)
      (fun _ => Token.not_isWord_of_isEnd) fun t next ht hnext => by simp [Token.joins, ht, hnext]

theorem bracket_put (h : Seam source o near c) (hbracket : o.next.sees "[" = true → o.next.peek.lineBreak = true) :
    ((o.put c).sees "[" && !(o.put c).peek.lineBreak) = (c.sees "[" && !c.peek.lineBreak) := by
  by_cases hne : c.rest = []
  · rw [not_sees_end h.last (by simp [hne]), Bool.false_and, Cursor.sees, peek_put_of_le o (by simp [hne]), hne]
    cases hsees : o.next.peek.is "[" with
    | false => exact Bool.false_and _
    | true => simp [hbracket hsees]
  · have hlength := List.length_pos_iff.2 hne
    rw [sees_put o hlength, peek_put o hlength, Token.lineBreak_later]

theorem angle_put (h : Seam source o near c) :
    ((o.put c).sees "<" && !(o.put c).peek.spaceBefore) = (c.sees "<" && !c.peek.spaceBefore) := by
  by_cases hne : c.rest = []
  · rw [not_sees_end h.last (by simp [hne]), Bool.false_and, Cursor.sees, peek_put_of_le o (by simp [hne]), hne]
    cases hsees : o.next.peek.is "<" with
    | false => exact Bool.false_and _
    | true => simp [(h.parts.angle hsees).1]
  · have hlength := List.length_pos_iff.2 hne
    rw [sees_put o hlength, peek_put o hlength, Token.spaceBefore_later]

theorem beginsFunction_put (h : Seam source o near c) (hne : c.rest ≠ []) :
    beginsFunction (o.put c) = beginsFunction c := by
  have hlength := List.length_pos_iff.2 hne
  rw [beginsFunction, beginsFunction, sees_put o hlength, sees_put o hlength]
  cases hopen : c.sees "(" with
  | false => rw [Bool.false_and, Bool.false_and]
  | true =>
    have hle := closerIndex_le "(" ")" 0 c.rest
    rcases h.closed with hquiet | hclosed
    · have hindex : closerIndex "(" ")" 0 (o.put c).rest = closerIndex "(" ")" 0 c.rest := by
        rw [Place.put, rest_before, hquiet.1, List.append_nil, closerIndex_later]
      rw [hindex, hquiet.sees h.last]
    · obtain ⟨t, d, rfl⟩ := exists_first hne
      have hfound := (hclosed t d.rest (List.suffix_refl _)).1 hopen
      have hindex : closerIndex "(" ")" 0 (o.put (d.before [t])).rest = closerIndex "(" ")" 0 (d.before [t]).rest := by
        rw [Place.put, rest_before, closerIndex_append (by rw [closerIndex_later, List.length_map]; exact hfound),
          closerIndex_later]
      rw [hindex]
      rw [h.sees_joint (n := closerIndex "(" ")" 0 (d.before [t]).rest + 1) hfound (by decide)]

/-- Two cursors are before the same tokens up to a closing brace. -/
structure UpToBrace (c c' : Cursor) (j : Nat) : Prop where
  brace : (c.peek j).Marks "\x7d"
  alike : ∃ k, ∀ n ≤ j, c'.peek n = (c.peek n).later k

section
variable {c' : Cursor} {i j : Nat}

theorem UpToBrace.sees_eq (h : UpToBrace c c' j) (w : Text) (hi : i ≤ j) : c'.sees w i = c.sees w i := by
  obtain ⟨k, halike⟩ := h.alike
  rw [Cursor.sees, halike i hi, Token.is_later, Cursor.sees]

/-- What another mark is there is not the brace. -/
theorem UpToBrace.lt_of_sees (h : UpToBrace c c' j) {w : Text} (hi : i ≤ j) (hsees : c.sees w i = true)
    (hw : ("\x7d" : Text) ≠ w) : i < j := by
  refine Nat.lt_of_le_of_ne hi fun heq => ?_
  rw [heq, Cursor.sees, h.brace.is_eq, beq_eq_false_iff_ne.2 hw] at hsees
  cases hsees

theorem UpToBrace.key_eq (h : UpToBrace c c' j) (hi : i ≤ j) :
    (c'.sees "[" i && (c'.peek (i + 1)).isWord && c'.sees "in" (i + 2)) =
      (c.sees "[" i && (c.peek (i + 1)).isWord && c.sees "in" (i + 2)) := by
  obtain ⟨k, halike⟩ := h.alike
  rw [h.sees_eq "[" hi]
  cases hopen : c.sees "[" i with
  | false => rfl
  | true =>
  have hkey : i + 1 ≤ j := h.lt_of_sees hi hopen (by decide)
  rw [halike (i + 1) hkey, Token.isWord_later]
  cases hword : (c.peek (i + 1)).isWord with
  | false => rfl
  | true =>
  have hin : i + 2 ≤ j := Nat.lt_of_le_of_ne hkey fun heq => by
    rw [heq, h.brace.isWord] at hword
    cases hword
  rw [h.sees_eq "in" hin]

/-- Looking for a mapped type does not look behind the brace. -/
theorem UpToBrace.mapped_eq (h : UpToBrace c c' j) (hj : 0 < j) : beginsMapped c' = beginsMapped c := by
  have hfrom (i : Nat) (hi : i ≤ j) : (if c'.sees "readonly" i then i + 1 else i) = (if c.sees "readonly" i then i + 1 else i) ∧
      (if c.sees "readonly" i then i + 1 else i) ≤ j := by
    rw [h.sees_eq "readonly" hi]
    split
    next hread => exact ⟨rfl, h.lt_of_sees hi hread (by decide)⟩
    next hread => exact ⟨rfl, hi⟩
  obtain ⟨k, halike⟩ := h.alike
  have hsign : (if ((c.peek 1).isOneOf ["+", "-"]) then 2 else 1) ≤ j := by
    split
    next hsign =>
      refine Nat.lt_of_le_of_ne hj fun heq => ?_
      rw [show 1 = j from heq, h.brace.isOneOf_eq] at hsign
      revert hsign
      decide
    next hsign => exact hj
  simp only [beginsMapped, halike 1 hj, Token.isOneOf_later]
  obtain ⟨heq, hle⟩ := hfrom _ hsign
  rw [heq]
  exact h.key_eq hle

end

/-- Between a brace and the brace that closes it, looking ahead stays among the tokens. -/
theorem beginsMapped_put (h : Seam source o near c) (hopen : c.sees "\x7b" = true) :
    beginsMapped (o.put c) = beginsMapped c := by
  rcases h.closed with hquiet | hclosed
  · have hword (n : Nat) : ((o.put c).peek n).isWord = (c.peek n).isWord :=
      hquiet.ahead h.last (Token.isWord_later _) (fun _ => Token.not_isWord_of_isEnd) n
    have hsign : ((o.put c).peek 1).isOneOf ["+", "-"] = (c.peek 1).isOneOf ["+", "-"] :=
      hquiet.ahead (P := fun t => t.isOneOf ["+", "-"]) h.last (Token.isOneOf_later _ · _)
        (fun _ ht => Token.not_isOneOf_of_isEnd ht _) 1
    simp only [beginsMapped, hsign, hquiet.sees h.last, hword]
  · have hne : c.rest ≠ [] := fun hrest => by
      rw [not_sees_end h.last (by simp [hrest])] at hopen
      cases hopen
    obtain ⟨t, d, rfl⟩ := exists_first hne
    obtain ⟨u, hu, hbrace⟩ := (hclosed t d.rest (List.suffix_refl _)).2 hopen
    obtain ⟨j, hj⟩ := List.getElem?_of_mem hu
    have hlt : j < d.rest.length := (List.getElem?_eq_some_iff.1 hj).1
    have hpeek : (d.before [t]).peek (j + 1) = u := by simp [Cursor.peek, hj]
    refine UpToBrace.mapped_eq (j := j + 1) ⟨hpeek ▸ hbrace, o.shift, fun n hn => peek_put o ?_⟩ (Nat.succ_pos j)
    simp
    omega

theorem not_beginsOperand_of_isEnd (h : t.isEnd = true) : beginsOperand t = false := by
  have hl : t.lexeme = .endOfInput := beq_iff_eq.1 h
  simp [beginsOperand, Token.isWord, Token.isString, Token.isNumber, Token.isTemplate, Token.isOneOf, Token.isMark, hl]

theorem beginsModified_put (h : Seam source o near c) (hne : c.rest ≠ []) :
    beginsModified "readonly" (o.put c) = beginsModified "readonly" c := by
  refine ahead_put (P := fun t => t.is "readonly")
    (Q := fun t => t.isWord || t.isString || t.isNumber || t.isOneOf ["["]) h hne (Token.is_later _ · _) ?_ ?_ ?_
  · intro t
    simp
  · intro t ht
    have hl : t.lexeme = .endOfInput := beq_iff_eq.1 ht
    simp [Token.isWord, Token.isString, Token.isNumber, Token.isOneOf, Token.isMark, hl]
  · intro t next ht hnext
    have hoperand : beginsOperand next = true := by
      simp only [beginsOperand, Token.isOneOf] at hnext ⊢
      simp at hnext ⊢
      grind
    simp [Token.joins, operatorWords, ht, hoperand]

theorem operator_put (h : Seam source o near c) (hne : c.rest ≠ []) :
    (c.peek.isWord && operatorWords.contains c.peek.raw && beginsOperand ((o.put c).peek 1)) =
      (c.peek.isWord && operatorWords.contains c.peek.raw && beginsOperand (c.peek 1)) := by
  have hsame := ahead_put (P := fun t => t.isWord && operatorWords.contains t.raw) (Q := beginsOperand) h hne
    (by simp) (by simp [beginsOperand]) (fun _ => not_beginsOperand_of_isEnd) fun t next ht hnext => ?_
  · rwa [peek_put o (List.length_pos_iff.2 hne), Token.isWord_later, Token.raw_later] at hsame
  · rw [Bool.and_eq_true, List.contains_iff_mem] at ht
    have hany : operatorWords.any t.is = true :=
      List.any_eq_true.2 ⟨t.raw, ht.2, by rw [Token.is, ht.1, Bool.true_or, Bool.true_and, beq_self_eq_true]⟩
    rw [Token.joins, hany, hnext]
    rfl

theorem infer_put (h : Seam source o near c) (hne : c.rest ≠ []) :
    ((o.put c).sees "infer" && ((o.put c).peek 1).isWord) = (c.sees "infer" && (c.peek 1).isWord) :=
  ahead_put (P := fun t => t.is "infer") (Q := Token.isWord) h hne (Token.is_later _ · _) (Token.isWord_later _)
    (fun _ => Token.not_isWord_of_isEnd) fun t next ht hnext => by simp [Token.joins, ht, hnext]

/-- What is modified comes behind. -/
theorem one_lt_of_beginsModified {word : Text} (hlast : c.last.isEnd = true) (h : beginsModified word c = true) :
    1 < c.rest.length := by
  refine Nat.lt_of_not_le fun hle => ?_
  have hl : c.last.lexeme = .endOfInput := beq_iff_eq.1 hlast
  rw [beginsModified, peek_length_le hle, Token.not_isWord_of_isEnd hlast, Token.not_isOneOf_of_isEnd hlast] at h
  simp [Token.isString, Token.isNumber, hl] at h

end

/-! ## Refusing at the end of the input -/

section
variable {rules : Rules} {c : Cursor} {mark : Text} {item : Parser TypeExpr} {build : List TypeExpr → Text → TypeExpr}

theorem refuses_primary (hlast : c.last.isEnd = true) (h : c.rest = []) : Refuses (primary rules) c := by
  have hl : (c.peek 0).lexeme = .endOfInput := by
    rw [peek_length_le (by simp [h])]
    exact beq_iff_eq.1 hlast
  simp only [primary, refuses_peek_bind, hl]
  exact refuses_reject _ _

theorem refuses_operand (hlast : c.last.isEnd = true) (h : c.rest = []) : Refuses (operand rules) c := by
  have hword : (c.peek 0).isWord = false := by rw [peek_length_le (by simp [h]), Token.not_isWord_of_isEnd hlast]
  have hinfer : c.sees "infer" = false := not_sees_end hlast (by simp [h]) "infer"
  simp only [operand, refuses_get_bind, hword, hinfer, Bool.false_and, Bool.false_eq_true, if_false, postfixed]
  exact (refuses_primary hlast h).bind _

theorem refuses_chain (hlast : c.last.isEnd = true) (h : c.rest = []) (hitem : Refuses item c) :
    Refuses (chain mark item build) c := by
  refine .behind fun taken d hd => ?_
  rw [accept_of_not_sees (not_sees_end hlast (by simp [h]) mark)] at hd
  cases hd
  simp only [refuses_get_bind]
  exact (hitem.bind _).bind _

theorem refuses_type (hlast : c.last.isEnd = true) (h : c.rest = []) : Refuses (type rules) c := by
  simp only [type, refuses_get_bind]
  exact (refuses_chain hlast h (refuses_chain hlast h (refuses_operand hlast h))).bind _

theorem refuses_functionType (hlast : c.last.isEnd = true) (h : c.rest = []) : Refuses (functionType rules) c := by
  have hnot (w : Text) : c.sees w = false := not_sees_end hlast (by simp [h]) w
  simp only [functionType, refuses_get_bind, refuses_sees_bind, hnot]
  refine .behind fun _ d hd => ?_
  cases hd
  simp only [refuses_sees_bind, hnot]
  exact (refuses_reject _ _ : Refuses (reject .expectedParameters : Parser Unit) c).bind _

end

end TypeGrammar

end WireSchema

/-!
## Nested brackets

Parentheses, brackets and braces are nested if each is closed by its own mark
before what is around it is closed.
-/

namespace WireSchema

open Source Source.Parser

namespace Source

/-- The closers of the brackets that are open behind a token, the innermost
first, if `awaited` are those that are open before it. A closer has to be the
one that is awaited. -/
def Token.turn? (awaited : List Text) (t : Token) : Option (List Text) :=
  if t.isOneOf ["(", "[", "\x7b"] then (closerOf? t.raw).map (· :: awaited)
  else if t.isOneOf [")", "]", "\x7d"] then
    match awaited with
    | [] => none
    | closer :: outer => if t.raw = closer then some outer else none
  else some awaited

/-- The closers of the brackets that are open behind tokens. -/
def awaitedBehind (awaited : List Text) (ts : List Token) : Option (List Text) := ts.foldlM Token.turn? awaited

/-- All brackets that the tokens open are closed, in the right order, and no others. -/
def Nested (ts : List Token) : Prop := awaitedBehind [] ts = some []

instance (ts : List Token) : Decidable (Nested ts) := inferInstanceAs (Decidable (_ = _))

section
variable {awaited awaited' inner outer : List Text} {t : Token} {ts us : List Token} {closer : Text}

@[simp] theorem awaitedBehind_nil (awaited : List Text) : awaitedBehind awaited [] = some awaited := rfl

theorem awaitedBehind_cons : awaitedBehind awaited (t :: ts) = some outer ↔
    ∃ awaited', t.turn? awaited = some awaited' ∧ awaitedBehind awaited' ts = some outer := by
  simp [awaitedBehind, List.foldlM_cons, Option.bind_eq_some_iff]

theorem awaitedBehind_append : awaitedBehind awaited (ts ++ us) = some outer ↔
    ∃ awaited', awaitedBehind awaited ts = some awaited' ∧ awaitedBehind awaited' us = some outer := by
  simp [awaitedBehind, List.foldlM_append, Option.bind_eq_some_iff]

/-- A token opens a bracket, closes one or leaves them as they are. -/
inductive Token.Nests (t : Token) : List Text → List Text → Prop where
  | opens {awaited : List Text} {closer : Text} : t.isOneOf ["(", "[", "\x7b"] = true → closerOf? t.raw = some closer →
    Nests t awaited (closer :: awaited)
  | closes {outer : List Text} : t.isOneOf ["(", "[", "\x7b"] = false → t.isOneOf [")", "]", "\x7d"] = true →
    Nests t (t.raw :: outer) outer
  | plain {awaited : List Text} : t.isOneOf ["(", "[", "\x7b"] = false → t.isOneOf [")", "]", "\x7d"] = false →
    Nests t awaited awaited

theorem nests_of_turn? (h : t.turn? awaited = some awaited') : t.Nests awaited awaited' := by
  unfold Token.turn? at h
  split at h
  next hopen =>
    obtain ⟨closer, hcloser, rfl⟩ := Option.map_eq_some_iff.1 h
    exact .opens hopen hcloser
  next hopen =>
    rw [Bool.not_eq_true] at hopen
    split at h
    next hclose =>
      split at h
      · cases h
      · split at h
        next heq =>
          cases h
          cases heq
          exact .closes hopen hclose
        · cases h
    next hclose =>
      cases h
      exact .plain hopen (Bool.not_eq_true _ ▸ hclose)

theorem isOneOf_iff {ws : List Text} : t.isOneOf ws = true ↔ t.isMark = true ∧ t.raw ∈ ws := by
  rw [Token.isOneOf, Bool.and_eq_true, List.contains_iff_mem]

/-- What opens a bracket awaits its closer. -/
theorem opens_cases (hopen : t.isOneOf ["(", "[", "\x7b"] = true) (hcloser : closerOf? t.raw = some closer) :
    t.raw = "(" ∧ closer = ")" ∨ t.raw = "[" ∧ closer = "]" ∨ t.raw = "\x7b" ∧ closer = "\x7d" := by
  have hpairs : closerOf? "(" = some (")" : Text) ∧ closerOf? "[" = some ("]" : Text) ∧
      closerOf? "\x7b" = some ("\x7d" : Text) := by decide
  have hmem := (isOneOf_iff.1 hopen).2
  simp only [List.mem_cons, List.not_mem_nil, or_false] at hmem
  rcases hmem with hraw | hraw | hraw
  · rw [hraw, hpairs.1, Option.some_inj] at hcloser
    exact .inl ⟨hraw, hcloser.symm⟩
  · rw [hraw, hpairs.2.1, Option.some_inj] at hcloser
    exact .inr (.inl ⟨hraw, hcloser.symm⟩)
  · rw [hraw, hpairs.2.2, Option.some_inj] at hcloser
    exact .inr (.inr ⟨hraw, hcloser.symm⟩)

/-- How a token changes the count of open parentheses, and where the search for a closer goes on behind it. -/
theorem closerIndex_step (h : t.Nests awaited awaited') (depth : Nat) (ts : List Token) :
    (awaited'.count (")" : Text) = awaited.count (")" : Text) + 1 ∧
        closerIndex "(" ")" depth (t :: ts) = 1 + closerIndex "(" ")" (depth + 1) ts) ∨
      (awaited.count (")" : Text) = awaited'.count (")" : Text) + 1 ∧
        closerIndex "(" ")" depth (t :: ts) = if depth ≤ 1 then 0 else 1 + closerIndex "(" ")" (depth - 1) ts) ∨
      (awaited'.count (")" : Text) = awaited.count (")" : Text) ∧
        closerIndex "(" ")" depth (t :: ts) = 1 + closerIndex "(" ")" depth ts) := by
  have hplain (hopen : t.raw ≠ "(" ∨ t.isMark = false) (hclose : t.raw ≠ ")" ∨ t.isMark = false) :
      closerIndex "(" ")" depth (t :: ts) = 1 + closerIndex "(" ")" depth ts := by
    have hnot {w : Text} (hw : t.raw ≠ w ∨ t.isMark = false) : (t.isMark && t.raw == w) = false := by
      rcases hw with hw | hw <;> simp [hw]
    rw [closerIndex, hnot hopen, hnot hclose]
    rfl
  have hnone {w : Text} {ws : List Text} (hnot : t.isOneOf ws = false) (hw : w ∈ ws) : t.raw ≠ w ∨ t.isMark = false := by
    refine Decidable.or_iff_not_imp_left.2 fun hraw => Bool.eq_false_iff.2 fun hmark => ?_
    rw [isOneOf_iff.2 ⟨hmark, Decidable.not_not.1 hraw ▸ hw⟩] at hnot
    cases hnot
  cases h with
  | opens hopen hcloser =>
    have hmark := (isOneOf_iff.1 hopen).1
    rcases opens_cases hopen hcloser with ⟨hraw, rfl⟩ | ⟨hraw, rfl⟩ | ⟨hraw, rfl⟩
    · exact .inl ⟨List.count_cons_self, by rw [closerIndex, if_pos (by simp [hmark, hraw])]⟩
    · refine .inr (.inr ⟨List.count_cons_of_ne (by decide), hplain (.inl ?_) (.inl ?_)⟩) <;> rw [hraw] <;> decide
    · refine .inr (.inr ⟨List.count_cons_of_ne (by decide), hplain (.inl ?_) (.inl ?_)⟩) <;> rw [hraw] <;> decide
  | closes hopen hclose =>
    have hmark := (isOneOf_iff.1 hclose).1
    have hopens : t.raw ≠ "(" := (hnone hopen (by decide)).resolve_right (by simp [hmark])
    by_cases hparen : t.raw = ")"
    · refine .inr (.inl ⟨by rw [hparen, List.count_cons_self], ?_⟩)
      rw [closerIndex, if_neg (by simp [hopens]), if_pos (by simp [hmark, hparen])]
    · exact .inr (.inr ⟨(List.count_cons_of_ne hparen).symm, hplain (.inl hopens) (.inl hparen)⟩)
  | plain hopen hclose =>
    exact .inr (.inr ⟨rfl, hplain (hnone hopen (by decide)) (hnone hclose (by decide))⟩)

/-- A parenthesis that is open is closed behind. -/
theorem closerIndex_lt {depth : Nat} (h : awaitedBehind awaited ts = some []) (hdepth : 1 ≤ depth)
    (hopen : depth ≤ awaited.count (")" : Text)) : closerIndex "(" ")" depth ts < ts.length := by
  induction ts generalizing awaited depth with
  | nil =>
    rw [awaitedBehind_nil, Option.some_inj] at h
    subst h
    exact absurd (Nat.le_trans hdepth hopen) (Nat.not_succ_le_zero 0)
  | cons t ts ih =>
    obtain ⟨awaited', hturn, hrest⟩ := awaitedBehind_cons.1 h
    rw [List.length_cons]
    rcases closerIndex_step (nests_of_turn? hturn) depth ts with ⟨hcount, heq⟩ | ⟨hcount, heq⟩ | ⟨hcount, heq⟩
    · have hlt : closerIndex "(" ")" (depth + 1) ts < ts.length := ih hrest (by omega) (by omega)
      omega
    · rw [heq]
      split
      · exact Nat.succ_pos _
      · have hlt : closerIndex "(" ")" (depth - 1) ts < ts.length := ih hrest (by omega) (by omega)
        omega
    · have hlt := ih hrest hdepth (by omega)
      omega

/-- The search for a closer passes over brackets that are closed. -/
theorem closerIndex_nested {depth : Nat} (h : awaitedBehind awaited ts = some []) (hdepth : 1 ≤ depth) (rest : List Token) :
    closerIndex "(" ")" (depth + awaited.count (")" : Text)) (ts ++ rest) = ts.length + closerIndex "(" ")" depth rest := by
  induction ts generalizing awaited with
  | nil =>
    rw [awaitedBehind_nil, Option.some_inj] at h
    subst h
    simp
  | cons t ts ih =>
    obtain ⟨awaited', hturn, hrest⟩ := awaitedBehind_cons.1 h
    have hbehind := ih hrest
    rw [List.cons_append, List.length_cons]
    rcases closerIndex_step (nests_of_turn? hturn) (depth + awaited.count (")" : Text)) (ts ++ rest) with
      ⟨hcount, heq⟩ | ⟨hcount, heq⟩ | ⟨hcount, heq⟩
    · rw [heq, Nat.add_assoc, ← hcount, hbehind]
      omega
    · rw [heq, if_neg (by omega), hcount, ← Nat.add_assoc, Nat.add_sub_cancel, hbehind]
      omega
    · rw [heq, ← hcount, hbehind]
      omega

theorem exists_brace (h : awaitedBehind awaited ts = some []) (hbrace : ("\x7d" : Text) ∈ awaited) :
    ∃ u ∈ ts, u.Marks "\x7d" := by
  induction ts generalizing awaited with
  | nil =>
    rw [awaitedBehind_nil, Option.some_inj] at h
    rw [h] at hbrace
    cases hbrace
  | cons t ts ih =>
    obtain ⟨awaited', hturn, hrest⟩ := awaitedBehind_cons.1 h
    have hlater (hmem : ("\x7d" : Text) ∈ awaited') : ∃ u ∈ t :: ts, u.Marks "\x7d" := by
      obtain ⟨u, hu, hmark⟩ := ih hrest hmem
      exact ⟨u, List.mem_cons_of_mem _ hu, hmark⟩
    cases nests_of_turn? hturn with
    | opens => exact hlater (List.mem_cons_of_mem _ hbrace)
    | closes _ hclose =>
      rcases List.mem_cons.1 hbrace with heq | hmem
      · have hmark : t.isMark = true := (Bool.and_eq_true_iff.1 hclose).1
        exact ⟨t, List.mem_cons_self, beq_iff_eq.1 hmark, heq.symm⟩
      · exact hlater hmem
    | plain => exact hlater hbrace

/-- A bracket that is seen is a mark. -/
theorem marks_of_is {w : Text} (hlexed : t.Lexed) (h : t.is w = true) (hw : Text.isName w = false) : t.Marks w := by
  rw [Token.is, Bool.and_eq_true, Bool.or_eq_true, beq_iff_eq] at h
  obtain ⟨hword | hmark, rfl⟩ := h
  · rw [hlexed.word (beq_iff_eq.1 hword)] at hw
    cases hw
  · exact ⟨beq_iff_eq.1 hmark, rfl⟩

theorem turn?_open {opener : Text} (h : t.Marks opener) (hopener : opener ∈ (["(", "[", "\x7b"] : List Text))
    (hcloser : closerOf? opener = some closer) : t.turn? awaited = some (closer :: awaited) := by
  unfold Token.turn?
  rw [if_pos (isOneOf_iff.2 ⟨h.isMark, h.2 ▸ hopener⟩), h.2, hcloser]
  rfl

theorem turn?_plain {w : Text} (h : t.is w = true) (hw : w ∉ (["(", "[", "\x7b", ")", "]", "\x7d"] : List Text)) :
    t.turn? awaited = some awaited := by
  have hraw : t.raw = w := by
    rw [Token.is, Bool.and_eq_true] at h
    exact beq_iff_eq.1 h.2
  have hnot {ws : List Text} (hws : ∀ v ∈ ws, v ∈ (["(", "[", "\x7b", ")", "]", "\x7d"] : List Text)) : t.isOneOf ws = false :=
    Bool.eq_false_iff.2 fun hmark => hw (hws w (hraw ▸ (isOneOf_iff.1 hmark).2))
  unfold Token.turn?
  rw [hnot (by decide), hnot (by decide)]
  rfl

/-- Nested brackets are all closed. -/
theorem Nested.closed (h : Nested ts) (hlexed : ∀ t ∈ ts, t.Lexed) : Closed ts := by
  rintro t us ⟨front, rfl⟩
  obtain ⟨outer, _, hbehind⟩ := awaitedBehind_append.1 h
  obtain ⟨awaited, hturn, hrest⟩ := awaitedBehind_cons.1 hbehind
  have ht : t.Lexed := hlexed t (List.mem_append_right front List.mem_cons_self)
  refine ⟨fun hopen => ?_, fun hopen => ?_⟩
  · have hmark := marks_of_is ht hopen (by decide)
    rw [turn?_open hmark (by decide) (show closerOf? "(" = some (")" : Text) by decide), Option.some_inj] at hturn
    subst hturn
    have hlt : closerIndex "(" ")" 1 us < us.length := closerIndex_lt hrest (Nat.le_refl 1) (by simp)
    have hmatch : (t.isMark && t.raw == "(") = true := by rw [hmark.isMark, hmark.2]; decide
    rw [closerIndex, if_pos hmatch, List.length_cons, Nat.zero_add]
    omega
  · have hmark := marks_of_is ht hopen (by decide)
    rw [turn?_open hmark (by decide) (show closerOf? "\x7b" = some ("\x7d" : Text) by decide), Option.some_inj] at hturn
    subst hturn
    exact exists_brace hrest List.mem_cons_self

end

end Source

end WireSchema
