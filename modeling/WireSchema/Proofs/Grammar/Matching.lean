import WireSchema.Proofs.Grammar.Members
/-!
# The closer of a bracket

One rule passes over brackets of four kinds with the closers it awaits on a
stack; another looks ahead and counts the brackets of one kind. Where all four
kinds are paired, both come to the same closer.
-/

namespace WireSchema

open Source Source.Cursor Source.Parser

namespace Source

namespace Token

/-- The token is a bracket, and `closer` closes it. -/
def Opens (t : Token) (closer : Text) : Prop := t.isMark = true ∧ closerOf? t.raw = some closer

/-- The token is no bracket, and there may be others behind it. -/
structure Plain (t : Token) : Prop where
  not_isEnd : t.isEnd = false
  not_bracket : ∀ {opener closer : Text}, closerOf? opener = some closer → ¬ t.Marks opener ∧ ¬ t.Marks closer

theorem Plain.ofOther {t : Token} (hend : t.isEnd = false) (hmark : t.isMark = false) : t.Plain where
  not_isEnd := hend
  not_bracket _ := ⟨fun h => by simp [h.isMark] at hmark, fun h => by simp [h.isMark] at hmark⟩

end Token

/-- Each bracket is closed by its own mark before what is around it is closed, and
nothing else is closed. -/
inductive Paired : List Token → Prop where
  | nil : Paired []
  | plain {t : Token} {ts : List Token} : t.Plain → Paired ts → Paired (t :: ts)
  | group {opener closer : Token} {mark : Text} {inner ts : List Token} : opener.Opens mark → Paired inner →
    closer.Marks mark → Paired ts → Paired (opener :: (inner ++ closer :: ts))

section
variable {o o' k k' : Text}

theorem closerOf?_cases (h : closerOf? o = some k) :
    o = "(" ∧ k = ")" ∨ o = "[" ∧ k = "]" ∨ o = "\x7b" ∧ k = "\x7d" ∨ o = "<" ∧ k = ">" := by
  unfold closerOf? at h
  split at h
  next ho => exact .inl ⟨ho, (Option.some.inj h).symm⟩
  split at h
  next ho => exact .inr (.inl ⟨ho, (Option.some.inj h).symm⟩)
  split at h
  next ho => exact .inr (.inr (.inl ⟨ho, (Option.some.inj h).symm⟩))
  split at h
  next ho => exact .inr (.inr (.inr ⟨ho, (Option.some.inj h).symm⟩))
  cases h

/-- A closer opens nothing. -/
theorem closerOf?_closer (h : closerOf? o = some k) : closerOf? k = none := by
  rcases closerOf?_cases h with ⟨_, rfl⟩ | ⟨_, rfl⟩ | ⟨_, rfl⟩ | ⟨_, rfl⟩ <;> decide

/-- Two kinds of brackets have two closers. -/
theorem closerOf?_inj (h : closerOf? o = some k) (h' : closerOf? o' = some k) : o = o' := by
  rcases closerOf?_cases h with ⟨rfl, rfl⟩ | ⟨rfl, rfl⟩ | ⟨rfl, rfl⟩ | ⟨rfl, rfl⟩ <;>
    rcases closerOf?_cases h' with ⟨rfl, hk⟩ | ⟨rfl, hk⟩ | ⟨rfl, hk⟩ | ⟨rfl, hk⟩ <;>
      first | rfl | exact absurd hk (by decide)

/-- A mark that is none of the brackets. -/
theorem Token.Plain.ofMark {t : Token} {m : Text} (h : t.Marks m)
    (hm : m ∉ (["(", ")", "[", "]", "\x7b", "\x7d", "<", ">"] : List Text)) : t.Plain where
  not_isEnd := by simp [Token.isEnd, h.1]
  not_bracket hk := by
    refine ⟨fun hmarks => hm (h.2 ▸ hmarks.2 ▸ ?_), fun hmarks => hm (h.2 ▸ hmarks.2 ▸ ?_)⟩ <;>
      rcases closerOf?_cases hk with ⟨rfl, rfl⟩ | ⟨rfl, rfl⟩ | ⟨rfl, rfl⟩ | ⟨rfl, rfl⟩ <;> decide

theorem closerOf?_ne (h : closerOf? o = some k) (h' : closerOf? o' = some k') : k ≠ o' := by
  rintro rfl
  rw [closerOf?_closer h] at h'
  cases h'

end

namespace Parser

variable {c : Cursor} {t opener closer : Token} {w : Text} {closers outer : List Text} {inner ts rest : List Token}

/-! ## Passing over brackets -/

/-- What is awaited are closers. -/
def Awaited (closers : List Text) : Prop := ∀ closer ∈ closers, ∃ opener, closerOf? opener = some closer

theorem Awaited.nil : Awaited [] := nofun

theorem Awaited.cons (h : Awaited closers) (hopen : t.Opens w) : Awaited (w :: closers) :=
  List.forall_mem_cons.2 ⟨⟨t.raw, hopen.2⟩, h⟩

theorem balancedRound_opens (h : t.Opens w) (closers : List Text) (c : Cursor) :
    balancedRound closers (c.before [t]) = .ok (.again (w :: closers), c) := by
  simp [balancedRound, Token.not_isEnd_of_isMark h.1, h.1, h.2]

/-- The closer that is awaited is taken; the last one ends the run. -/
theorem balancedRound_closes (h : t.Marks w) (hcloser : closerOf? w = none) (outer : List Text) (c : Cursor) :
    balancedRound (w :: outer) (c.before [t]) = .ok (if outer.isEmpty then .done () else .again outer, c) := by
  obtain ⟨hl, rfl⟩ := h
  simp [balancedRound, Token.isEnd, Token.isMark, hl, hcloser]

theorem balancedRound_plain (h : t.Plain) (hclosers : Awaited closers) (c : Cursor) :
    balancedRound closers (c.before [t]) = .ok (.again closers, c) := by
  simp only [balancedRound, bind_apply, next_before, ok_bind, h.not_isEnd, Bool.false_eq_true, if_false, before_nil]
  split
  next hmark =>
    have hmarks : t.Marks t.raw := ⟨beq_iff_eq.1 hmark, rfl⟩
    cases hcloser : closerOf? t.raw with
    | some closer => exact absurd hmarks (h.not_bracket hcloser).1
    | none =>
      cases closers with
      | nil => rfl
      | cons closer outer =>
        obtain ⟨opener, hopener⟩ := hclosers closer List.mem_cons_self
        have hraw : t.raw ≠ closer := fun heq => (h.not_bracket hopener).2 (heq ▸ hmarks)
        simp only [if_neg hraw, pure_apply]
  next => rfl

/-- Paired brackets are passed over with the same closers awaited behind them. -/
theorem rounds_paired (h : Paired ts) (hclosers : Awaited closers) (hne : closers ≠ []) (n : Nat) (c : Cursor) :
    rounds balancedRound (n + ts.length) closers (c.before ts) = rounds balancedRound n closers c := by
  induction h generalizing closers c n with
  | nil => rfl
  | @plain t ts ht _ ih =>
    rw [List.length_cons, ← Nat.add_assoc, before_cons, rounds_again (balancedRound_plain ht hclosers _),
      ih hclosers hne]
  | @group opener closer mark inner ts hopen _ hclose _ ihinner ih =>
    have hlength : n + (opener :: (inner ++ closer :: ts)).length = n + ts.length + 1 + inner.length + 1 := by
      simp only [List.length_cons, List.length_append]
      omega
    have hclosed : balancedRound (mark :: closers) ((c.before ts).before [closer]) = .ok (.again closers, c.before ts) := by
      rw [balancedRound_closes hclose (closerOf?_closer hopen.2), if_neg (by simpa using hne)]
    rw [hlength, before_cons, rounds_again (balancedRound_opens hopen _ _), before_append,
      ihinner (hclosers.cons hopen) (List.cons_ne_nil _ _), before_cons, rounds_again hclosed, ih hclosers hne]

/-- Behind its opener, a paired run is passed over up to the closer that matches. -/
theorem skipBalanced_group (hopen : opener.Opens w) (hinner : Paired inner) (hclose : closer.Marks w) (c : Cursor) :
    skipBalanced (c.before (opener :: (inner ++ [closer]))) = .ok ((), c) := by
  have hclosed : balancedRound [w] (c.before [closer]) = .ok (.done (), c) :=
    balancedRound_closes hclose (closerOf?_closer hopen.2) [] c
  have hlength : (c.before (opener :: (inner ++ [closer]))).rest.length + 1 = c.rest.length + 1 + 1 + inner.length + 1 := by
    simp only [rest_before, List.length_append, List.length_cons, List.length_nil]
    omega
  rw [skipBalanced_eq, loop_apply, hlength, before_cons, rounds_again (balancedRound_opens hopen _ _), before_append,
    rounds_paired hinner (Awaited.nil.cons hopen) (List.cons_ne_nil _ _), rounds_done hclosed (Nat.succ_pos _)]

/-! ## Looking for the closer -/

theorem closerIndex_opens (h : t.isMark = true) (k : Text) (depth : Nat) (ts : List Token) :
    closerIndex t.raw k depth (t :: ts) = 1 + closerIndex t.raw k (depth + 1) ts := by
  rw [closerIndex, if_pos (by simp [h])]

theorem closerIndex_closes {o : Text} (h : t.Marks w) (hne : w ≠ o) (depth : Nat) (ts : List Token) :
    closerIndex o w depth (t :: ts) = if depth ≤ 1 then 0 else 1 + closerIndex o w (depth - 1) ts := by
  rw [closerIndex, if_neg (by simp [h.2, hne]), if_pos (by simp [h.isMark, h.2])]

/-- What is not of this kind does not count. -/
theorem closerIndex_other {o k : Text} (ho : ¬ t.Marks o) (hk : ¬ t.Marks k) (depth : Nat) (ts : List Token) :
    closerIndex o k depth (t :: ts) = 1 + closerIndex o k depth ts := by
  have hnot {v : Text} (hv : ¬ t.Marks v) : ¬ (t.isMark && t.raw == v) = true := by
    rw [Bool.and_eq_true, beq_iff_eq]
    exact fun h => hv ⟨beq_iff_eq.1 h.1, h.2⟩
  rw [closerIndex, if_neg (hnot ho), if_neg (hnot hk)]

/-- Paired brackets leave the count as it is. -/
theorem closerIndex_paired {o k : Text} (h : Paired ts) (hk : closerOf? o = some k) {depth : Nat} (hdepth : 1 ≤ depth)
    (rest : List Token) : closerIndex o k depth (ts ++ rest) = ts.length + closerIndex o k depth rest := by
  induction h generalizing depth rest with
  | nil => simp
  | @plain t ts ht _ ih =>
    obtain ⟨hopen, hclose⟩ := ht.not_bracket hk
    rw [List.cons_append, closerIndex_other hopen hclose, ih hdepth, List.length_cons]
    omega
  | @group opener closer mark inner ts hopen _ hclose _ ihinner ih =>
    have hcons : opener :: (inner ++ closer :: ts) ++ rest = opener :: (inner ++ closer :: (ts ++ rest)) := by simp
    have hlength : (opener :: (inner ++ closer :: ts)).length = 1 + inner.length + 1 + ts.length := by
      simp only [List.length_cons, List.length_append]
      omega
    rw [hcons, hlength]
    by_cases hkind : opener.raw = o
    · -- a bracket of this kind, which counts until its closer
      subst hkind
      obtain rfl : mark = k := Option.some.inj (hopen.2.symm.trans hk)
      rw [closerIndex_opens hopen.1, ihinner (Nat.le_add_left 1 depth), closerIndex_closes hclose (closerOf?_ne hk hk),
        if_neg (by omega), Nat.add_sub_cancel, ih hdepth]
      omega
    · have hmark : mark ≠ k := fun heq => hkind (closerOf?_inj hopen.2 (heq ▸ hk))
      have hother : ¬ opener.Marks k := fun hmarks => by
        have hnone := closerOf?_closer hk
        rw [← hmarks.2, hopen.2] at hnone
        cases hnone
      rw [closerIndex_other (fun hmarks => hkind hmarks.2) hother, ihinner hdepth,
        closerIndex_other (fun hmarks => closerOf?_ne hopen.2 hk (hclose.2.symm.trans hmarks.2))
          (fun hmarks => hmark (hclose.2.symm.trans hmarks.2)), ih hdepth]
      omega

/-- From an opener the search comes to the closer that matches. -/
theorem closerIndex_group (hopen : opener.Opens w) (hinner : Paired inner) (hclose : closer.Marks w) (rest : List Token) :
    closerIndex opener.raw w 0 (opener :: (inner ++ closer :: rest)) = inner.length + 1 := by
  rw [closerIndex_opens hopen.1, closerIndex_paired hinner hopen.2 (Nat.le_refl 1),
    closerIndex_closes hclose (closerOf?_ne hopen.2 hopen.2), if_pos (Nat.le_refl 1)]
  omega

/-- A paired run that begins with an opener goes as far as the search at least. -/
theorem closerIndex_lt_of_paired (h : Paired ts) (hfirst : ts.head? = some opener) (hopen : opener.Opens w)
    (rest : List Token) : closerIndex opener.raw w 0 (ts ++ rest) < ts.length := by
  cases h with
  | nil => cases hfirst
  | plain ht _ =>
    cases hfirst
    exact absurd ⟨beq_iff_eq.1 hopen.1, rfl⟩ (ht.not_bracket hopen.2).1
  | group hfirstOpen hinner hclose _ =>
    cases hfirst
    obtain rfl := Option.some.inj (hfirstOpen.2.symm.trans hopen.2)
    rw [List.cons_append, List.append_assoc, List.cons_append, closerIndex_group hopen hinner hclose]
    simp only [List.length_cons, List.length_append]
    omega

/-- What is seen is taken. -/
theorem expect_of_sees (h : c.sees w = true) : expect w c = .ok ((), { c with rest := c.rest.drop 1 }) := by
  obtain ⟨rest, last⟩ := c
  cases rest <;> simp [expect, accept, next, h]

end Parser

end Source

namespace TypeGrammar

variable {c : Cursor} {opener closer : Token} {w : Text} {inner rest : List Token}

/-- A parenthesis is passed over up to the arrow that was seen behind it. -/
theorem functionType_arrow (hopen : opener.is "(" = true) (hskip : skipBalanced c = .ok ((), { c with rest := rest }))
    (hfirst : c.peek = opener) (harrow : Cursor.sees { c with rest := rest } "=>" = true) (rules : Rules) :
    functionType rules c = (returnType rules { c with rest := rest.drop 1 }).bind fun x =>
      .ok (.verbatim (spell (c.upTo x.2)) .function, x.2) := by
  have hangle : c.sees "<" = false := by rw [Cursor.sees, hfirst, Token.is_ne hopen (by decide)]
  have hparen : c.sees "(" = true := by rw [Cursor.sees, hfirst, hopen]
  simp [functionType, hangle, hparen, hskip, expect_of_sees harrow]

/-- Where an opener has its closer, with all brackets paired in between, both rules
come to it: the search counts the tokens before it, and the run that is passed
over ends with it. No shorter run from here is paired. If the opener is a
parenthesis and what begins here looks like a function type, the arrow that was
seen ahead is the one that comes behind the closer. -/
theorem matchers_agree (hopen : opener.Opens w) (hinner : Paired inner) (hclose : closer.Marks w)
    (hrest : c.rest = opener :: (inner ++ closer :: rest)) :
    let i := closerIndex opener.raw w 0 c.rest
    i = inner.length + 1 ∧ c.peek i = closer ∧ skipBalanced c = .ok ((), { c with rest := c.rest.drop (i + 1) }) ∧
      Paired (c.rest.take (i + 1)) ∧ (∀ n, n ≠ 0 → Paired (c.rest.take n) → i + 1 ≤ n) ∧
      (opener.raw = "(" → beginsFunction c = true → c.sees "=>" (i + 1) = true ∧ ∀ rules : Rules,
        functionType rules c = (returnType rules { c with rest := c.rest.drop (i + 2) }).bind fun x =>
          .ok (.verbatim (spell (c.upTo x.2)) .function, x.2)) := by
  obtain ⟨tokens, last⟩ := c
  obtain rfl : tokens = opener :: (inner ++ closer :: rest) := hrest
  have hsplit : opener :: (inner ++ closer :: rest) = opener :: (inner ++ [closer]) ++ rest := by simp
  have hlength : inner.length + 1 + 1 = (opener :: (inner ++ [closer])).length := by simp
  have hindex : closerIndex opener.raw w 0 (opener :: (inner ++ closer :: rest)) = inner.length + 1 :=
    closerIndex_group hopen hinner hclose rest
  have hdrop : (opener :: (inner ++ closer :: rest)).drop (inner.length + 1 + 1) = rest := by
    rw [hsplit, hlength, List.drop_left]
  have hskip : skipBalanced ⟨opener :: (inner ++ closer :: rest), last⟩ = .ok ((), ⟨rest, last⟩) := by
    rw [hsplit]
    exact skipBalanced_group hopen hinner hclose ⟨rest, last⟩
  intro i
  have hi : i = inner.length + 1 := hindex
  -- the index is that of the closer; all else is said about this place
  clear_value i
  subst hi
  refine ⟨rfl, ?peek, ?rest, ?paired, fun n hn hpaired => ?least, fun hparen hbegins => ?arrow⟩
  case peek => simp [Cursor.peek]
  case rest => rw [hskip, hdrop]
  case paired =>
    rw [hsplit, hlength, List.take_left]
    exact .group hopen hinner hclose .nil
  case least =>
    obtain ⟨n, rfl⟩ := Nat.exists_eq_succ_of_ne_zero hn
    have hlt := closerIndex_lt_of_paired hpaired rfl hopen (List.drop (n + 1) (opener :: (inner ++ closer :: rest)))
    rw [List.take_append_drop, hindex] at hlt
    exact Nat.le_trans hlt (List.length_take_le _ _)
  case arrow =>
    have hmark : w = ")" := by
      have hcloser := hopen.2
      rw [hparen, show closerOf? "(" = some (")" : Text) by decide] at hcloser
      exact (Option.some.inj hcloser).symm
    subst hmark
    have his : opener.is "(" = true := by simp [Token.is, hopen.1, hparen]
    have hangle : opener.is "<" = false := Token.is_ne his (by decide)
    rw [hparen] at hindex
    have harrow : Cursor.sees ⟨opener :: (inner ++ closer :: rest), last⟩ "=>" (inner.length + 1 + 1) = true := by
      simpa [beginsFunction, Cursor.sees, Cursor.peek, hangle, his, hindex] using hbegins
    have hbehind : Cursor.sees ⟨rest, last⟩ "=>" = true := by
      rw [hsplit, hlength, Cursor.sees] at harrow
      exact (congrArg (Token.is · "=>") (peek_before_length ⟨rest, last⟩ (opener :: (inner ++ [closer])) 0)).symm.trans harrow
    have hdropArrow : (opener :: (inner ++ closer :: rest)).drop (inner.length + 1 + 2) = rest.drop 1 :=
      (List.drop_drop (i := 1)).symm.trans (congrArg (List.drop 1) hdrop)
    refine ⟨harrow, fun rules => ?_⟩
    rw [functionType_arrow his hskip rfl hbehind rules, hdropArrow]

/-- The tokens of `(a: [b<c>]) => d`. -/
def arrowTokens : List Token :=
  [mark "(", word "a", mark ":", mark "[", word "b", mark "<", word "c", mark ">", mark "]", mark ")", mark "=>", word "d"]
where
  mark (raw : Text) : Token := ⟨.mark, raw, 0, 0, false, false, []⟩
  word (raw : Text) : Token := ⟨.word, raw, 0, 0, false, false, []⟩

/-- The arrow is seen behind the parenthesis that is passed over. -/
theorem matchers_agree_arrow :
    let c : Cursor := ⟨arrowTokens, ⟨.endOfInput, [], 0, 0, false, true, []⟩⟩
    closerIndex "(" ")" 0 c.rest = 9 ∧ skipBalanced c = .ok ((), { c with rest := arrowTokens.drop 10 }) ∧
      beginsFunction c = true := by
  have hopen : (arrowTokens.mark "(").Opens ")" := ⟨rfl, by decide⟩
  have hclose : (arrowTokens.mark ")").Marks ")" := ⟨rfl, rfl⟩
  have hword (raw : Text) : (arrowTokens.word raw).Plain := .ofOther rfl rfl
  have hcolon : (arrowTokens.mark ":").Plain := .ofMark (m := ":") ⟨rfl, rfl⟩ (by decide)
  have harguments : Paired ((arrowTokens.drop 4).take 4) :=
    .plain (hword _) (.group ⟨rfl, by decide⟩ (.plain (hword _) .nil) ⟨rfl, rfl⟩ .nil)
  have hparameters : Paired ((arrowTokens.drop 1).take 8) :=
    .plain (hword _) (.plain hcolon (.group ⟨rfl, by decide⟩ harguments ⟨rfl, rfl⟩ .nil))
  intro c
  have hagree := matchers_agree (c := c) hopen hparameters hclose rfl
  exact ⟨hagree.1, hagree.2.2.1, by decide⟩

end TypeGrammar

end WireSchema
