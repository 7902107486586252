import WireSchema.Proofs.Grammar.Visible
import WireSchema.Proofs.Grammar.Within
/-!
# How types end

A parser goes forth from token to token. The last token of a type is a word, a
literal or a closing bracket, however deep the types in it are nested.
-/

namespace WireSchema

open Source Source.Cursor Source.Parser

namespace Source

/-- A type may end with the token. -/
def Token.endsType (t : Token) : Bool :=
  t.isWord || t.isString || t.isNumber || t.isTemplate || t.isOneOf [")", "]", "\x7d", ">"]

namespace Cursor

/-- The cursor goes forth from `start` to `c`, and the end of the input is behind. -/
structure Forth (start c : Cursor) : Prop where
  reaches : start.Reaches c
  last : c.last.isEnd = true

/-- The cursor goes forth from `start` to `c`, at last behind a token with which a type may end. -/
def Ended (start c : Cursor) : Prop := ∃ t, start.Forth (c.before [t]) ∧ t.endsType = true

variable {start c d : Cursor} {t : Token} {w : Text}

theorem Forth.refl (h : c.last.isEnd = true) : c.Forth c := ⟨.refl c, h⟩

theorem Forth.here (h : start.Forth c) : c.Forth c := .refl h.last

theorem Forth.trans (h : start.Forth c) (h' : c.Forth d) : start.Forth d := ⟨h.reaches.trans h'.reaches, h'.last⟩

theorem Ended.forth (h : start.Ended c) : start.Forth c := by
  obtain ⟨t, ht, _⟩ := h
  exact ⟨ht.reaches.trans ⟨[t], rfl⟩, ht.last⟩

theorem Ended.passes (h : start.Ended c) : start.Passes c := by
  obtain ⟨t, ht, _⟩ := h
  exact ht.reaches.passes ⟨t, [], rfl⟩

theorem Forth.ended (h : start.Forth c) (h' : c.Ended d) : start.Ended d := by
  obtain ⟨t, ht, hends⟩ := h'
  exact ⟨t, h.trans ht, hends⟩

/-- A token that is not the end of the input is one of those that are left. -/
theorem Forth.first (h : start.Forth c) (hend : c.peek.isEnd = false) :
    ∃ (t : Token) (d : Cursor), c = d.before [t] := by
  refine exists_first fun hnil => ?_
  rw [peek_length_le (by simp [hnil]), h.last] at hend
  cases hend

/-- The cursor goes forth from `start` to `c`, over so many tokens at least. -/
structure Over (n : Nat) (start c : Cursor) : Prop extends start.Forth c where
  length : c.rest.length + n ≤ start.rest.length

theorem Reaches.length_le (h : c.Reaches d) : d.rest.length ≤ c.rest.length := by
  obtain ⟨ts, rfl⟩ := h
  simp

theorem Forth.over (h : start.Forth c) : Over 0 start c := ⟨h, h.reaches.length_le⟩

theorem Ended.over (h : start.Ended c) : Over 1 start c := ⟨h.forth, h.passes.length_lt⟩

theorem Over.trans {n m : Nat} (h : Over n start c) (h' : Over m c d) : Over (n + m) start d :=
  ⟨h.toForth.trans h'.toForth, by have := h.length; have := h'.length; omega⟩

theorem Forth.over_one (h : start.Forth (c.before [t])) : Over 1 start c :=
  ⟨⟨h.reaches.trans ⟨[t], rfl⟩, h.last⟩, by have := h.reaches.length_le; simpa using this⟩

end Cursor

theorem Token.not_isEnd_of_endsType {t : Token} (h : t.endsType = true) : t.isEnd = false := by
  simp only [endsType, Bool.or_eq_true] at h
  rcases h with (((hword | hstring) | hnumber) | htemplate) | hmark
  · exact not_isEnd_of_isWord hword
  · exact not_isEnd_of_isString hstring
  · exact not_isEnd_of_isNumber hnumber
  · exact not_isEnd_of_isTemplate htemplate
  · exact not_isEnd_of_isOneOf hmark

theorem Token.endsType_of_is {t : Token} {w : Text} (h : t.is w = true) (hw : w ∈ ([")", "]", "\x7d", ">"] : List Text)) :
    t.endsType = true := by
  rw [Token.is, Bool.and_eq_true, Bool.or_eq_true, beq_iff_eq] at h
  obtain ⟨hword | hmark, rfl⟩ := h
  · simp [endsType, hword]
  · rw [endsType, isOneOf, hmark, List.contains_iff_mem.2 hw]
    simp

namespace Parser

section
variable {α β σ : Type} {start c : Cursor} {p : Parser α} {f : α → Parser β} {R : β → Cursor → Prop} {w v : Text} {n : Nat}

theorem forth_next (h : start.Forth c) : Answers next c fun t d =>
    t = c.peek ∧ start.Forth d ∧ (t.isEnd = false → c = d.before [t]) := by
  obtain ⟨rest, last⟩ := c
  cases rest with
  | nil =>
    rintro _ _ ⟨⟩
    exact ⟨rfl, h, fun hend => absurd (h.last.symm.trans hend) nofun⟩
  | cons t rest =>
    rintro _ _ ⟨⟩
    exact ⟨rfl, ⟨h.reaches.trans ⟨[t], rfl⟩, h.last⟩, fun _ => rfl⟩

theorem forth_skip (h : start.Forth c) : Answers skip c fun _ d => start.Forth d :=
  (forth_next h).bind fun _ _ hd => .pure hd.2.1

theorem ended_next (h : start.Forth c) (hends : c.peek.endsType = true) : Answers next c fun _ d => start.Ended d :=
  (forth_next h).mono fun t d hd => by
    obtain ⟨rfl, _, hc⟩ := hd
    exact ⟨c.peek, hc (Token.not_isEnd_of_endsType hends) ▸ h, hends⟩

theorem forth_when {b : Bool} {p : Parser Unit} (h : start.Forth c) (hp : b = true → Answers p c fun _ d => start.Forth d) :
    Answers (when b p) c fun _ d => start.Forth d :=
  .ite hp fun _ => .pure h

/-- Where a condition has to hold, the parser goes on with nothing taken. -/
theorem forth_demand {b : Bool} {cause : Rejection} (h : start.Forth c) :
    Answers (when b (reject cause)) c fun _ d => start.Forth d :=
  forth_when h fun _ => answers_reject

theorem forth_accept (w : Text) (h : start.Forth c) : Answers (accept w) c fun taken d => start.Forth d ∧
    (taken = true → ∃ t : Token, c = d.before [t] ∧ t.is w = true) ∧ (taken = false → d = c) := by
  simp only [accept, answers_sees_bind]
  refine .ite (fun hsees => ?_) fun _ => .pure ⟨h, nofun, fun _ => rfl⟩
  refine (forth_next h).bind fun t d ⟨ht, hd, hc⟩ => .pure ⟨hd, fun _ => ?_, nofun⟩
  subst ht
  exact ⟨c.peek, hc (Token.not_isEnd_of_is hsees), hsees⟩

theorem forth_acceptEither (v w : Text) (h : start.Forth c) : Answers (acceptEither v w) c fun _ d => start.Forth d :=
  (forth_accept v h).bind fun _ _ hd => .ite (fun _ => .pure hd.1) fun _ => (forth_accept w hd.1).mono fun _ _ => And.left

theorem forth_expect (w : Text) (h : start.Forth c) : Answers (expect w) c fun _ d =>
    ∃ t : Token, start.Forth (d.before [t]) ∧ t.is w = true := by
  refine (forth_accept w h).bind fun taken d hd => .ite (fun ht => .pure ?_) fun _ => ?_
  · obtain ⟨t, rfl, hw⟩ := hd.2.1 ht
    exact ⟨t, h, hw⟩
  · simp only [answers_peek_bind]
    exact answers_reject

/-- An expected token is passed. -/
theorem forth_expected (w : Text) (h : start.Forth c) : Answers (expect w) c fun _ d => start.Forth d :=
  (forth_expect w h).mono fun _ _ ⟨t, ht, _⟩ => ⟨ht.reaches.trans ⟨[t], rfl⟩, ht.last⟩

theorem ended_expect (h : start.Forth c) (hw : w ∈ ([")", "]", "\x7d", ">"] : List Text)) :
    Answers (expect w) c fun _ d => start.Ended d :=
  (forth_expect w h).mono fun _ _ ⟨t, ht, his⟩ => ⟨t, ht, Token.endsType_of_is his hw⟩

theorem ended_expectName (h : start.Forth c) : Answers expectName c fun _ d => start.Ended d := by
  simp only [expectName, answers_peek_bind]
  refine .ite (fun hword => ?_) fun _ => answers_reject
  exact (ended_next h (by simp [Token.endsType, hword])).bind fun _ _ hd => .pure hd

/-- What each round keeps of the cursor, the loop keeps. -/
theorem kept_loop {I : Cursor → Prop} {round : σ → Parser (Turn σ β)} {s : σ} (h : I c)
    (hround : ∀ s c, I c → Answers (round s) c fun _ d => I d) : Answers (loop round s) c fun _ d => I d := by
  refine answers_loop (I := fun _ d => I d) h ?_
  intro s c hc
  exact (hround s c hc).mono fun turn d hd => by cases turn <;> exact hd

theorem ended_separated {mark : Text} (h : start.Forth c)
    (hp : ∀ {c}, start.Forth c → Answers p c fun _ d => start.Ended d) :
    Answers (separated mark p) c fun _ d => start.Ended d := by
  refine (hp h).bind fun first d hd => kept_loop hd fun items e he => ?_
  refine (forth_accept mark he.forth).bind fun taken e' he' => .ite (fun _ => ?_) fun ht => .pure ?_
  · exact (hp he'.1).bind fun _ _ hitem => .pure hitem
  · rw [he'.2.2 (Bool.eq_false_iff.2 ht)]
    exact he

theorem forth_listed {closer : Text} (h : start.Forth c)
    (hp : ∀ {c}, start.Forth c → Answers p c fun _ d => start.Ended d) :
    Answers (listed closer p) c fun _ d => start.Forth d := by
  refine kept_loop h fun items d hd => ?_
  simp only [listedRound, answers_sees_bind]
  refine .ite (fun _ => .pure hd) fun _ => (hp hd).bind fun item e he => ?_
  exact (forth_accept "," he.forth).bind fun _ _ ht => .ite (fun _ => .pure ht.1) fun _ => .pure ht.1

/-- The closer of a bracket is one of the closing brackets. -/
theorem closerOf?_mem {opener closer : Text} (h : closerOf? opener = some closer) :
    closer ∈ ([")", "]", "\x7d", ">"] : List Text) := by
  unfold closerOf? at h
  repeat' split at h
  all_goals
    cases h
    try decide

/-- What passes over brackets stops behind a closing bracket. -/
theorem forth_skipBalanced (h : start.Forth c) : Answers skipBalanced c fun _ d =>
    ∃ t : Token, start.Forth (d.before [t]) ∧ t.isOneOf [")", "]", "\x7d", ">"] = true := by
  refine answers_loop (I := fun closers d => start.Forth d ∧ ∀ w ∈ closers, w ∈ ([")", "]", "\x7d", ">"] : List Text))
    ⟨h, List.forall_mem_nil _⟩ fun closers d ⟨hd, hclosers⟩ => ?_
  refine (forth_next hd).bind fun t e ⟨_, he, hcut⟩ => .ite (fun _ => answers_rejectAt) fun hend =>
    .ite (fun hmark => ?_) fun _ => .pure ⟨he, hclosers⟩
  split
  · next hcloser => exact .pure ⟨he, List.forall_mem_cons.2 ⟨closerOf?_mem ‹_›, hclosers⟩⟩
  · next closer outer _ =>
    rw [List.forall_mem_cons] at hclosers
    refine .ite (fun hraw => .pure ?_) fun _ => .pure ⟨he, List.forall_mem_cons.2 hclosers⟩
    split
    · refine ⟨t, hcut (Bool.eq_false_iff.2 hend) ▸ hd, ?_⟩
      rw [Token.isOneOf, hmark, hraw, List.contains_iff_mem.2 hclosers.1]
      rfl
    · exact ⟨he, hclosers.2⟩
  · exact .pure ⟨he, hclosers⟩

/-- Each round takes a token. -/
theorem over_balancedRound {closers : List Text} (hlast : c.last.isEnd = true) :
    Answers (balancedRound closers) c fun _ d => Over 1 c d := by
  refine (forth_next (.refl hlast)).bind fun t d ⟨_, _, hcut⟩ => .ite (fun _ => answers_rejectAt) fun hend => ?_
  have hcursor := hcut (Bool.eq_false_iff.2 hend)
  have hover : Over 1 c d := Forth.over_one (t := t) (hcursor ▸ .refl hlast)
  refine .ite (fun _ => ?_) fun _ => .pure hover
  split
  · exact .pure hover
  · exact .ite (fun _ => .pure hover) fun _ => .pure hover
  · exact .pure hover

/-- Brackets that begin with a parenthesis at `c` are passed over up to `d`, with
`closers` to come: at the start, with as many parentheses open as count, or
behind the closer that matches the first of them. -/
inductive Passing (c : Cursor) : List Text → Cursor → Prop where
  | first : c.last.isEnd = true → Passing c [] c
  | inside {closers : List Text} {d : Cursor} (depth : Nat) : c.Forth d → 0 < depth → depth ≤ closers.count (")" : Text) →
    closerIndex "(" ")" 0 c.rest + d.rest.length = c.rest.length + closerIndex "(" ")" depth d.rest → Passing c closers d
  | past {closers : List Text} {d : Cursor} : Over (closerIndex "(" ")" 0 c.rest + 1) c d → Passing c closers d

namespace Passing

variable {closers : List Text} {d : Cursor} {t : Token} {closer : Text}

theorem forth (h : Passing c closers d) : c.Forth d := by
  cases h with
  | first hlast => exact .refl hlast
  | inside _ hd => exact hd
  | past hd => exact hd.toForth

theorem forth_step (h : Passing c closers (d.before [t])) : c.Forth d := ⟨h.forth.reaches.trans ⟨[t], rfl⟩, h.forth.last⟩

theorem past_step (h : Over (closerIndex "(" ")" 0 c.rest + 1) c (d.before [t])) (closers : List Text) : Passing c closers d :=
  .past ⟨⟨h.reaches.trans ⟨[t], rfl⟩, h.last⟩, by have := h.length; simp at this; omega⟩

/-- The next token is no parenthesis. -/
theorem other (h : Passing c closers (d.before [t])) (hopen : (t.isMark && t.raw == "(") = false)
    (hclose : (t.isMark && t.raw == ")") = false) (hparenthesis : (c.peek.isMark && c.peek.raw == "(") = true)
    {closers' : List Text} (hcount : closers.count (")" : Text) ≤ closers'.count (")" : Text)) : Passing c closers' d := by
  have hforth := h.forth_step
  generalize hx : d.before [t] = x at h
  cases h with
  | first hlast =>
    rw [← hx, peek_before, hopen] at hparenthesis
    cases hparenthesis
  | inside depth hd hpos hdepth hindex =>
    subst hx
    refine .inside depth hforth hpos (hdepth.trans hcount) ?_
    simp only [rest_before, List.singleton_append, List.length_cons, closerIndex, hopen, hclose, Bool.false_eq_true,
      if_false] at hindex
    omega
  | past hd => exact past_step (hx ▸ hd) _

/-- The next token is an opening parenthesis. -/
theorem opened (h : Passing c closers (d.before [t])) (hopen : (t.isMark && t.raw == "(") = true) :
    Passing c (")" :: closers) d := by
  have hforth := h.forth_step
  generalize hx : d.before [t] = x at h
  cases h with
  | first hlast =>
    subst hx
    refine .inside 1 hforth Nat.one_pos (by simp) ?_
    simp only [rest_before, List.singleton_append, List.length_cons, closerIndex, hopen, if_true, Nat.zero_add]
    omega
  | inside depth hd hpos hdepth hindex =>
    subst hx
    refine .inside (depth + 1) hforth (Nat.succ_pos _) (by simpa using hdepth) ?_
    simp only [rest_before, List.singleton_append, List.length_cons, closerIndex, hopen, if_true] at hindex
    omega
  | past hd => exact past_step (hx ▸ hd) _

/-- The next token is a closing parenthesis: the one that matches, or another may still come. -/
theorem closed (h : Passing c closers (d.before [t])) (hclose : (t.isMark && t.raw == ")") = true)
    (hparenthesis : (c.peek.isMark && c.peek.raw == "(") = true) :
    Over (closerIndex "(" ")" 0 c.rest + 1) c d ∨ ∀ closers' : List Text,
      closers.count (")" : Text) ≤ closers'.count (")" : Text) + 1 → Passing c closers' d := by
  have hforth := h.forth_step
  have hopen : (t.isMark && t.raw == "(") = false := by
    rw [Bool.and_eq_true, beq_iff_eq] at hclose
    rw [hclose.1, hclose.2]
    rfl
  generalize hx : d.before [t] = x at h
  cases h with
  | first hlast =>
    rw [← hx, peek_before, hopen] at hparenthesis
    cases hparenthesis
  | inside depth hd hpos hdepth hindex =>
    subst hx
    simp only [rest_before, List.singleton_append, List.length_cons, closerIndex, hopen, hclose, Bool.false_eq_true, if_false,
      if_true] at hindex
    by_cases hone : depth ≤ 1
    · rw [if_pos hone] at hindex
      exact .inl ⟨hforth, by omega⟩
    · rw [if_neg hone] at hindex
      exact .inr fun closers' hcount => .inside (depth - 1) hforth (by omega) (by omega) (by omega)
  | past hd => exact .inr fun closers' _ => past_step (hx ▸ hd) _

/-- Where no bracket is left open, the closer is passed. -/
theorem passed (h : Passing c [] d) (hne : d ≠ c) : Over (closerIndex "(" ")" 0 c.rest + 1) c d := by
  cases h with
  | first _ => exact absurd rfl hne
  | inside depth _ hpos hdepth => exact absurd hdepth (by simp; omega)
  | past hd => exact hd

/-- The next token does not open a bracket. -/
theorem step (h : Passing c (closer :: closers) (d.before [t])) (hopen : (t.isMark && t.raw == "(") = false)
    (hmark : t.isMark = true)
    (hparenthesis : (c.peek.isMark && c.peek.raw == "(") = true) (closers' : List Text)
    (hcount : t.raw ≠ ")" → (closer :: closers).count (")" : Text) ≤ closers'.count (")" : Text))
    (hcount' : (closer :: closers).count (")" : Text) ≤ closers'.count (")" : Text) + 1) : Passing c closers' d := by
  by_cases hraw : t.raw = ")"
  · exact (h.closed (by rw [hmark, hraw]; rfl) hparenthesis).elim .past fun hinside => hinside closers' hcount'
  · exact h.other hopen (by simp [hraw]) hparenthesis (hcount hraw)

end Passing

/-- At least up to the closer that matches, tokens are passed over. -/
theorem over_skipBalanced (hlast : c.last.isEnd = true) (hparenthesis : (c.peek.isMark && c.peek.raw == "(") = true) :
    Answers skipBalanced c fun _ d => Over (closerIndex "(" ")" 0 c.rest + 1) c d := by
  refine answers_loop (I := Passing c) (.first hlast) fun closers d hd => ?_
  refine (forth_next hd.forth).bind fun t e ⟨ht, he, hcut⟩ => .ite (fun _ => answers_rejectAt) fun hend => ?_
  have hcursor := hcut (Bool.eq_false_iff.2 hend)
  rw [hcursor] at hd
  by_cases hmark : t.isMark = true
  · rw [if_pos hmark]
    by_cases hopen : t.raw = "("
    · have hcloser : closerOf? t.raw = some ")" := by rw [hopen]; rfl
      rw [hcloser]
      exact .pure (hd.opened (by rw [hmark, hopen]; rfl))
    · have hnot : (t.isMark && t.raw == "(") = false := by simp [hopen]
      -- a later parenthesis is not the first one, which alone may close the run at its closer
      have hne : e ≠ c := fun heq => by
        have hlength := hd.forth.reaches.length_le
        rw [heq, rest_before, List.length_append, List.length_singleton] at hlength
        omega
      split
      · next closer hcloser =>
        have hraw : t.raw ≠ ")" := fun hraw => by rw [hraw] at hcloser; cases hcloser
        exact .pure (hd.other hnot (by simp [hraw]) hparenthesis List.count_le_count_cons)
      · next closer outer _ =>
        refine .ite (fun hraw => .pure ?_) fun _ => .pure (hd.step hnot hmark hparenthesis _ (fun _ => Nat.le_refl _)
          (Nat.le_succ _))
        have houter : Passing c outer e := by
          refine hd.step hnot hmark hparenthesis outer (fun hne => ?_) (by rw [List.count_cons]; split <;> omega)
          rw [List.count_cons_of_ne (hraw ▸ hne)]
        by_cases hempty : outer = []
        · subst hempty
          exact houter.passed hne
        · rw [if_neg (by simpa using hempty)]
          exact houter
      · refine .pure (Passing.past_step (hd.passed fun heq => ?_) [])
        rw [← heq, peek_before, hnot] at hparenthesis
        cases hparenthesis
  · rw [if_neg hmark]
    have hnot (w : Text) : (t.isMark && t.raw == w) = false := by simp [hmark]
    exact .pure (hd.other (hnot _) (hnot _) hparenthesis (Nat.le_refl _))

theorem ended_skipBalanced (h : start.Forth c) : Answers skipBalanced c fun _ d => start.Ended d :=
  (forth_skipBalanced h).mono fun _ _ ⟨t, ht, hcloser⟩ => ⟨t, ht, by simp [Token.endsType, hcloser]⟩

end

end Parser

end Source

/-- The rules answer behind a token with which a type may end. -/
structure Rules.Close (rules : Rules) : Prop where
  type : ∀ {start c : Cursor}, start.Forth c → Answers rules.type c fun _ d => start.Ended d
  operand : ∀ {start c : Cursor}, start.Forth c → Answers rules.operand c fun _ d => start.Ended d

namespace TypeGrammar

section
variable {rules : Rules} {start c : Cursor}

theorem ended_qualifiedName (h : start.Forth c) : Answers qualifiedName c fun _ d => start.Ended d := by
  refine (ended_expectName h).bind fun first d hd => (kept_loop hd fun parts e he => ?_).bind fun _ _ hd => .pure hd
  simp only [qualifiedRound, answers_sees_bind, answers_peek_bind]
  refine .ite (fun hdot => ?_) fun _ => .pure he
  rw [Bool.and_eq_true] at hdot
  refine (forth_next he.forth).bind fun t e' htaken => ?_
  obtain ⟨ht, he', hcut⟩ := htaken
  have hnext : e'.peek = e.peek 1 := by
    have hcursor := hcut (ht ▸ Token.not_isEnd_of_is hdot.1)
    rw [hcursor]
    rfl
  exact (ended_next he' (by simp [Token.endsType, hnext, hdot.2])).bind fun _ _ hd => .pure hd

theorem forth_readonly (h : start.Forth c) : Answers (loop readonlyRound ()) c fun _ d => start.Forth d := by
  refine kept_loop h fun _ d hd => ?_
  simp only [readonlyRound, answers_get_bind]
  exact .ite (fun _ => (forth_next hd).bind fun _ _ he => .pure he.2.1) fun _ => .pure hd

theorem forth_separators (h : start.Forth c) : Answers (loop separatorRound ()) c fun _ d => start.Forth d :=
  kept_loop h fun _ _ hd => (forth_acceptEither ";" "," hd).bind fun _ _ he => .ite (fun _ => .pure he) fun _ => .pure he

theorem forth_elementName (h : start.Forth c) : Answers elementName c fun _ d => start.Forth d := by
  simp only [elementName, answers_get_bind]
  exact .ite (fun _ => (forth_next h).bind fun _ _ h₁ => (forth_accept "?" h₁.2.1).bind fun _ _ h₂ =>
    (forth_expected ":" h₂.1).bind fun _ _ h₃ => .pure h₃) fun _ => .pure h

variable (hr : rules.Close)
include hr

theorem ended_returnType (h : start.Forth c) : Answers (returnType rules) c fun _ d => start.Ended d := by
  simp only [returnType, answers_get_bind, answers_sees_bind, answers_peek_bind]
  refine (forth_when h fun _ => forth_skip h).bind fun _ c₁ h₁ => (hr.type h₁).bind fun type c₂ h₂ =>
    (forth_accept "is" h₂.forth).bind fun taken c₃ h₃ => .ite (fun _ => ?_) fun ht => .pure ?_
  · exact (hr.type h₃.1).bind fun _ _ h₄ => .pure h₄
  · rw [h₃.2.2 (Bool.eq_false_iff.2 ht)]
    exact h₂

theorem ended_functionType (h : start.Forth c) : Answers (functionType rules) c fun _ d => start.Ended d := by
  simp only [functionType, answers_get_bind, answers_sees_bind]
  refine (forth_when h fun _ => (ended_skipBalanced h).mono fun _ _ => Ended.forth).bind fun _ c₁ h₁ => ?_
  simp only [answers_sees_bind]
  exact (forth_demand h₁).bind fun _ c₂ h₂ => (ended_skipBalanced h₂).bind fun _ c₃ h₃ =>
    (forth_expected "=>" h₃.forth).bind fun _ c₄ h₄ => (ended_returnType hr h₄).bind fun _ _ h₅ => .pure h₅

/-! ## Members of object shapes -/

theorem forth_skipPiece (h : start.Forth c) : Answers (skipPiece rules) c fun _ d => start.Forth d := by
  simp only [skipPiece, answers_peek_bind]
  refine .ite (fun _ => (ended_skipBalanced h).mono fun _ _ => Ended.forth) fun _ =>
    (forth_acceptEither ":" "=>" h).bind fun _ c₁ h₁ => .ite (fun _ => ?_) fun _ => forth_skip h₁
  exact (hr.type h₁).bind fun _ _ h₂ => .pure h₂.forth

theorem forth_signatureRound (h : start.Forth c) : Answers (signatureRound rules ()) c fun _ d => start.Forth d := by
  simp only [signatureRound, answers_get_bind]
  exact .ite (fun _ => .pure h) fun _ => (forth_skipPiece hr h).bind fun _ _ h₁ => .pure h₁

theorem forth_skipSignature (h : start.Forth c) : Answers (skipSignature rules) c fun _ d => start.Forth d :=
  kept_loop h fun _ _ hd => forth_signatureRound hr hd

theorem forth_methodType (h : start.Forth c) : Answers (methodType rules) c fun _ d => start.Forth d := by
  simp only [methodType, answers_get_bind, answers_sees_bind]
  refine (forth_when h fun _ => (ended_skipBalanced h).mono fun _ _ => Ended.forth).bind fun _ c₁ h₁ =>
    (ended_skipBalanced h₁).bind fun _ c₂ h₂ => ?_
  simp only [answers_textSince_bind]
  have hresult : Answers (resultText rules) c₂ fun _ d => start.Forth d :=
    (forth_accept ":" h₂.forth).bind fun _ _ h₃ => .ite (fun _ =>
      (ended_returnType hr h₃.1).bind fun _ _ h₄ => .pure h₄.forth) fun _ => .pure h₃.1
  exact hresult.bind fun _ _ h₃ => .pure h₃

theorem forth_memberType (h : start.Forth c) : Answers (memberType rules) c fun _ d => start.Forth d := by
  simp only [memberType, answers_get_bind]
  exact .ite (fun _ => forth_methodType hr h) fun _ => (forth_accept ":" h).bind fun _ _ h₁ =>
    .ite (fun _ => (hr.type h₁.1).mono fun _ _ => Ended.forth) fun _ => .pure h₁.1

theorem forth_unmodified {docs : DocComment} (h : start.Forth c) : Answers (unmodified rules docs) c fun _ d => start.Forth d := by
  have hskipped {c : Cursor} (h : start.Forth c) : Answers (do
      skipSignature rules
      return none : Parser (Option (Property TypeExpr))) c fun _ d => start.Forth d :=
    (forth_skipSignature hr h).bind fun _ _ h₁ => .pure h₁
  simp only [unmodified, answers_get_bind]
  refine .ite (fun _ => hskipped h) fun _ => .ite (fun _ => (forth_next h).bind fun _ _ h₁ => hskipped h₁.2.1) fun _ =>
    .ite (fun _ => hskipped h) fun _ => (forth_next h).bind fun _ c₁ h₁ => ?_
  exact (forth_when h₁.2.1 fun _ => answers_rejectAt).bind fun _ c₂ h₂ => (forth_accept "?" h₂).bind fun _ c₃ h₃ =>
    (forth_memberType hr h₃.1).bind fun _ _ h₄ => .pure h₄

theorem forth_member (h : start.Forth c) : Answers (member rules) c fun _ d => start.Forth d := by
  rw [member_eq]
  simp only [answers_peek_bind]
  exact (forth_readonly h).bind fun _ _ h₁ => forth_unmodified hr h₁

theorem forth_membersRound {found : List (Property TypeExpr)} (h : start.Forth c) :
    Answers (membersRound rules found) c fun _ d => start.Forth d := by
  simp only [membersRound, answers_get_bind]
  exact .ite (fun _ => .pure h) fun _ => (forth_demand h).bind fun _ c₁ h₁ => (forth_member hr h₁).bind fun _ c₂ h₂ =>
    (forth_separators h₂).bind fun _ _ h₃ => .pure h₃

theorem ended_members (h : start.Forth c) : Answers (members rules) c fun _ d => start.Ended d :=
  (forth_expected _ h).bind fun _ _ h₁ => (kept_loop h₁ fun _ _ hd => forth_membersRound hr hd).bind fun _ _ h₂ =>
    (ended_expect h₂ (by decide)).bind fun _ _ h₃ => .pure h₃

/-! ## Primary types -/

theorem forth_tupleRound {state : List TypeExpr × Bool} (h : start.Forth c) :
    Answers (tupleRound rules state) c fun _ d => start.Forth d := by
  simp only [tupleRound, answers_sees_bind]
  exact .ite (fun _ => .pure h) fun _ => (forth_accept "..." h).bind fun _ _ h₁ => (forth_elementName h₁.1).bind fun _ _ h₂ =>
    (hr.type h₂).bind fun _ _ h₃ => (forth_accept "?" h₃.forth).bind fun _ _ h₄ => (forth_accept "," h₄.1).bind fun _ _ h₅ =>
    .ite (fun _ => .pure h₅.1) fun _ => .pure h₅.1

theorem ended_tuple (h : start.Forth c) : Answers (tuple rules) c fun _ d => start.Ended d := by
  simp only [tuple, answers_get_bind]
  exact (forth_expected _ h).bind fun _ _ h₁ => (kept_loop h₁ fun _ _ hd => forth_tupleRound hr hd).bind fun _ _ h₂ =>
    (ended_expect h₂ (by decide)).bind fun _ _ h₃ => .pure h₃

theorem ended_typeArguments (h : start.Ended c) : Answers (typeArguments rules) c fun _ d => start.Ended d := by
  simp only [typeArguments, answers_get_bind]
  exact .ite (fun _ => (forth_skip h.forth).bind fun _ _ h₁ => (forth_listed h₁ hr.type).bind fun _ _ h₂ =>
    (ended_expect h₂ (by decide)).bind fun _ _ h₃ => .pure h₃) fun _ => .pure h

theorem ended_reference (h : start.Forth c) : Answers (reference rules) c fun _ d => start.Ended d := by
  simp only [reference, answers_get_bind]
  exact (ended_qualifiedName h).bind fun _ _ h₁ => (ended_typeArguments hr h₁).bind fun _ _ h₂ => .pure h₂

theorem ended_wordType {word : Text} (h : start.Forth c) (hword : c.peek.isWord = true) :
    Answers (wordType rules word) c fun _ d => start.Ended d := by
  have hends : c.peek.endsType = true := by simp [Token.endsType, hword]
  simp only [wordType, answers_get_bind]
  refine .ite (fun _ => (ended_next h hends).bind fun _ _ h₁ => .pure h₁) fun _ => .ite (fun _ => ?_) fun _ =>
    .ite (fun _ => ?_) fun _ => .ite (fun _ => ?_) fun _ =>
    .ite (fun _ => (ended_next h hends).bind fun _ _ h₁ => .pure h₁) fun _ => ended_reference hr h
  · refine (kept_loop h fun _ d hd => ?_).bind fun _ _ h₁ => (ended_functionType hr h₁).bind fun _ _ h₂ => .pure h₂
    simp only [answers_get_bind]
    exact .ite (fun _ => .pure hd) fun _ => (forth_next hd).bind fun _ _ he => .pure he.2.1
  · refine (forth_next h).bind fun _ _ h₁ => (ended_qualifiedName h₁.2.1).bind fun _ c₂ h₂ => ?_
    simp only [answers_get_bind]
    have hskip : Answers (when (c₂.sees "<" && !c₂.peek.spaceBefore) skipBalanced) c₂ fun _ d => start.Ended d :=
      .ite (fun _ => ended_skipBalanced h₂.forth) fun _ => .pure h₂
    exact hskip.bind fun _ _ h₃ => .pure h₃
  · refine (forth_next h).bind fun _ _ h₁ => (ended_skipBalanced h₁.2.1).bind fun _ _ h₂ =>
      (kept_loop h₂ fun _ d hd => ?_).bind fun _ c₃ h₃ => ?_
    · refine (forth_accept "." hd.forth).bind fun taken e he => .ite (fun _ => ?_) fun ht => .pure ?_
      · exact (ended_expectName he.1).bind fun _ _ hd => .pure hd
      · rw [he.2.2 (Bool.eq_false_iff.2 ht)]
        exact hd
    · simp only [answers_sees_bind]
      have hskip : Answers (when (c₃.sees "<") skipBalanced) c₃ fun _ d => start.Ended d :=
        .ite (fun _ => ended_skipBalanced h₃.forth) fun _ => .pure h₃
      exact hskip.bind fun _ _ h₄ => .pure h₄

theorem ended_markType {token : Token} (h : start.Forth c) (hmark : c.peek.isMark = true) :
    Answers (markType rules token) c fun _ d => start.Ended d := by
  simp only [markType, answers_get_bind]
  refine .ite (fun _ => ended_functionType hr h) fun _ => .ite (fun _ => ?parenthesized) fun _ =>
    .ite (fun _ => .ite (fun _ => ?mapped) fun _ => ?object) fun _ => .ite (fun _ => ended_tuple hr h) fun _ =>
    .ite (fun hnumber => ?negative) fun _ => answers_reject
  case parenthesized =>
    exact (forth_next h).bind fun _ _ h₁ => (hr.type h₁.2.1).bind fun _ _ h₂ => (ended_expect h₂.forth (by decide)).bind
      fun _ _ h₃ => .pure h₃
  case mapped => exact (ended_skipBalanced h).bind fun _ _ h₁ => .pure h₁
  case object => exact (ended_members hr h).bind fun _ _ h₁ => .pure h₁
  case negative =>
    refine (forth_next h).bind fun t c₁ ⟨ht, h₁, hcut⟩ => ?_
    have hnext : c₁.peek = c.peek 1 := by
      have hend : c.peek.isEnd = false := by
        rw [Token.isEnd, beq_iff_eq.1 hmark]
        rfl
      rw [hcut (ht ▸ hend)]
      rfl
    exact (ended_next h₁ (by simp [Token.endsType, hnext, hnumber.2])).bind fun _ _ h₂ => .pure h₂

theorem ended_primary (h : start.Forth c) : Answers (primary rules) c fun _ d => start.Ended d := by
  simp only [primary, answers_peek_bind]
  cases hl : c.peek.lexeme with
  | mark => exact ended_markType hr h (beq_iff_eq.2 hl)
  | string value => exact (ended_next h (by simp [Token.endsType, Token.isString, hl])).bind fun _ _ h₁ => .pure h₁
  | number => exact (ended_next h (by simp [Token.endsType, Token.isNumber, hl])).bind fun _ _ h₁ => .pure h₁
  | template parts =>
    refine (ended_next h (by simp [Token.endsType, Token.isTemplate, hl])).bind fun _ d h₁ => ?_
    exact (answers_lift fun _ _ => h₁).bind fun _ _ h₂ => .pure h₂
  | endOfInput => exact answers_reject
  | word => exact ended_wordType hr h (beq_iff_eq.2 hl)

/-! ## Operators -/

theorem ended_bracketRound {from_ : Cursor} {type : TypeExpr} (h : start.Ended c) :
    Answers (bracketRound rules from_ type) c fun _ d => start.Ended d := by
  simp only [bracketRound, answers_get_bind]
  refine .ite (fun _ => ?_) fun _ => .pure h
  refine (forth_next h.forth).bind fun _ _ h₁ => (forth_accept "]" h₁.2.1).bind fun taken c₂ h₂ => .ite (fun ht => ?_) fun _ => ?_
  · obtain ⟨t, hcut, his⟩ := h₂.2.1 ht
    exact .pure ⟨t, hcut ▸ h₁.2.1, Token.endsType_of_is his (by decide)⟩
  · exact (hr.type h₂.1).bind fun _ _ h₃ => (ended_expect h₃.forth (by decide)).bind fun _ _ h₄ => .pure h₄

theorem ended_postfixed (h : start.Forth c) : Answers (postfixed rules) c fun _ d => start.Ended d := by
  simp only [postfixed, answers_get_bind]
  exact (ended_primary hr h).bind fun _ _ h₁ => kept_loop h₁ fun _ _ hd => ended_bracketRound hr hd

theorem ended_inferBound (h : start.Ended c) : Answers (inferBound rules) c fun _ d => start.Ended d := by
  simp only [inferBound, answers_get_bind]
  exact .ite (fun _ => (forth_skip h.forth).bind fun _ _ h₁ => (hr.operand h₁).bind fun _ _ h₂ => .pure h₂) fun _ => .pure h

theorem ended_operand (h : start.Forth c) : Answers (operand rules) c fun _ d => start.Ended d := by
  simp only [operand, answers_get_bind]
  refine .ite (fun _ => ?_) fun _ => .ite (fun hinfer => ?_) fun _ => ended_postfixed hr h
  · exact (forth_next h).bind fun _ _ h₁ => (hr.operand h₁.2.1).bind fun _ _ h₂ => .ite (fun _ => .pure h₂) fun _ => .pure h₂
  · rw [Bool.and_eq_true] at hinfer
    obtain ⟨t, d, rfl⟩ := h.first (Token.not_isEnd_of_is hinfer.1)
    have hd : start.Forth d := ⟨h.reaches.trans ⟨[t], rfl⟩, h.last⟩
    have hword : Answers skip d fun _ e => start.Ended e :=
      (ended_next hd (by rw [Token.endsType, show d.peek.isWord = true from hinfer.2]; rfl)).bind fun _ _ he => .pure he
    have hfirst : Answers skip (d.before [t]) fun _ e => e = d := by
      rintro _ _ ⟨⟩
      rfl
    refine hfirst.bind fun _ _ heq => ?_
    subst heq
    exact hword.bind fun _ _ h₁ => (ended_inferBound hr h₁).bind fun _ _ h₂ => .pure h₂

omit hr in
theorem ended_chain {mark : Text} {item : Parser TypeExpr} {build : List TypeExpr → Text → TypeExpr} (h : start.Forth c)
    (hitem : ∀ {c}, start.Forth c → Answers item c fun _ d => start.Ended d) :
    Answers (chain mark item build) c fun _ d => start.Ended d := by
  refine (forth_accept mark h).bind fun _ c₁ h₁ => ?_
  simp only [answers_get_bind]
  refine (ended_separated h₁.1 hitem).bind fun types c₂ h₂ => ?_
  split
  · exact .pure h₂
  · exact .pure h₂

theorem ended_intersection (h : start.Forth c) : Answers (intersection rules) c fun _ d => start.Ended d :=
  ended_chain h fun hc => ended_operand hr hc

theorem ended_union (h : start.Forth c) : Answers (union rules) c fun _ d => start.Ended d :=
  ended_chain h fun hc => ended_intersection hr hc

theorem ended_type (h : start.Forth c) : Answers (TypeGrammar.type rules) c fun _ d => start.Ended d := by
  simp only [TypeGrammar.type, answers_get_bind]
  refine (ended_union hr h).bind fun _ _ h₁ => (forth_accept "extends" h₁.forth).bind fun taken _ h₂ =>
    .ite (fun _ => ?_) fun ht => .pure ?_
  · exact (ended_union hr h₂.1).bind fun _ _ h₃ => (forth_expected "?" h₃.forth).bind fun _ _ h₄ => (hr.type h₄).bind fun _ _ h₅ =>
      (forth_expected ":" h₅.forth).bind fun _ _ h₆ => (hr.type h₆).bind fun _ _ h₇ => .pure h₇
  · rw [h₂.2.2 (Bool.eq_false_iff.2 ht)]
    exact h₁

end

end TypeGrammar

/-- However deep types may be nested, they end so. -/
theorem Rules.close_upTo (source : Text) (depth : Nat) : (Rules.upTo source depth).Close := by
  induction depth with
  | zero => exact ⟨fun _ => nofun, fun _ => nofun⟩
  | succ depth ih => exact ⟨TypeGrammar.ended_type ih, TypeGrammar.ended_operand ih⟩

end WireSchema
