import WireSchema.Proofs.Grammar.Answers
import WireSchema.Proofs.Grammar.Ground
import WireSchema.Proofs.Lexing.Moved
/-!
# Parsers in a longer source

A parser that was put before the last tokens of a source is put before the same
tokens in a longer one. `Repeats o near p q c` says that `q` does there what `p`
does at `c`, because what comes next in the longer source does not go on with
what was read.
-/

namespace WireSchema

open Source Source.Parser

namespace Source

namespace Token

variable (k : Nat) (t : Token)

@[simp] theorem isWord_later : (t.later k).isWord = t.isWord := by
  cases hl : t.lexeme <;> simp [isWord, later, hl, Lexeme.later]

@[simp] theorem isMark_later : (t.later k).isMark = t.isMark := by
  cases hl : t.lexeme <;> simp [isMark, later, hl, Lexeme.later]

@[simp] theorem isNumber_later : (t.later k).isNumber = t.isNumber := by
  cases hl : t.lexeme <;> simp [isNumber, later, hl, Lexeme.later]

@[simp] theorem isEnd_later : (t.later k).isEnd = t.isEnd := by
  cases hl : t.lexeme <;> simp [isEnd, later, hl, Lexeme.later]

@[simp] theorem isString_later : (t.later k).isString = t.isString := by
  cases hl : t.lexeme <;> simp [isString, later, hl, Lexeme.later]

@[simp] theorem isTemplate_later : (t.later k).isTemplate = t.isTemplate := by
  cases hl : t.lexeme <;> simp [isTemplate, later, hl, Lexeme.later]

@[simp] theorem value_later : (t.later k).value = t.value := by
  cases hl : t.lexeme <;> simp [value, later, hl, Lexeme.later]

@[simp] theorem is_later (w : Text) : (t.later k).is w = t.is w := by simp [is]

@[simp] theorem isOneOf_later (ws : List Text) : (t.later k).isOneOf ws = t.isOneOf ws := by simp [isOneOf]

end Token

/-- The text of tokens does not tell where they stand. -/
@[simp] theorem spell_later (k : Nat) (ts : List Token) : spell (ts.map (·.later k)) = spell ts := by
  cases ts with
  | nil => rfl
  | cons t ts =>
    simp only [spell, List.map_cons, Token.raw_later, List.flatMap_map, Token.spaceBefore_later]
    rfl

/-! ## What may come next -/

namespace Token

/-- A type may end with the token, but goes on if `next` is behind it. -/
def joins (t next : Token) : Bool :=
  TypeGrammar.operatorWords.any t.is && TypeGrammar.beginsOperand next ||
    (t.is "infer" || t.is "asserts" || t.is ".") && next.isWord ||
    t.is "abstract" && next.is "new" ||
    t.is "import" && next.is "("

end Token

/-- The words and marks that go on with a type. -/
def joints : List Text := ["extends", ".", "?", ":", ",", "=>", "...", "]", ">", "="]

/-- The tokens are read the same way with `next` behind them and with nothing
behind them; if `near` is set, only what stops before the last of them is. -/
structure Parts (near : Bool) (ts : List Token) (next : Token) : Prop where
  joint : ∀ w ∈ joints, next.is w = false
  chain : near = true ∨ next.is "|" = false ∧ next.is "&" = false
  bracket : near = true ∨ (next.is "[" = true → next.lineBreak = true)
  angle : next.is "<" = true → next.spaceBefore = true ∧ ∀ t ∈ ts, t.is "import" = false
  arrow : next.is "is" = true → ∀ t ∈ ts, t.is "=>" = false
  last : ∀ t, ts.getLast? = some t → t.joins next = false

/-- All parentheses and braces that the tokens open are closed. -/
def Closed (ts : List Token) : Prop :=
  ∀ t us, t :: us <:+ ts →
    (t.is "(" = true → closerIndex "(" ")" 0 (t :: us) < (t :: us).length) ∧
      (t.is "\x7b" = true → ∃ u ∈ us, u.Marks "\x7d")

/-- Where the tokens of a source stand in a longer one: so many code points
later, and before a cursor. -/
structure Place where
  shift : Nat
  next : Cursor

/-- The cursor in the longer source. -/
def Place.put (o : Place) (c : Cursor) : Cursor := o.next.before (c.rest.map (·.later o.shift))

/-- The longer source ends where the source ends. -/
def Place.Quiet (o : Place) : Prop := o.next.rest = [] ∧ o.next.last.isEnd = true

/-- The tokens at the cursor are read the same way at the place, if `near` is
set up to the last of them. -/
structure Seam (source : Text) (o : Place) (near : Bool) (c : Cursor) : Prop where
  placed : ∀ t ∈ c.rest, t.Placed source
  last : c.last.isEnd = true
  parts : Parts near c.rest o.next.peek
  closed : o.Quiet ∨ Closed c.rest

section
variable {ts us : List Token} {t next : Token} {w : Text} {source : Text} {o : Place} {near : Bool} {c d : Cursor} {n : Nat}

theorem Parts.nearer (h : Parts near ts next) : Parts true ts next :=
  ⟨h.joint, .inl rfl, .inl rfl, h.angle, h.arrow, h.last⟩

theorem Parts.suffix (h : Parts near ts next) (hsuffix : us <:+ ts) : Parts near us next := by
  obtain ⟨front, rfl⟩ := hsuffix
  refine ⟨h.joint, h.chain, h.bracket, fun hn => ⟨(h.angle hn).1, fun t ht => ?_⟩, fun hn t ht => ?_, fun t ht => ?_⟩
  · exact (h.angle hn).2 t (List.mem_append_right front ht)
  · exact h.arrow hn t (List.mem_append_right front ht)
  · refine h.last t ?_
    rw [List.getLast?_append, ht]
    rfl

theorem Seam.nearer (h : Seam source o near c) : Seam source o true c := ⟨h.placed, h.last, h.parts.nearer, h.closed⟩

theorem Seam.reaches (h : Seam source o near c) (hd : c.Reaches d) : Seam source o near d := by
  obtain ⟨front, rfl⟩ := hd
  have hsuffix : d.rest <:+ (d.before front).rest := ⟨front, rfl⟩
  refine ⟨fun t ht => h.placed t (hsuffix.subset ht), h.last, h.parts.suffix hsuffix, ?_⟩
  exact h.closed.imp id fun hclosed t us hus => hclosed t us (hus.trans hsuffix)

theorem Token.not_is_of_isEnd (h : t.isEnd = true) (w : Text) : t.is w = false := by
  have hl : t.lexeme = .endOfInput := beq_iff_eq.1 h
  simp [Token.is, Token.isWord, Token.isMark, hl]

theorem Token.not_isWord_of_isEnd (h : t.isEnd = true) : t.isWord = false := by
  have hl : t.lexeme = .endOfInput := beq_iff_eq.1 h
  simp [Token.isWord, hl]

theorem Token.not_isOneOf_of_isEnd (h : t.isEnd = true) (ws : List Text) : t.isOneOf ws = false := by
  have hl : t.lexeme = .endOfInput := beq_iff_eq.1 h
  simp [Token.isOneOf, Token.isMark, hl]

/-- Nothing goes on at the end of the input. -/
theorem parts_of_isEnd (ts : List Token) (h : next.isEnd = true) : Parts near ts next := by
  have hnot := Token.not_is_of_isEnd h
  have hl : next.lexeme = .endOfInput := beq_iff_eq.1 h
  refine ⟨fun w _ => hnot w, .inr ⟨hnot _, hnot _⟩, .inr ?_, ?_, ?_, fun t _ => ?_⟩
  · simp [hnot]
  · simp [hnot]
  · simp [hnot]
  · simp [Token.joins, hnot, TypeGrammar.beginsOperand, Token.isWord, Token.isString, Token.isNumber, Token.isTemplate,
      Token.isOneOf, Token.isMark, hl]

/-- Most marks do not go on with a word. -/
theorem Token.Marks.not_joins (h : next.Marks w) (hw : w ∉ (["new", "(", "[", "\x7b", "<", "-"] : List Text)) (t : Token) :
    t.joins next = false := by
  have hne {v : Text} (hv : v ∈ (["new", "(", "[", "\x7b", "<", "-"] : List Text)) : (w == v) = false :=
    beq_eq_false_iff_ne.2 fun heq => hw (heq ▸ hv)
  have hoperand : (["(", "[", "\x7b", "<", "-"] : List Text).contains w = false :=
    Bool.eq_false_iff.2 fun hmem => hw (List.mem_cons_of_mem _ (List.contains_iff_mem.1 hmem))
  simp only [Token.joins, TypeGrammar.beginsOperand, h.isWord, h.isString, h.isNumber, h.isTemplate, h.isOneOf_eq, h.is_eq,
    hoperand, hne (v := "new") (by decide), hne (v := "(") (by decide), Bool.or_self, Bool.and_false]

/-- A mark that is no joint leaves the tokens before it alone. -/
theorem parts_of_mark (h : next.Marks w) (hw : w ∉ Text.ofString "is" :: Text.ofString "<" :: joints)
    (hchain : near = true ∨ w ≠ "|" ∧ w ≠ "&") (hbracket : near = true ∨ w ≠ "[")
    (hlast : ∀ t, ts.getLast? = some t → t.joins next = false) : Parts near ts next := by
  have hnot {v : Text} (hv : w ≠ v) : next.is v = false := by rw [h.is_eq, beq_eq_false_iff_ne.2 hv]
  have hne {v : Text} (hv : v ∈ Text.ofString "is" :: Text.ofString "<" :: joints) : next.is v = false :=
    hnot fun heq => hw (heq ▸ hv)
  refine ⟨fun v hv => hne (List.mem_cons_of_mem _ (List.mem_cons_of_mem _ hv)), hchain.imp id fun hw => ⟨hnot hw.1, hnot hw.2⟩,
    hbracket.imp id fun hw hopen => ?_, fun hangle => ?_, fun his => ?_, hlast⟩
  · rw [hnot hw] at hopen
    cases hopen
  · rw [hne (List.mem_cons_of_mem _ List.mem_cons_self)] at hangle
    cases hangle
  · rw [hne List.mem_cons_self] at his
    cases his

/-! ## Looking ahead at a place -/

theorem ofTokens_before (ts us : List Token) (last : Token) :
    Cursor.ofTokens (ts ++ (us ++ [last])) = Cursor.before ⟨us, last⟩ ts := by
  rw [← List.append_assoc, Cursor.ofTokens, List.dropLast_concat, List.getLastD_concat]
  rfl

theorem Place.put_of_nil (o : Place) (h : c.rest = []) : o.put c = o.next := by
  rw [Place.put, h]
  rfl

theorem peek_put (o : Place) (h : n < c.rest.length) : (o.put c).peek n = (c.peek n).later o.shift := by
  simp [Cursor.peek, Place.put, List.getElem?_append_left, h]

theorem sees_put (o : Place) (h : n < c.rest.length) (w : Text) : (o.put c).sees w n = c.sees w n := by
  rw [Cursor.sees, peek_put o h, Token.is_later, Cursor.sees]

theorem peek_length_le (h : c.rest.length ≤ n) : c.peek n = c.last := by
  simp [Cursor.peek, h]

theorem peek_put_of_le (o : Place) (h : c.rest.length ≤ n) :
    (o.put c).peek n = o.next.peek (n - c.rest.length) := by
  simp [Cursor.peek, Place.put, List.getElem?_append_right, h]

/-- At the end of the input nothing is seen. -/
theorem not_sees_end (hlast : c.last.isEnd = true) (h : c.rest.length ≤ n) (w : Text) : c.sees w n = false := by
  rw [Cursor.sees, peek_length_le h, Token.not_is_of_isEnd hlast]

/-- A joint that is seen is one of the tokens. -/
theorem Seam.sees_joint (h : Seam source o near c) (hn : n ≤ c.rest.length) (hw : w ∈ joints) :
    (o.put c).sees w n = c.sees w n := by
  rcases Nat.lt_or_eq_of_le hn with hlt | rfl
  · exact sees_put o hlt w
  · rw [not_sees_end h.last (Nat.le_refl _), Cursor.sees, peek_put_of_le o (Nat.le_refl _), Nat.sub_self]
    exact h.parts.joint w hw

/-- Where the sources end together, there is the end of both. -/
theorem Place.Quiet.isEnd (h : o.Quiet) (hn : c.rest.length ≤ n) : ((o.put c).peek n).isEnd = true := by
  rw [peek_put_of_le o hn, Cursor.peek, h.1, List.getD_nil]
  exact h.2

/-- Where the sources end together, a token is told by what it is and not by where it stands. -/
theorem Place.Quiet.ahead (h : o.Quiet) (hlast : c.last.isEnd = true) {P : Token → Bool}
    (hP : ∀ t, P (t.later o.shift) = P t) (hend : ∀ t, t.isEnd = true → P t = false) (n : Nat) :
    P ((o.put c).peek n) = P (c.peek n) := by
  by_cases hn : n < c.rest.length
  · rw [peek_put o hn, hP]
  · rw [hend _ (h.isEnd (Nat.le_of_not_lt hn)), peek_length_le (Nat.le_of_not_lt hn), hend _ hlast]

theorem Place.Quiet.sees (h : o.Quiet) (hlast : c.last.isEnd = true) (w : Text) (n : Nat) :
    (o.put c).sees w n = c.sees w n :=
  h.ahead (P := fun t => t.is w) hlast (Token.is_later _ · w) (fun _ ht => Token.not_is_of_isEnd ht w) n

end

namespace Parser

variable {α β σ : Type}

/-- The parser does not answer at the cursor. -/
def Refuses (p : Parser α) (c : Cursor) : Prop := ∀ x, p c ≠ .ok x

/-- In the longer source `q` answers as `p` does and stops at the same token; if
`near` is set, only where `p` stops before the end of the input. -/
def Repeats (o : Place) (near : Bool) (p q : Parser α) (c : Cursor) : Prop :=
  ∀ a d, p c = .ok (a, d) → c.Reaches d ∧ ((near = true → d.rest ≠ []) → q (o.put c) = .ok (a, o.put d))

section
variable {source : Text} {o : Place} {near part : Bool} {c d start : Cursor} {a : α} {p q : Parser α} {f g : α → Parser β}
  {t : Token} {w : Text} {n : Nat}

/-! ## Refusing -/

theorem Refuses.bind (h : Refuses p c) (f : α → Parser β) : Refuses (p >>= f) c := by
  rintro ⟨b, e⟩ hb
  obtain ⟨a, d, ha, _⟩ := bind_ok.1 hb
  exact h _ ha

theorem Refuses.behind (h : ∀ a d, p c = .ok (a, d) → Refuses (f a) d) : Refuses (p >>= f) c := by
  rintro ⟨b, e⟩ hb
  obtain ⟨a, d, ha, hf⟩ := bind_ok.1 hb
  exact h a d ha _ hf

@[simp] theorem refuses_get_bind {f : Cursor → Parser β} : Refuses (get >>= f) c ↔ Refuses (f c) c := .rfl

@[simp] theorem refuses_peek_bind {f : Token → Parser β} : Refuses (peek n >>= f) c ↔ Refuses (f (c.peek n)) c := .rfl

@[simp] theorem refuses_sees_bind {f : Bool → Parser β} :
    Refuses (sees w n >>= f) c ↔ Refuses (f (c.sees w n)) c := .rfl

theorem refuses_fail (fault : Fault) (c : Cursor) : Refuses (fail fault : Parser α) c := nofun

theorem refuses_reject (cause : Rejection) (c : Cursor) : Refuses (reject cause : Parser α) c := nofun

/-- Where what would refuse is passed over, nothing is taken. -/
theorem Refuses.when_ok {p : Parser Unit} {b : Bool} {a : Unit} (h : Refuses p c) (hp : when b p c = .ok (a, d)) : d = c := by
  cases b with
  | true => exact absurd hp (h (a, d))
  | false =>
    cases hp
    rfl

/-- What refuses is repeated. -/
theorem Refuses.repeats (h : Refuses p c) : Repeats o near p q c := fun a d hp => absurd hp (h (a, d))

/-! ## Steps -/

theorem Repeats.bind (hp : Repeats o near p q c)
    (hf : ∀ a d, p c = .ok (a, d) → c.Reaches d → Repeats o near (f a) (g a) d) :
    Repeats o near (p >>= f) (q >>= g) c := by
  intro b e h
  obtain ⟨a, d, hpd, hfe⟩ := bind_ok.1 h
  obtain ⟨hreach, hsame⟩ := hp a d hpd
  obtain ⟨hreach', hsame'⟩ := hf a d hpd hreach b e hfe
  refine ⟨hreach.trans hreach', fun hnear => ?_⟩
  have hfirst := hsame fun hn hnil => by
    obtain ⟨ts, rfl⟩ := hreach'
    exact hnear hn (List.append_eq_nil_iff.1 hnil).2
  rw [bind_apply, hfirst]
  exact hsame' hnear

/-- A token that is wanted behind a parser keeps it from the end of the input. -/
theorem Repeats.wanted (hp : Repeats o true p q c)
    (hf : ∀ a d, p c = .ok (a, d) → c.Reaches d → Repeats o near (f a) (g a) d)
    (hwants : ∀ a d, c.Reaches d → d.rest = [] → Refuses (f a) d) : Repeats o near (p >>= f) (q >>= g) c := by
  intro b e h
  obtain ⟨a, d, hpd, hfe⟩ := bind_ok.1 h
  obtain ⟨hreach, hsame⟩ := hp a d hpd
  obtain ⟨hreach', hsame'⟩ := hf a d hpd hreach b e hfe
  refine ⟨hreach.trans hreach', fun hnear => ?_⟩
  rw [bind_apply, hsame fun _ hnil => hwants a d hreach hnil _ hfe]
  exact hsame' hnear

theorem Repeats.pure : Repeats o near (Pure.pure a) (Pure.pure a) c := by
  rintro _ _ ⟨⟩
  exact ⟨.refl c, fun _ => rfl⟩

theorem Repeats.ite {b b' : Prop} [Decidable b] [Decidable b'] {p' q' : Parser α} (hb : b' ↔ b)
    (hp : b → Repeats o near p q c) (hq : ¬ b → Repeats o near p' q' c) :
    Repeats o near (if b then p else p') (if b' then q else q') c := by
  by_cases h : b
  · rw [if_pos h, if_pos (hb.2 h)]
    exact hp h
  · rw [if_neg h, if_neg (fun h' => h (hb.1 h'))]
    exact hq h

@[simp] theorem repeats_get_bind {f g : Cursor → Parser β} :
    Repeats o near (get >>= f) (get >>= g) c ↔ Repeats o near (f c) (g (o.put c)) c := .rfl

@[simp] theorem repeats_peek_bind {f g : Token → Parser β} :
    Repeats o near (peek n >>= f) (peek n >>= g) c ↔ Repeats o near (f (c.peek n)) (g ((o.put c).peek n)) c := .rfl

@[simp] theorem repeats_sees_bind {f g : Bool → Parser β} :
    Repeats o near (sees w n >>= f) (sees w n >>= g) c ↔
      Repeats o near (f (c.sees w n)) (g ((o.put c).sees w n)) c := .rfl

theorem repeats_textSince_bind {f g : Text → Parser β} (h : start.Reaches c)
    (hf : Repeats o near (f (spell (start.upTo c))) (g (spell (start.upTo c))) c) :
    Repeats o near (textSince start >>= f) (textSince (o.put start) >>= g) c := by
  obtain ⟨ts, rfl⟩ := h
  have hput : o.put (c.before ts) = (o.put c).before (ts.map (·.later o.shift)) := by
    simp [Place.put, Cursor.before]
  intro b e hb
  rw [bind_apply, textSince_apply, ok_bind] at hb
  rw [bind_apply, textSince_apply, ok_bind, hput, Cursor.upTo_before, spell_later]
  rw [Cursor.upTo_before] at hf hb
  exact hf b e hb

theorem repeats_lift {x y : Except Fault α} (h : ∀ a, x = .ok a → y = .ok a) :
    Repeats o near (liftM x) (liftM y) c := by
  intro a d hx
  cases x with
  | error fault => cases hx
  | ok b =>
    cases hx
    rw [h a rfl]
    exact ⟨.refl c, fun _ => rfl⟩

theorem put_before (o : Place) (t : Token) (c : Cursor) :
    o.put (c.before [t]) = (o.put c).before [t.later o.shift] := rfl

theorem exists_first (h : c.rest ≠ []) : ∃ (t : Token) (d : Cursor), c = d.before [t] := by
  obtain ⟨rest, last⟩ := c
  cases rest with
  | nil => exact absurd rfl h
  | cons t rest => exact ⟨t, { rest, last }, rfl⟩

/-- A token that is left is taken. -/
theorem repeats_next_bind {f g : Token → Parser β} (h : c.rest ≠ [])
    (hf : ∀ t d, c = d.before [t] → Repeats o near (f t) (g (t.later o.shift)) d) :
    Repeats o near (next >>= f) (next >>= g) c := by
  obtain ⟨t, d, rfl⟩ := exists_first h
  intro b e hb
  rw [bind_apply, next_before, ok_bind] at hb
  rw [put_before, bind_apply, next_before, ok_bind]
  obtain ⟨hreach, hsame⟩ := hf t d rfl b e hb
  exact ⟨Cursor.Reaches.trans ⟨[t], rfl⟩ hreach, hsame⟩

/-- Whatever takes the last token stops at the end of the input. -/
theorem repeats_next_last {f f' : Token → Parser β} {q : Parser β} (h : c.rest.length = 1)
    (hf : ∀ t d, c = d.before [t] → Repeats o true (f t) (f' t) d) : Repeats o true (next >>= f) q c := by
  obtain ⟨t, d, rfl⟩ := exists_first (c := c) (List.length_pos_iff.1 (by omega))
  intro b e hb
  rw [bind_apply, next_before, ok_bind] at hb
  obtain ⟨⟨ts, rfl⟩, _⟩ := hf t d rfl b e hb
  refine ⟨⟨t :: ts, rfl⟩, fun hnear => absurd ?_ (hnear rfl)⟩
  refine List.length_eq_zero_iff.1 ?_
  simp only [Cursor.rest_before, List.length_append, List.length_cons] at h
  omega

/-- What stays at the end of the input is not asked for. -/
theorem repeats_stay {q : Parser α} (h : c.rest = []) (hp : ∀ a d, p c = .ok (a, d) → d = c) : Repeats o true p q c := by
  intro a d ha
  obtain rfl := hp a d ha
  exact ⟨.refl d, fun hnear => absurd h (hnear rfl)⟩

theorem repeats_skip (h : c.rest ≠ []) : Repeats o near skip skip c := repeats_next_bind h fun _ _ _ => .pure

theorem repeats_when {b b' : Bool} {p q : Parser Unit} (hb : b' = b) (h : b = true → Repeats o near p q c) :
    Repeats o near (when b p) (when b' q) c := by
  subst hb
  exact .ite .rfl h fun _ => .pure

theorem repeats_accept (hlast : c.last.isEnd = true) (h : (o.put c).sees w = c.sees w) :
    Repeats o near (accept w) (accept w) c := by
  simp only [accept, repeats_sees_bind, h]
  refine .ite .rfl (fun hsees => ?_) fun _ => .pure
  refine repeats_next_bind (fun hrest => ?_) fun _ _ _ => .pure
  rw [not_sees_end hlast (by simp [hrest])] at hsees
  cases hsees

theorem repeats_accept_joint (h : Seam source o part c) (hw : w ∈ joints) : Repeats o near (accept w) (accept w) c :=
  repeats_accept h.last (h.sees_joint (Nat.zero_le _) hw)

/-- An accepted token was there. -/
theorem accept_true (hlast : c.last.isEnd = true) (h : accept w c = .ok (true, d)) :
    ∃ t, c = d.before [t] ∧ t.is w = true := by
  cases hsees : c.sees w with
  | false =>
    rw [accept_of_not_sees hsees] at h
    cases h
  | true =>
    obtain ⟨t, e, rfl⟩ := exists_first (c := c) fun hrest => by
      rw [not_sees_end hlast (by simp [hrest])] at hsees
      cases hsees
    have hfirst : t.is w = true := hsees
    rw [accept_before hfirst, Cursor.before_nil] at h
    cases h
    exact ⟨t, rfl, hfirst⟩

theorem accept_false (h : accept w c = .ok (false, d)) : d = c ∧ c.sees w = false := by
  cases hsees : c.sees w with
  | false =>
    rw [accept_of_not_sees hsees] at h
    cases h
    exact ⟨rfl, rfl⟩
  | true =>
    obtain ⟨seen, e, hseen, h⟩ := bind_ok.1 h
    rw [sees_apply, hsees] at hseen
    cases hseen
    obtain ⟨_, _, _, h⟩ := bind_ok.1 h
    cases h

theorem repeats_acceptEither_joint {v : Text} (h : Seam source o part c) (hv : v ∈ joints) (hw : w ∈ joints) :
    Repeats o near (acceptEither v w) (acceptEither v w) c :=
  .bind (repeats_accept_joint h hv) fun _ _ _ hd => .ite .rfl (fun _ => .pure) fun _ =>
    repeats_accept_joint (h.reaches hd) hw

theorem acceptEither_false {v : Text} (h : acceptEither v w c = .ok (false, d)) : d = c := by
  obtain ⟨taken, e, htaken, hother⟩ := bind_ok.1 h
  cases taken with
  | true => cases hother
  | false =>
    obtain ⟨rfl, _⟩ := accept_false htaken
    exact (accept_false (w := w) hother).1

/-- What comes next may be accepted where the parser has to stop before it. -/
theorem repeats_accept_near (hlast : c.last.isEnd = true) (h : near = true ∨ o.next.sees w = false) :
    Repeats o near (accept w) (accept w) c := by
  by_cases hrest : c.rest = []
  · have hnot : c.sees w = false := not_sees_end hlast (by simp [hrest]) w
    rcases h with rfl | h
    · intro a d ha
      rw [accept_of_not_sees hnot] at ha
      cases ha
      exact ⟨.refl c, fun hnear => absurd hrest (hnear rfl)⟩
    · refine repeats_accept hlast ?_
      rw [hnot, Cursor.sees, peek_put_of_le o (by simp [hrest]), hrest]
      exact h
  · exact repeats_accept hlast (sees_put o (List.length_pos_iff.2 hrest) w)

/-- What is wanted is refused at the end of the input. -/
theorem refuses_expect (hlast : c.last.isEnd = true) (h : c.rest = []) (w : Text) : Refuses (expect w) c := by
  refine .behind fun taken d ha => ?_
  rw [accept_of_not_sees (not_sees_end hlast (by simp [h]) w)] at ha
  cases ha
  exact .behind fun _ _ _ => refuses_reject _ _

/-- An expected token was there. -/
theorem expect_ok (hlast : c.last.isEnd = true) {a : Unit} (h : expect w c = .ok (a, d)) :
    ∃ t, c = d.before [t] ∧ t.is w = true := by
  obtain ⟨taken, e, htaken, h⟩ := bind_ok.1 h
  cases taken with
  | true =>
    cases h
    exact accept_true hlast htaken
  | false => exact absurd h (Refuses.behind (fun _ _ _ => refuses_reject _ _) (a, d))

theorem repeats_expect (hlast : c.last.isEnd = true) (w : Text) : Repeats o near (expect w) (expect w) c := by
  by_cases hrest : c.rest = []
  · exact (refuses_expect hlast hrest w).repeats
  · refine .bind (repeats_accept hlast (sees_put o (List.length_pos_iff.2 hrest) w)) fun taken d _ _ => ?_
    cases taken with
    | true => exact .pure
    | false => exact Refuses.repeats (.behind fun _ _ _ => refuses_reject _ _)

theorem refuses_expectName (hlast : c.last.isEnd = true) (h : c.rest = []) : Refuses expectName c := by
  have hword : (c.peek 0).isWord = false := by rw [peek_length_le (by simp [h]), Token.not_isWord_of_isEnd hlast]
  simp only [expectName, refuses_peek_bind, hword, Bool.false_eq_true, if_false]
  exact refuses_reject _ _

theorem repeats_expectName (hlast : c.last.isEnd = true) : Repeats o near expectName expectName c := by
  by_cases hrest : c.rest = []
  · exact (refuses_expectName hlast hrest).repeats
  · simp only [expectName, repeats_peek_bind, peek_put o (List.length_pos_iff.2 hrest), Token.isWord_later, Token.raw_later]
    exact .ite .rfl (fun _ => repeats_next_bind hrest fun _ _ _ => .pure) fun _ =>
      (refuses_reject _ _).repeats

/-! ## Loops -/

/-- What rounds come to they come to with more of them allowed. -/
theorem rounds_of_le {round : σ → Parser (Turn σ β)} {m : Nat} {s : σ} {x : β × Cursor} (hle : n ≤ m)
    (h : rounds round n s c = .ok x) : rounds round m s c = .ok x := by
  induction n generalizing m s c with
  | zero => cases h
  | succ n ih =>
    obtain ⟨m, rfl⟩ : ∃ k, m = k + 1 := ⟨m - 1, by omega⟩
    obtain ⟨turn, d, hturn, hrest⟩ := bind_ok.1 h
    cases turn with
    | again s' =>
      rw [rounds_again hturn]
      exact ih (Nat.le_of_succ_le_succ hle) hrest
    | done b =>
      rw [rounds_done hturn (Nat.succ_pos m)]
      exact hrest

theorem repeats_rounds {round round' : σ → Parser (Turn σ β)} {I : Cursor → Prop} {m : Nat}
    (h : ∀ s d, I d → Repeats o near (round s) (round' s) d)
    (hagain : ∀ s d s' e, I d → round s d = .ok (.again s', e) → I e) (hn : n ≤ m) (s : σ) (hc : I c) :
    Repeats o near (rounds round n s) (rounds round' m s) c := by
  induction n generalizing m s c with
  | zero => exact (refuses_fail _ _).repeats
  | succ n ih =>
    obtain ⟨m, rfl⟩ : ∃ k, m = k + 1 := ⟨m - 1, by omega⟩
    refine .bind (h s c hc) fun turn d hturn _ => ?_
    cases turn with
    | again s' => exact ih (Nat.le_of_succ_le_succ hn) s' (hagain s c s' d hc hturn)
    | done b => exact .pure

/-- A loop may go round at least as often in the longer source. -/
theorem repeats_loop_of {round round' : σ → Parser (Turn σ β)} {I : Cursor → Prop}
    (h : ∀ s d, I d → Repeats o near (round s) (round' s) d)
    (hagain : ∀ s d s' e, I d → round s d = .ok (.again s', e) → I e) (s : σ) (hc : I c) :
    Repeats o near (loop round s) (loop round' s) c := by
  simp only [loop, repeats_get_bind]
  refine repeats_rounds h hagain ?_ s hc
  simp [Place.put]

theorem repeats_loop {round round' : σ → Parser (Turn σ β)}
    (h : ∀ s d, c.Reaches d → Repeats o near (round s) (round' s) d) (s : σ) :
    Repeats o near (loop round s) (loop round' s) c :=
  repeats_loop_of h (fun s d s' e hd hround => hd.trans (h s d hd (.again s') e hround).1) s (.refl c)

theorem repeats_separated {mark : Text} (hlast : c.last.isEnd = true) (hmark : near = true ∨ o.next.sees mark = false)
    (hp : ∀ d, c.Reaches d → Repeats o near p q d) : Repeats o near (separated mark p) (separated mark q) c := by
  refine .bind (hp c (.refl c)) fun first d _ hd => repeats_loop (fun items e he => ?_) [first]
  have hlast : e.last.isEnd = true := by
    obtain ⟨ts, rfl⟩ := hd.trans he
    exact hlast
  refine .bind (repeats_accept_near hlast hmark) fun taken f _ hf => .ite .rfl (fun _ => ?_) fun _ => .pure
  exact .bind (hp f (hd.trans (he.trans hf))) fun _ _ _ _ => .pure

theorem repeats_listed {closer : Text} (h : Seam source o part c) (hcloser : closer ∈ joints)
    (hp : ∀ d, c.Reaches d → Repeats o near p q d) : Repeats o near (listed closer p) (listed closer q) c := by
  refine repeats_loop (fun items d hd => ?_) []
  have hseam := h.reaches hd
  simp only [listedRound, repeats_sees_bind, hseam.sees_joint (Nat.zero_le _) hcloser]
  refine .ite .rfl (fun _ => .pure) fun _ => .bind (hp d hd) fun item e _ he => ?_
  exact .bind (repeats_accept_joint (hseam.reaches he) (by decide)) fun taken _ _ _ => .ite .rfl (fun _ => .pure) fun _ => .pure

/-! ## Brackets -/

theorem repeats_skipBalanced (hlast : c.last.isEnd = true) : Repeats o near skipBalanced skipBalanced c := by
  refine repeats_loop (fun closers d hd => ?_) []
  have hend : d.last.isEnd = true := by
    obtain ⟨ts, rfl⟩ := hd
    exact hlast
  by_cases hrest : d.rest = []
  · refine Refuses.repeats (.behind fun token e he => ?_)
    obtain ⟨rest, last⟩ := d
    cases hrest
    cases he
    rw [if_pos hend]
    exact refuses_fail _ _
  · refine repeats_next_bind hrest fun token e _ => ?_
    simp only [Token.isEnd_later, Token.isMark_later, Token.raw_later]
    refine .ite .rfl (fun _ => Refuses.repeats (refuses_fail _ _)) fun _ => .ite .rfl (fun _ => ?_) fun _ => .pure
    split
    · exact .pure
    · exact .ite .rfl (fun _ => .pure) fun _ => .pure
    · exact .pure

end

end Parser

end Source

end WireSchema
