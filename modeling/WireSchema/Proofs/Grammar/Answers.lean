import WireSchema.Proofs.Grammar.Spelling
import WireSchema.Proofs.Lexing.Tokens
/-!
# What parsers answer with

`Gives p Q` says that the parser `p`, put at tokens of the lexer, goes on at
tokens of the lexer and answers with something that satisfies `Q`, unless it
finds a fault.
-/

namespace WireSchema.Source

/-- All tokens are those of the lexer, the end of the input behind them. -/
structure Cursor.Lexed (c : Cursor) : Prop where
  rest : ∀ t ∈ c.rest, t.Lexed
  last : c.last.isEnd = true

namespace Cursor.Lexed

variable {c : Cursor}

theorem peek (h : c.Lexed) (n : Nat) : (c.peek n).Lexed := by
  rw [Cursor.peek, List.getD_eq_getElem?_getD]
  cases hn : c.rest[n]? with
  | none =>
    have hend := h.last
    simp only [Token.isEnd, beq_iff_eq] at hend
    rw [Option.getD_none]
    refine ⟨fun hw => ?_, fun hw => ?_⟩ <;> rw [hend] at hw <;> cases hw
  | some t => exact h.rest t (List.mem_of_getElem? hn)

/-- A token that is not the end of the input stands among those that are left. -/
theorem exists_of_not_end (h : c.Lexed) (hpeek : c.peek.isEnd = false) :
    ∃ (t : Token) (b : Cursor), c = b.before [t] ∧ t.Lexed ∧ b.Lexed := by
  obtain ⟨rest, last⟩ := c
  cases rest with
  | nil =>
    have : last.isEnd = true := h.last
    rw [show Cursor.peek { rest := [], last } = last from rfl, this] at hpeek
    cases hpeek
  | cons t rest =>
    exact ⟨t, { rest, last }, rfl, h.rest t List.mem_cons_self,
      fun u hu => h.rest u (List.mem_cons_of_mem _ hu), h.last⟩

/-- A mark that is seen stands among the tokens that are left. -/
theorem exists_mark {w : Text} (h : c.Lexed) (hsees : c.sees w = true)
    (hw : Text.isName w = false) : ∃ (t : Token) (b : Cursor), c = b.before [t] ∧ t.Marks w ∧ b.Lexed := by
  have hend : c.peek.isEnd = false := Token.not_isEnd_of_is hsees
  obtain ⟨t, b, rfl, ht, hb⟩ := h.exists_of_not_end hend
  refine ⟨t, b, rfl, ?_, hb⟩
  rw [Cursor.sees_before, Token.is, Bool.and_eq_true, Bool.or_eq_true, beq_iff_eq] at hsees
  obtain ⟨hkind, rfl⟩ := hsees
  rcases hkind with hword | hmark
  · have := ht.word (beq_iff_eq.1 hword)
    rw [hw] at this
    cases this
  · exact ⟨beq_iff_eq.1 hmark, rfl⟩

/-- A word that comes stands among the tokens that are left. -/
theorem exists_word (h : c.Lexed) (hword : c.peek.isWord = true) :
    ∃ (t : Token) (b : Cursor), c = b.before [t] ∧ t.Names ∧ b.Lexed := by
  have hl : c.peek.lexeme = .word := beq_iff_eq.1 hword
  have hend : c.peek.isEnd = false := by rw [Token.isEnd, hl]; rfl
  obtain ⟨t, b, rfl, ht, hb⟩ := h.exists_of_not_end hend
  exact ⟨t, b, rfl, ⟨hl, ht.word hl⟩, hb⟩

theorem ofTokens {ts : List Token} {last : Token} (h : ∀ t ∈ ts, t.Lexed) (hlast : last.isEnd = true) :
    (Cursor.ofTokens (ts ++ [last])).Lexed := by
  refine ⟨?_, ?_⟩
  · simpa [Cursor.ofTokens] using h
  · simpa [Cursor.ofTokens] using hlast

end Cursor.Lexed

namespace Parser

/-- One step after the other answers if both do. -/
theorem bind_ok {α β : Type} {p : Parser α} {f : α → Parser β} {c c' : Cursor} {b : β} :
    (p >>= f) c = .ok (b, c') ↔ ∃ a d, p c = .ok (a, d) ∧ f a d = .ok (b, c') := by
  rw [bind_apply]
  cases p c with
  | error fault =>
    constructor
    · intro h
      cases h
    · rintro ⟨_, _, h, _⟩
      cases h
  | ok x =>
    constructor
    · intro h
      exact ⟨_, _, rfl, h⟩
    · rintro ⟨_, _, h, h'⟩
      cases h
      exact h'

/-- At tokens of the lexer the parser answers as `Q` says and stays at such tokens. -/
def Gives (p : Parser α) (Q : α → Prop) : Prop :=
  ∀ c a c', c.Lexed → p c = .ok (a, c') → Q a ∧ c'.Lexed

section
variable {α β σ : Type} {p : Parser α} {f : α → Parser β} {Q : α → Prop} {R : β → Prop}

theorem Gives.mono {Q' : α → Prop} (h : Gives p Q) (hq : ∀ a, Q a → Q' a) : Gives p Q' := by
  intro c a c' hc hp
  obtain ⟨ha, hc'⟩ := h c a c' hc hp
  exact ⟨hq a ha, hc'⟩

theorem Gives.any (h : Gives p Q) : Gives p fun _ => True := h.mono fun _ _ => trivial

theorem Gives.pure {a : α} (h : Q a) : Gives (Pure.pure a) Q := by
  rintro c _ _ hc ⟨⟩
  exact ⟨h, hc⟩

theorem Gives.bind (hp : Gives p Q) (hf : ∀ a, Q a → Gives (f a) R) : Gives (p >>= f) R := by
  intro c b c' hc h
  obtain ⟨a, d, hpc, hfd⟩ := bind_ok.1 h
  obtain ⟨ha, hd⟩ := hp c a d hc hpc
  exact hf a ha d b c' hd hfd

theorem Gives.ite {b : Prop} [Decidable b] {q : Parser α} (hp : b → Gives p Q) (hq : ¬ b → Gives q Q) :
    Gives (if b then p else q) Q := by
  split
  next h => exact hp h
  next h => exact hq h

theorem gives_fail (fault : Fault) : Gives (fail fault : Parser α) Q := by
  intro c a c' _ h
  cases h

theorem gives_rejectAt (t : Token) (cause : Rejection) : Gives (rejectAt t cause : Parser α) Q :=
  gives_fail _

theorem gives_reject (cause : Rejection) : Gives (reject cause : Parser α) Q := by
  intro c a c' _ h
  cases h

theorem gives_lift (x : Except Fault α) : Gives (liftM x : Parser α) fun _ => True := by
  intro c a c' hc h
  cases x with
  | error fault => cases h
  | ok b =>
    cases h
    exact ⟨trivial, hc⟩

theorem gives_get : Gives get Cursor.Lexed := by
  rintro c _ _ hc ⟨⟩
  exact ⟨hc, hc⟩

theorem gives_peek (n : Nat) : Gives (peek n) Token.Lexed := by
  rintro c _ _ hc ⟨⟩
  exact ⟨hc.peek n, hc⟩

theorem gives_sees (w : Text) (n : Nat) : Gives (sees w n) fun _ => True := by
  rintro c _ _ hc ⟨⟩
  exact ⟨trivial, hc⟩

theorem gives_next : Gives next Token.Lexed := by
  intro c a c' hc h
  obtain ⟨rest, last⟩ := c
  cases rest with
  | nil =>
    cases h
    exact ⟨hc.peek 0, hc⟩
  | cons t rest =>
    cases h
    exact ⟨hc.rest _ List.mem_cons_self, fun u hu => hc.rest u (List.mem_cons_of_mem _ hu), hc.last⟩

theorem gives_skip : Gives skip fun _ => True := .bind gives_next fun _ _ => .pure trivial

theorem gives_when {b : Bool} {p : Parser Unit} (h : Gives p fun _ => True) :
    Gives (when b p) fun _ => True :=
  .ite (fun _ => h) fun _ => .pure trivial

theorem gives_textSince (start : Cursor) : Gives (textSince start) fun _ => True := by
  rintro c _ _ hc ⟨⟩
  exact ⟨trivial, hc⟩

theorem gives_accept (w : Text) : Gives (accept w) fun _ => True := by
  refine .bind (gives_sees w 0) fun b _ => .ite (fun _ => ?_) fun _ => .pure trivial
  exact .bind gives_next fun _ _ => .pure trivial

theorem gives_acceptEither (v w : Text) : Gives (acceptEither v w) fun _ => True := by
  refine .bind (gives_accept v) fun b _ => .ite (fun _ => .pure trivial) fun _ => ?_
  exact gives_accept w

theorem gives_expect (w : Text) : Gives (expect w) fun _ => True := by
  refine .bind (gives_accept w) fun b _ => .ite (fun _ => .pure trivial) fun _ => ?_
  exact .bind (gives_peek 0) fun _ _ => gives_reject _

theorem gives_expectName : Gives expectName fun _ => True := by
  refine .bind (gives_peek 0) fun t _ => .ite (fun _ => ?_) fun _ => gives_reject _
  exact .bind gives_next fun _ _ => .pure trivial

/-! ## Loops -/

/-- A round keeps `I` if it goes on and ends with `Q`. -/
def Keeps (I : σ → Prop) (Q : β → Prop) : Turn σ β → Prop
  | .again s => I s
  | .done b => Q b

theorem gives_rounds {round : σ → Parser (Turn σ β)} {I : σ → Prop}
    (h : ∀ s, I s → Gives (round s) (Keeps I R)) (n : Nat) {s : σ} (hs : I s) :
    Gives (rounds round n s) R := by
  induction n generalizing s with
  | zero => exact gives_fail _
  | succ n ih =>
    refine .bind (h s hs) fun turn hturn => ?_
    cases turn with
    | again s => exact ih hturn
    | done b => exact .pure hturn

theorem gives_loop {round : σ → Parser (Turn σ β)} {I : σ → Prop}
    (h : ∀ s, I s → Gives (round s) (Keeps I R)) {s : σ} (hs : I s) : Gives (loop round s) R :=
  .bind gives_get fun _ _ => gives_rounds h _ hs

theorem gives_separated (w : Text) (hp : Gives p Q) :
    Gives (separated w p) fun as => as ≠ [] ∧ ∀ a ∈ as, Q a := by
  refine .bind hp fun a ha => gives_loop (I := fun as => as ≠ [] ∧ ∀ a ∈ as, Q a) ?_ (by simpa using ha)
  rintro as ⟨hne, has⟩
  refine .bind (gives_accept w) fun b _ => .ite (fun _ => ?_) fun _ => .pure ?_
  · exact .bind hp fun a ha => .pure ⟨List.cons_ne_nil a as, List.forall_mem_cons.2 ⟨ha, has⟩⟩
  · refine ⟨fun h => hne (List.reverse_eq_nil_iff.1 h), fun a ha => has a (List.mem_reverse.1 ha)⟩

theorem gives_listed (closer : Text) (hp : Gives p Q) : Gives (listed closer p) fun as => ∀ a ∈ as, Q a := by
  refine gives_loop (I := fun as => ∀ a ∈ as, Q a) ?_ (by simp)
  intro as has
  refine .bind (gives_sees closer 0) fun b _ => .ite (fun _ => .pure ?_) fun _ => ?_
  · simpa [Keeps] using has
  · refine .bind hp fun a ha => .bind (gives_accept ",") fun b _ => ?_
    have hcons : ∀ a' ∈ a :: as, Q a' := List.forall_mem_cons.2 ⟨ha, has⟩
    refine .ite (fun _ => .pure hcons) fun _ => .pure fun a' ha' => ?_
    exact hcons a' (List.mem_reverse.1 ha')

theorem gives_skipBalanced : Gives skipBalanced fun _ => True := by
  refine gives_loop (I := fun _ => True) (fun closers _ => ?_) trivial
  refine .bind gives_next fun t _ => .ite (fun _ => gives_rejectAt _ _) fun _ => .ite (fun _ => ?_)
    fun _ => .pure trivial
  split
  · exact .pure trivial
  · refine .ite (fun _ => .pure ?_) fun _ => .pure trivial
    split <;> trivial
  · exact .pure trivial

end

end Parser

end WireSchema.Source
