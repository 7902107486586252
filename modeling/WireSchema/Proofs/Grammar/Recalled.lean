import WireSchema.Proofs.Grammar.Again
/-!
# Parsers at copies

`Recalls near stuck F p q c c'` says that `q` does at the copies what `p` does at
the tokens of the run, with `F` applied to the answer, as long as `p` does not
go beyond the run.
-/

namespace WireSchema

open Source Source.Cursor Source.Parser

namespace Source

namespace Parser

/-- A turn with other states and results. -/
def Turn.map {σ β τ γ : Type} (F : σ → τ) (G : β → γ) : Turn σ β → Turn τ γ
  | .again s => .again (F s)
  | .done b => .done (G b)

end Parser

namespace Excerpt

section
variable {α β γ δ σ τ : Type} {o : Excerpt} {near stuck : Bool} {F : α → β} {G : γ → δ} {p : Parser α} {q : Parser β}
  {f : α → Parser γ} {g : β → Parser δ} {c c' d d' start start' : Cursor} {P : Token → Bool} {w : Text} {n : Nat}

variable (o) in
/-- Where `p` answers with `a` and has not gone beyond the run, `q` answers at the
copies with `F a` and stops at the copy of the token at which `p` stops. If
`stuck` is set, `p` may also stop before a bound that is a condition. -/
def Recalls (near stuck : Bool) (F : α → β) (p : Parser α) (q : Parser β) (c c' : Cursor) : Prop :=
  ∀ a d, p c = .ok (a, d) →
    c.Reaches d ∧ (o.Beyond near d ∨ stuck = true ∧ o.Stuck d ∨ ∃ d', q c' = .ok (F a, d') ∧ o.Cut near d d')

/-- Beyond the run the parser only has to go forth. -/
theorem Recalls.beyond (hbeyond : o.Beyond near c) (h : Answers p c fun _ d => c.Forth d) :
    o.Recalls near stuck F p q c c' := fun a d hrun => by
  have hreaches := (h a d hrun).reaches
  exact ⟨hreaches, .inl (hbeyond.reaches hreaches)⟩

/-- A parser that takes so many tokens that it goes beyond the run. -/
theorem Recalls.out (h : Answers p c fun _ d => Over n c d) (hn : c.rest.length < o.behind.rest.length + near.toNat + n) :
    o.Recalls near stuck F p q c c' := fun a d hrun => by
  have hover := h a d hrun
  refine ⟨hover.reaches, .inl ?_⟩
  have := hover.length
  rw [Beyond]
  omega

theorem Recalls.refuse (h : Answers p c fun _ _ => False) : o.Recalls near stuck F p q c c' :=
  fun a d hrun => (h a d hrun).elim

theorem recalls_reject {cause : Rejection} : o.Recalls near stuck F (reject cause) q c c' := nofun

theorem recalls_rejectAt {t : Token} {cause : Rejection} : o.Recalls near stuck F (rejectAt t cause) q c c' := nofun

theorem Recalls.pure {a : α} (h : o.At near c c') : o.Recalls near stuck F (Pure.pure a) (Pure.pure (F a)) c c' := by
  rintro b d ⟨⟩
  refine ⟨.refl c, h.place.elim (fun hcut => .inr (.inr ⟨c', rfl, hcut⟩)) .inl⟩

theorem Recalls.stay {a : α} {b : β} (h : o.At near c c') (hb : b = F a) :
    o.Recalls near stuck F (Pure.pure a) (Pure.pure b) c c' := hb ▸ .pure h

/-- Wherever the parser is, it goes forth. -/
theorem At.reaches (h : o.At near c c') (hd : c.Reaches d) (hplace : o.Beyond near d ∨ o.Cut near d d') : o.At near d d' := by
  obtain ⟨ts, rfl⟩ := hd
  exact ⟨h.last, hplace.symm⟩

/-- Where the parser is stuck, what comes next takes nothing or goes beyond the run. -/
theorem Recalls.bind_stuck {part : Bool} (h : o.At near c c') (hp : o.Recalls near part F p q c c')
    (hstuck : part = true → ∀ a d, d.last.isEnd = true → o.Stuck d →
      Answers (f a) d fun _ e => stuck = true ∧ e = d ∨ Over 3 d e)
    (hf : ∀ a d d', p c = .ok (a, d) → c.Reaches d → o.At near d d' → o.Recalls near stuck G (f a) (g (F a)) d d') :
    o.Recalls near stuck G (p >>= f) (q >>= g) c c' := by
  intro b e hrun
  obtain ⟨a, d, hfirst, hrest⟩ := bind_ok.1 hrun
  obtain ⟨hreaches, hbeyond | ⟨hpart, hd⟩ | ⟨d', hsame, hcut⟩⟩ := hp a d hfirst
  · obtain ⟨hreaches', _⟩ := hf a d d hfirst hreaches (h.reaches hreaches (.inl hbeyond)) b e hrest
    exact ⟨hreaches.trans hreaches', .inl (hbeyond.reaches hreaches')⟩
  · rcases hstuck hpart a d (hreaches.last ▸ h.last) hd b e hrest with ⟨hset, rfl⟩ | hover
    · exact ⟨hreaches, .inr (.inl ⟨hset, hd⟩)⟩
    · refine ⟨hreaches.trans hover.reaches, .inl ?_⟩
      have := hover.length
      have := hd.2.2
      rw [Beyond]
      omega
  · obtain ⟨hreaches', hrest'⟩ := hf a d d' hfirst hreaches (h.reaches hreaches (.inr hcut)) b e hrest
    refine ⟨hreaches.trans hreaches', hrest'.imp id (.imp id ?_)⟩
    rintro ⟨e', hsame', hcut'⟩
    exact ⟨e', bind_ok.2 ⟨F a, d', hsame, hsame'⟩, hcut'⟩

theorem Recalls.bind (h : o.At near c c') (hp : o.Recalls near false F p q c c')
    (hf : ∀ a d d', p c = .ok (a, d) → c.Reaches d → o.At near d d' → o.Recalls near stuck G (f a) (g (F a)) d d') :
    o.Recalls near stuck G (p >>= f) (q >>= g) c c' :=
  .bind_stuck h hp (fun hfalse => absurd hfalse Bool.false_ne_true) hf

/-- What cannot be stuck is not. -/
theorem Recalls.unstuck (h : o.Recalls near false F p q c c') : o.Recalls near stuck F p q c c' := fun a d hrun => by
  obtain ⟨hreaches, hplace⟩ := h a d hrun
  exact ⟨hreaches, hplace.imp id (.imp (fun hfalse => absurd hfalse.1 nofun) id)⟩

/-- What has to be followed by a token stops before the end of the run. -/
theorem Recalls.wanted (h : o.At near c c') (hp : o.At true c c' → o.Recalls true false F p q c c')
    (hnext : ∀ a d, d.last.isEnd = true → Answers (f a) d fun _ e => Over 1 d e)
    (hf : ∀ a d d', p c = .ok (a, d) → c.Reaches d → o.Cut true d d' → o.Recalls near stuck G (f a) (g (F a)) d d') :
    o.Recalls near stuck G (p >>= f) (q >>= g) c c' := by
  intro b e hrun
  obtain ⟨a, d, hfirst, hrest⟩ := bind_ok.1 hrun
  have htrue : o.At true c c' := by
    cases near with
    | true => exact h
    | false => exact h.nearer
  obtain ⟨hreaches, hbeyond | ⟨hfalse, _⟩ | ⟨d', hsame, hcut⟩⟩ := hp htrue a d hfirst
  · have hover := hnext a d (hreaches.last ▸ h.last) b e hrest
    refine ⟨hreaches.trans hover.reaches, .inl (Beyond.nearer ?_)⟩
    have := hover.length
    have : d.rest.length < o.behind.rest.length + 1 := hbeyond
    simp only [Beyond, Bool.toNat_false]
    omega
  · cases hfalse
  · obtain ⟨hreaches', hrest'⟩ := hf a d d' hfirst hreaches hcut b e hrest
    refine ⟨hreaches.trans hreaches', hrest'.imp id (.imp id ?_)⟩
    rintro ⟨e', hsame', hcut'⟩
    exact ⟨e', bind_ok.2 ⟨F a, d', hsame, hsame'⟩, hcut'⟩

/-- What the parser has to be past at the end of the run it cannot stop at. -/
theorem Cut.closer (h : o.Cut true c c') : o.Cut near c c' := by
  cases near with
  | true => exact h
  | false => exact h.farther

/-- What cannot move the cursor is the same at the copies if it comes to the same. -/
theorem recalls_lift {x : Except Fault α} {y : Except Fault β} (h : o.At near c c') (hxy : ∀ a, x = .ok a → y = .ok (F a)) :
    o.Recalls near stuck F (liftM x : Parser α) (liftM y : Parser β) c c' := by
  intro a d hrun
  cases x with
  | error fault => cases hrun
  | ok found =>
    cases hrun
    rw [hxy _ rfl]
    exact (Recalls.pure (F := F) h) _ _ rfl

@[simp] theorem recalls_get_bind {f : Cursor → Parser γ} {g : Cursor → Parser δ} :
    o.Recalls near stuck G (get >>= f) (get >>= g) c c' ↔ o.Recalls near stuck G (f c) (g c') c c' := .rfl

@[simp] theorem recalls_peek_bind {f : Token → Parser γ} {g : Token → Parser δ} :
    o.Recalls near stuck G (peek n >>= f) (peek n >>= g) c c' ↔
      o.Recalls near stuck G (f (c.peek n)) (g (c'.peek n)) c c' := .rfl

@[simp] theorem recalls_sees_bind {f : Bool → Parser γ} {g : Bool → Parser δ} :
    o.Recalls near stuck G (sees w n >>= f) (sees w n >>= g) c c' ↔
      o.Recalls near stuck G (f (c.sees w n)) (g (c'.sees w n)) c c' := .rfl

/-- A condition that is the same at the tokens and at the copies. -/
theorem Recalls.alike {b b' : Prop} [Decidable b] [Decidable b'] {p₁ p₂ : Parser α} {q₁ q₂ : Parser β} (hb : b' ↔ b)
    (hyes : b → o.Recalls near stuck F p₁ q₁ c c') (hno : ¬ b → o.Recalls near stuck F p₂ q₂ c c') :
    o.Recalls near stuck F (if b then p₁ else p₂) (if b' then q₁ else q₂) c c' := by
  by_cases h : b
  · rw [if_pos h, if_pos (hb.2 h)]
    exact hyes h
  · rw [if_neg h, if_neg (mt hb.1 h)]
    exact hno h

/-- A condition on the next tokens. Where it holds at the tokens and not at the
copies, the run is too short for what comes then. -/
theorem Recalls.branch {b b' : Prop} [Decidable b] [Decidable b'] {p₁ p₂ : Parser α} {q₁ q₂ : Parser β} (n : Nat)
    (h : o.At near c c') (himp : o.Cut near c c' → b' → b)
    (hsame : o.Cut near c c' → o.behind.rest.length + near.toNat + n ≤ c.rest.length → b → b')
    (hover : b → Answers p₁ c fun _ d => Over n c d) (hyes : b → b' → o.Cut near c c' → o.Recalls near stuck F p₁ q₁ c c')
    (hno : ¬ b → o.Recalls near stuck F p₂ q₂ c c') :
    o.Recalls near stuck F (if b then p₁ else p₂) (if b' then q₁ else q₂) c c' := by
  by_cases hb : b
  · rw [if_pos hb]
    rcases h.place with hcut | hbeyond
    · by_cases hb' : b'
      · rw [if_pos hb']
        exact hyes hb hb' hcut
      · exact .out (hover hb) (Nat.lt_of_not_le fun hle => hb' (hsame hcut hle hb))
    · exact .beyond hbeyond ((hover hb).mono fun _ _ hd => hd.toForth)
  · rw [if_neg hb]
    rcases h.place with hcut | hbeyond
    · rw [if_neg (mt (himp hcut) hb)]
      exact hno hb
    · intro a d hrun
      obtain ⟨hreaches, _⟩ := hno hb a d hrun
      exact ⟨hreaches, .inl (hbeyond.reaches hreaches)⟩

/-- The text between two tokens of the run is the text between their copies. -/
theorem recalls_textSince_bind {f : Text → Parser γ} {g : Text → Parser δ} (hstart : o.At near start start')
    (hreaches : start.Reaches c) (h : o.At near c c') (hf : ∀ t, o.Recalls near stuck G (f t) (g t) c c') :
    o.Recalls near stuck G (textSince start >>= f) (textSince start' >>= g) c c' := by
  intro b e hrun
  rcases h.place with hcut | hbeyond
  · have hcut' := hstart.place.resolve_right fun hbeyond => hcut.not_beyond (hbeyond.reaches hreaches)
    have htext := hcut'.spell_upTo hcut
    have hg : (textSince start' >>= g) c' = g (spell (start.upTo c)) c' := by rw [← htext]; rfl
    rw [hg]
    exact hf _ b e hrun
  · obtain ⟨hforth, _⟩ := hf _ b e hrun
    exact ⟨hforth, .inl (hbeyond.reaches hforth)⟩

/-! ## Single tokens -/

/-- What is seen is accepted. -/
theorem over_seen {f : Bool → Parser γ} {R : γ → Cursor → Prop} (hlast : c.last.isEnd = true) (hsees : c.sees w = true)
    (hf : ∀ d, Over 1 c d → Answers (f true) d R) : Answers (accept w >>= f) c R := by
  obtain ⟨t, d, rfl⟩ := (Forth.refl hlast).first (Token.not_isEnd_of_is hsees)
  intro a e hrun
  rw [bind_apply, accept_before (t := t) hsees] at hrun
  exact hf d (Forth.refl hlast).over_one a e hrun

/-- What is accepted is taken. -/
theorem over_accept (w : Text) (hlast : c.last.isEnd = true) : Answers (accept w) c fun taken d =>
    c.Forth d ∧ (taken = true → Over 1 c d) :=
  (forth_accept w (.refl hlast)).mono fun taken d ⟨hd, htaken, _⟩ => ⟨hd, fun h => by
    obtain ⟨t, hc, _⟩ := htaken h
    exact Forth.over_one (t := t) (hc ▸ .refl hlast)⟩

theorem over_expect (w : Text) (hlast : c.last.isEnd = true) : Answers (expect w) c fun _ d => Over 1 c d := by
  refine (forth_expect w (.refl hlast)).mono fun _ d hd => ?_
  obtain ⟨t, ht, -⟩ := hd
  exact ht.over_one

/-- A token of the run and its copy are taken. -/
theorem recalls_next_bind {f : Token → Parser γ} {g : Token → Parser δ} (h : o.Cut near c c')
    (hlt : o.behind.rest.length < c.rest.length)
    (hf : ∀ u v d d', c = d.before [u] → u = c.peek → v = c'.peek → u.Copied o.source o.text o.docs v → o.At near d d' →
      o.Recalls near stuck G (f u) (g v) d d') :
    o.Recalls near stuck G (next >>= f) (next >>= g) c c' := by
  obtain ⟨u, v, d, d', rfl, rfl, hcopy, hcut⟩ := h.first hlt
  intro b e hrun
  obtain ⟨hreaches, hrest⟩ := hf u v d d' rfl rfl rfl hcopy (At.nearer hcut.at_) b e hrun
  exact ⟨.trans ⟨[u], rfl⟩ hreaches, hrest⟩

/-- A token is taken, if only the run has not ended before. -/
theorem recalls_step {f : Token → Parser γ} {g : Token → Parser δ} (h : o.At near c c') (hend : c.peek.isEnd = false)
    (hforth : ∀ t d, d.last.isEnd = true → Answers (f t) d fun _ e => d.Forth e)
    (hf : ∀ u v d d', c = d.before [u] → u = c.peek → v = c'.peek → u.Copied o.source o.text o.docs v → o.At near d d' →
      o.Recalls near stuck G (f u) (g v) d d') :
    o.Recalls near stuck G (next >>= f) (next >>= g) c c' := by
  have hover : Answers (next >>= f) c fun _ d => Over 1 c d := by
    refine (forth_next h.forth).bind fun t d ⟨ht, hd, hcut⟩ => ?_
    have hcursor := hcut (ht ▸ hend)
    refine (hforth t d hd.last).mono fun _ e he => ?_
    exact (Forth.over_one (t := t) (hcursor ▸ h.forth)).trans he.over
  rcases h.place with hcut | hbeyond
  · by_cases hlt : o.behind.rest.length < c.rest.length
    · exact recalls_next_bind hcut hlt hf
    · exact .out hover (by have := hcut.length_le; omega)
  · exact .beyond hbeyond (hover.mono fun _ _ hd => hd.toForth)

theorem skip_end (h : c.rest = []) : skip c = .ok ((), c) := by
  obtain ⟨rest, last⟩ := c
  cases h
  rfl

/-- What is dropped is dropped at the copies, the end of the input staying. -/
theorem recalls_skip (h : o.At near c c') : o.Recalls near false id skip skip c c' := by
  rcases h.place with hcut | hbeyond
  · by_cases hlt : o.behind.rest.length < c.rest.length
    · exact recalls_next_bind hcut hlt fun _ _ _ _ _ _ _ _ hat => .stay hat rfl
    · have hlengths := hcut.lengths
      by_cases hrest : c.rest = []
      · -- nothing is left in the source, nor behind the copies
        have hrest' : c'.rest = [] := List.eq_nil_of_length_eq_zero (by simp [hrest] at hlengths; omega)
        rintro _ d hrun
        rw [skip_end hrest] at hrun
        cases hrun
        exact ⟨.refl _, .inr (.inr ⟨c', skip_end hrest', hcut⟩)⟩
      · obtain ⟨t, d, rfl⟩ := exists_first hrest
        refine .out (n := 1) ?_ (by omega)
        rintro _ _ ⟨⟩
        exact Forth.over_one h.forth
  · exact .beyond hbeyond (forth_skip h.forth)

/-- One token is taken, the present one. -/
theorem over_next {f : Token → Parser γ} {R : γ → Cursor → Prop} (hlast : c.last.isEnd = true) (hend : c.peek.isEnd = false)
    (hf : ∀ t d, c = d.before [t] → Over 1 c d → Answers (f t) d R) : Answers (next >>= f) c R := by
  obtain ⟨t, d, rfl⟩ := (Forth.refl hlast).first hend
  exact hf t d rfl (Forth.refl hlast).over_one

theorem over_skip {f : Unit → Parser γ} {R : γ → Cursor → Prop} (hlast : c.last.isEnd = true) (hend : c.peek.isEnd = false)
    (hf : ∀ t d, c = d.before [t] → Over 1 c d → Answers (f ()) d R) : Answers (skip >>= f) c R := by
  obtain ⟨t, d, rfl⟩ := (Forth.refl hlast).first hend
  exact hf t d rfl (Forth.refl hlast).over_one

theorem recalls_accept (w : Text) (h : o.At near c c') : o.Recalls near false id (accept w) (accept w) c c' := by
  simp only [accept, recalls_sees_bind]
  refine .branch 1 h (fun hcut => hcut.of_copy (told_is w)) (fun hcut hle hsees => ?_) (fun hsees => ?_) (fun _ hsees hcut => ?_)
    fun _ => .stay h rfl
  · rwa [Cursor.sees, hcut.inside (told_is w) (by omega)]
  · exact over_next h.last (Token.not_isEnd_of_is hsees) fun t d _ hd => .pure hd
  · exact recalls_next_bind hcut (hcut.lt_of_copy (told_is w) hsees) fun _ _ _ _ _ _ _ _ hat => .stay hat rfl

theorem recalls_acceptEither (v w : Text) (h : o.At near c c') :
    o.Recalls near false id (acceptEither v w) (acceptEither v w) c c' :=
  .bind h (recalls_accept v h) fun _ _ _ _ _ hat => .alike .rfl (fun _ => .stay hat rfl) fun _ => recalls_accept w hat

theorem recalls_expect (w : Text) (h : o.At near c c') : o.Recalls near false id (expect w) (expect w) c c' :=
  .bind h (recalls_accept w h) fun _ _ _ _ _ hat => .alike .rfl (fun _ => .stay hat rfl) fun _ => by
    simp only [recalls_peek_bind]
    exact recalls_reject

theorem recalls_expectName (h : o.At near c c') : o.Recalls near false id expectName expectName c c' := by
  simp only [expectName, recalls_peek_bind]
  refine .branch 1 h (fun hcut => hcut.of_copy told_isWord) (fun hcut hle hword => ?_) (fun hword => ?_) (fun _ hword hcut => ?_)
    fun _ => recalls_reject
  · rwa [hcut.inside told_isWord (by omega)]
  · exact over_next h.last (Token.not_isEnd_of_isWord hword) fun t d _ hd => .pure hd
  · refine recalls_next_bind hcut (hcut.lt_of_copy told_isWord hword) fun u v d d' _ hu hv hcopy hat => .stay hat ?_
    rw [← hv, ← hu]
    exact hcopy.raw

theorem when_bind (b : Bool) (p : Parser Unit) (f : Unit → Parser γ) : (Parser.when b p >>= f) = if b then p >>= f else f () := by
  cases b <;> rfl

/-- What has to come is passed by what comes then. -/
theorem recalls_demand {f : Unit → Parser γ} {g : Unit → Parser δ} {cause cause' : Rejection} (h : o.At near c c') (hP : o.Told P)
    (hover : P c.peek = true → Answers (f ()) c fun _ d => Over 1 c d)
    (hf : P c.peek = true → o.Recalls near stuck G (f ()) (g ()) c c') :
    o.Recalls near stuck G (Parser.when (!P c.peek) (reject cause) >>= f) (Parser.when (!P c'.peek) (reject cause') >>= g)
    c c' := by
  have hsome : o.Recalls near stuck G (if P c.peek then f () else reject cause >>= f)
    (if P c'.peek then g () else reject cause' >>= g)
      c c' :=
    .branch 1 h (fun hcut => hcut.of_copy hP) (fun hcut hle => by rw [hcut.inside hP (by omega)]; exact id) hover
      (fun hsees _ _ => hf hsees) fun _ => nofun
  rw [when_bind, when_bind]
  cases hb : P c.peek <;> cases hb' : P c'.peek <;> simpa [hb, hb'] using hsome

/-! ## Loops -/

/-- A loop whose rounds keep `I` and take a token if they are not the last. -/
theorem recalls_loop {S : σ → τ} {B : α → β} {round : σ → Parser (Turn σ α)} {round' : τ → Parser (Turn τ β)}
    {I : σ → Cursor → Prop} {s : σ} (hs : I s c) (h : o.At near c c')
    (hround : ∀ s d d', I s d → o.At near d d' → o.Recalls near stuck (Turn.map S B) (round s) (round' (S s)) d d')
    (hkeeps : ∀ s d, I s d → d.last.isEnd = true →
      Answers (round s) d fun turn e => ∀ s', turn = .again s' → I s' e ∧ Over 1 d e)
    (hstuck : stuck = true → ∀ s d, o.Stuck d → Answers (round s) d fun turn e => e = d ∧ ∃ b, turn = .done b) :
    o.Recalls near stuck B (loop round s) (loop round' (S s)) c c' := by
  have hrounds (n m : Nat) (s : σ) (d d' : Cursor) (hs : I s d) (hat : o.At near d d')
      (hm : o.Cut near d d' → d'.rest.length < m) :
      o.Recalls near stuck B (rounds round n s) (rounds round' m (S s)) d d' := by
    -- by induction on the rounds of the longer text; `m` is enough for what is left of the cut
    induction n generalizing m s d d' with
    | zero => exact nofun
    | succ n ih =>
      intro b e hrun
      obtain ⟨turn, e', hturn, hrest⟩ := bind_ok.1 hrun
      obtain ⟨hreaches', hplace⟩ := hround s d d' hs hat turn e' hturn
      have hkept := hkeeps s d hs hat.last turn e' hturn
      rcases hplace with hbeyond | ⟨hset, hstopped⟩ | ⟨e'', hsame, hcut⟩
      · -- beyond the run the rounds only go forth
        cases turn with
        | again s =>
          have hat' : o.At near e' e' := hat.reaches hreaches' (.inl hbeyond)
          obtain ⟨hlater, _⟩ := ih 0 s e' e' (hkept s rfl).1 hat' (fun hcut => absurd hbeyond hcut.not_beyond) b e hrest
          exact ⟨hreaches'.trans hlater, .inl (hbeyond.reaches hlater)⟩
        | done b' =>
          cases hrest
          exact ⟨hreaches', .inl hbeyond⟩
      · cases turn with
        | again s =>
          cases n with
          | zero => cases hrest
          | succ n =>
            obtain ⟨turn', e'', hturn', hrest'⟩ := bind_ok.1 hrest
            obtain ⟨rfl, b', rfl⟩ := hstuck hset s e' hstopped turn' e'' hturn'
            cases hrest'
            exact ⟨hreaches', .inr (.inl ⟨hset, hstopped⟩)⟩
        | done b' =>
          cases hrest
          exact ⟨hreaches', .inr (.inl ⟨hset, hstopped⟩)⟩
      · have hlt := hat.place.elim hm fun hbeyond => absurd (hbeyond.reaches hreaches') hcut.not_beyond
        obtain ⟨m, rfl⟩ : ∃ j, m = j + 1 := ⟨m - 1, by omega⟩
        have hat' := hat.reaches hreaches' (.inr hcut)
        cases turn with
        | again s =>
          have hcut' := hat.place.resolve_right fun hbeyond => hcut.not_beyond (hbeyond.reaches hreaches')
          have hover := (hkept s rfl).2.length
          have hless : e''.rest.length < m := by
            have := hcut.lengths
            have := hcut'.lengths
            omega
          obtain ⟨hlater, hlast⟩ := ih m s e' e'' (hkept s rfl).1 hat' (fun _ => hless) b e hrest
          refine ⟨hreaches'.trans hlater, hlast.imp id (.imp id ?_)⟩
          rintro ⟨x, hx, hxcut⟩
          exact ⟨x, bind_ok.2 ⟨_, e'', hsame, hx⟩, hxcut⟩
        | done b' =>
          cases hrest
          exact ⟨hreaches', .inr (.inr ⟨e'', bind_ok.2 ⟨_, e'', hsame, rfl⟩, hcut⟩)⟩
  exact hrounds _ _ s c c' hs h fun _ => Nat.lt_succ_self _

/-- A loop that cannot be stuck. -/
theorem recalls_loop_of_takes {S : σ → τ} {B : α → β} {round : σ → Parser (Turn σ α)} {round' : τ → Parser (Turn τ β)} (s : σ)
    (h : o.At near c c')
    (hround : ∀ s d d', c.Reaches d → o.At near d d' → o.Recalls near false (Turn.map S B) (round s) (round' (S s)) d d')
    (htakes : ∀ s d, d.last.isEnd = true → Answers (round s) d fun turn e => ∀ s', turn = .again s' → Over 1 d e) :
    o.Recalls near false B (loop round s) (loop round' (S s)) c c' :=
  recalls_loop (I := fun _ d => c.Reaches d) (.refl c) h hround (fun s d hd hlast => (htakes s d hlast).mono fun _ _ hover s' hs =>
    ⟨hd.trans (hover s' hs).reaches, hover s' hs⟩) nofun

theorem Stuck.accept (h : o.Stuck c) (hw : w ≠ "extends") : accept w c = .ok (false, c) := by
  refine accept_of_not_sees (Bool.eq_false_iff.2 fun hsees => hw ?_)
  obtain ⟨hextends, _, _⟩ := h
  simp only [Cursor.sees, Token.is, Bool.and_eq_true, beq_iff_eq] at hsees hextends
  rw [← hsees.2, hextends.2]

theorem Stuck.expect {f : Unit → Parser γ} {R : γ → Cursor → Prop} (h : o.Stuck c) (hw : w ≠ "extends") :
    Answers (expect w >>= f) c R := by
  intro a d hrun
  simp only [Parser.expect, bind_apply, h.accept hw] at hrun
  cases hrun

/-- The last round need not take anything. -/
theorem answers_done {b : β} {P : σ → Cursor → Prop} :
    Answers (pure (.done b) : Parser (Turn σ β)) c fun turn d => ∀ s, turn = .again s → P s d :=
  .pure fun _ hagain => by cases hagain

theorem recalls_separated {mark : Text} (hmark : mark ≠ "extends") (h : o.At near c c')
    (hitem : ∀ d d', c.Reaches d → o.At near d d' → o.Recalls near stuck F p q d d')
    (hpasses : ∀ d, d.last.isEnd = true → Answers p d fun _ e => d.Ended e) :
    o.Recalls near stuck (List.map F) (separated mark p) (separated mark q) c c' := by
  have hstopped (as : List α) (d : Cursor) (hd : o.Stuck d) :
      Answers (separatedRound mark p as) d fun turn e => e = d ∧ ∃ b, turn = .done b := by
    intro turn e hrun
    rw [separatedRound, bind_apply, hd.accept hmark] at hrun
    cases hrun
    exact ⟨rfl, _, rfl⟩
  refine .bind_stuck h (hitem c c' (.refl c) h) (fun hset a d _ hd => ?_) fun first d d' _ hreaches hat => ?_
  · refine (answers_loop (I := fun _ e => e = d) (R := fun _ e => e = d) rfl fun as e he => ?_).mono fun _ _ he => .inl ⟨hset, he⟩
    subst he
    refine (hstopped as e hd).mono fun turn e' hturn => ?_
    obtain ⟨he', b, rfl⟩ := hturn
    exact he'
  · refine recalls_loop (S := List.map F) (I := fun _ e => d.Reaches e) (.refl d) hat (fun items e e' he hat => ?_)
      (fun items e he hlast => ?_) fun _ => hstopped
    · refine .bind hat (recalls_accept mark hat) fun taken x x' _ hx hat => .alike .rfl (fun _ => ?_) fun _ => .stay hat ?_
      · exact .bind_stuck hat (hitem x x' (hreaches.trans (he.trans hx)) hat) (fun hset a y _ _ => .pure (.inl ⟨hset, rfl⟩))
          fun a y y' _ _ hat => .stay hat rfl
      · rw [Turn.map, List.map_reverse]
    · refine (forth_accept mark (.refl hlast)).bind fun taken x hx => .ite (fun _ => ?_) fun _ => answers_done
      exact (hpasses x hx.1.last).bind fun _ _ hy => .pure fun _ _ =>
        ⟨he.trans (hx.1.ended hy).forth.reaches, (hx.1.ended hy).over⟩

theorem recalls_listed {closer : Text} (h : o.At true c c')
    (hitem : ∀ d d', c.Reaches d → o.At true d d' → o.Recalls true false F p q d d')
    (hpasses : ∀ d, d.last.isEnd = true → Answers p d fun _ e => d.Ended e) :
    o.Recalls true false (List.map F) (listed closer p) (listed closer q) c c' := by
  refine recalls_loop_of_takes (S := List.map F) [] h (fun items d d' hd hat => ?_) fun items d hlast => ?_
  · rcases hat.place with hcut | hbeyond
    · simp only [listedRound, recalls_sees_bind, Cursor.sees, hcut.present (told_is closer)]
      refine .alike .rfl (fun _ => .stay hat ?_) fun _ => .bind hat (hitem d d' hd hat) fun a e e' _ _ hat =>
        .bind hat (recalls_accept "," hat) fun _ _ _ _ _ hat => .alike .rfl (fun _ => .stay hat rfl) fun _ => .stay hat ?_
      · rw [Turn.map, List.map_reverse]
      · rw [Turn.map, List.map_reverse, List.map_cons]
    · refine .beyond hbeyond ?_
      simp only [listedRound, answers_sees_bind]
      refine .ite (fun _ => .pure hat.forth) fun _ => (hpasses d hat.last).bind fun _ e he => ?_
      exact (forth_accept "," he.forth).bind fun _ _ ht => .ite (fun _ => .pure ht.1) fun _ => .pure ht.1
  · simp only [listedRound, answers_sees_bind]
    refine .ite (fun _ => answers_done) fun _ => (hpasses d hlast).bind fun _ e he => ?_
    refine (forth_accept "," he.forth.here).bind fun _ x hx => .ite (fun _ => .pure fun _ _ => ?_) fun _ => answers_done
    exact he.over.trans hx.1.over

/-- Brackets are passed over alike. -/
theorem recalls_skipBalanced (h : o.At near c c') : o.Recalls near false id skipBalanced skipBalanced c c' := by
  refine recalls_loop_of_takes (S := id) [] h (fun closers d d' _ hat => ?_) fun closers d hlast => ?_
  · by_cases hend : d.peek.isEnd = true
    · refine .refuse ((forth_next hat.forth).bind fun t e ⟨ht, _, _⟩ => ?_)
      rw [ht, if_pos hend]
      exact answers_rejectAt
    · refine recalls_step hat (Bool.eq_false_iff.2 hend) (fun t e hlast => ?_) fun u v e e' _ _ _ hcopy hat => ?_
      · refine .ite (fun _ => answers_rejectAt) fun _ => .ite (fun _ => ?_) fun _ => .pure (.refl hlast)
        split
        · exact .pure (.refl hlast)
        · exact .ite (fun _ => .pure (.refl hlast)) fun _ => .pure (.refl hlast)
        · exact .pure (.refl hlast)
      · rw [hcopy.isEnd, told_isMark.same hcopy, hcopy.raw]
        refine .alike .rfl (fun _ => recalls_rejectAt) fun _ => .alike .rfl (fun _ => ?_) fun _ => .stay hat rfl
        simp only [id]
        split
        · exact .stay hat rfl
        · refine .alike .rfl (fun _ => .stay hat ?_) fun _ => .stay hat rfl
          split <;> rfl
        · exact .stay hat rfl
  · exact (over_balancedRound hlast).mono fun _ _ hover _ _ => hover

/-- Brackets that may come are passed over. -/
theorem recalls_when_skipBalanced {b b' : Bool} (h : o.At near c c') (himp : o.Cut near c c' → b' = true → b = true)
    (hsame : o.Cut near c c' → o.behind.rest.length < c.rest.length → b = true → b' = true) :
    o.Recalls near false id (Parser.when b skipBalanced) (Parser.when b' skipBalanced) c c' :=
  .branch 1 h himp (fun hcut hle => hsame hcut (by omega)) (fun _ => (ended_skipBalanced (.refl h.last)).mono fun _ _ => Ended.over)
    (fun _ _ _ => recalls_skipBalanced h) fun _ => .stay h rfl

end

end Excerpt

end Source

end WireSchema
