import WireSchema.Proofs.Grammar.Moves
import WireSchema.Proofs.Lexing.Faults
/-!
# The ground that parsers go on

How a parser moves depends on little: what is known of the tokens before it, and
which faults it may find there. Both make up a `Ground`, and `g.Ends p c Q` says
that the parser `p`, put at `c`, answers as `Q` says or finds a fault of the
ground. A loop ends if each round that goes on passes a token, whatever the ground
is like.
-/

namespace WireSchema.Source

namespace Cursor

/-- The cursor goes on to `later`. -/
def Reaches (c later : Cursor) : Prop := ∃ ts, c = later.before ts

/-- The cursor goes on to `later` behind a token at least. -/
def Passes (c later : Cursor) : Prop := ∃ t ts, c = later.before (t :: ts)

variable {c d e : Cursor} {t : Token} {w : Text}

theorem Reaches.refl (c : Cursor) : c.Reaches c := ⟨[], rfl⟩

theorem Passes.reaches (h : c.Passes d) : c.Reaches d := by
  obtain ⟨t, ts, rfl⟩ := h
  exact ⟨t :: ts, rfl⟩

theorem Reaches.trans (h : c.Reaches d) (h' : d.Reaches e) : c.Reaches e := by
  obtain ⟨ts, rfl⟩ := h
  obtain ⟨us, rfl⟩ := h'
  exact ⟨ts ++ us, (before_append e ts us).symm⟩

theorem Reaches.last (h : c.Reaches d) : d.last = c.last := by
  obtain ⟨ts, rfl⟩ := h
  rfl

theorem Reaches.passes (h : c.Reaches d) (h' : d.Passes e) : c.Passes e := by
  obtain ⟨ts, rfl⟩ := h
  obtain ⟨u, us, rfl⟩ := h'
  rw [← before_append]
  cases ts with
  | nil => exact ⟨u, us, rfl⟩
  | cons t ts => exact ⟨t, ts ++ u :: us, rfl⟩

theorem Passes.trans (h : c.Passes d) (h' : d.Reaches e) : c.Passes e := by
  obtain ⟨t, ts, rfl⟩ := h
  obtain ⟨us, rfl⟩ := h'
  exact ⟨t, ts ++ us, (before_append e (t :: ts) us).symm⟩

theorem Passes.length_lt (h : c.Passes d) : d.rest.length < c.rest.length := by
  obtain ⟨t, ts, rfl⟩ := h
  simp only [rest_before, List.length_append, List.length_cons]
  omega

end Cursor

namespace Parser

/-- A round that goes on passes a token and keeps `I`; the last one ends with `R`. -/
def Turns (I : σ → Cursor → Prop) (R : β → Cursor → Prop) (c : Cursor) : Turn σ β → Cursor → Prop
  | .again s, d => c.Passes d ∧ I s d
  | .done b, d => R b d

end Parser

/-- What is known of the tokens before a parser, and the faults it may find. -/
structure Ground where
  /-- The cursor stands here, and less than so much is left. -/
  Fits : Nat → Cursor → Prop
  /-- The fault may be found. -/
  Blames : Fault → Prop
  /-- A hole between two offsets comes with less than so much left. -/
  Hole : Nat → Nat → Nat → Prop
  mono : ∀ {limit limit' : Nat} {c : Cursor}, Fits limit c → limit ≤ limit' → Fits limit' c
  reaches : ∀ {limit : Nat} {c d : Cursor}, Fits limit c → c.Reaches d → Fits limit d
  /-- Behind a token less is left. -/
  passes : ∀ {limit : Nat} {c d : Cursor}, Fits (limit + 1) c → c.Passes d → Fits limit d
  last : ∀ {limit : Nat} {c : Cursor}, Fits limit c → c.last.isEnd = true
  rejects : ∀ {limit : Nat} {c : Cursor}, Fits limit c → ∀ cause n, Blames (.rejected cause (c.peek n).start)
  hole : ∀ {limit : Nat} {c : Cursor}, Fits (limit + 1) c → ∀ {parts : List TemplatePart},
    c.peek.lexeme = .template parts → ∀ {a b : Nat}, .hole a b ∈ parts → Hole limit a b

namespace Ground

open Cursor Source.Parser

variable {g : Ground} {limit limit' : Nat} {start c d : Cursor}

/-- On the way from `start` to `c`, with less than `limit` left from `start`. -/
structure On (g : Ground) (limit : Nat) (start c : Cursor) : Prop where
  fits : g.Fits limit start
  reaches : start.Reaches c

/-- On the way from `start` to `c` and behind a token at least. -/
structure Past (g : Ground) (limit : Nat) (start c : Cursor) : Prop where
  fits : g.Fits limit start
  passes : start.Passes c

theorem On.now (h : g.On limit start c) : g.Fits limit c := g.reaches h.fits h.reaches

/-- A word that comes later is left, and so is what comes before it. -/
theorem On.rest_ne_nil (h : g.On limit start c) {n : Nat} (hword : (c.peek n).isWord = true) : c.rest ≠ [] := by
  rintro hnil
  have hlast := g.last h.now
  rw [Cursor.peek, hnil, List.getD_nil] at hword
  rw [Token.not_isEnd_of_isWord hword] at hlast
  cases hlast

/-- There may be more to read. -/
theorem On.grow (h : g.On limit start c) : g.On (limit + 1) start c := ⟨g.mono h.fits (Nat.le_succ limit), h.reaches⟩

theorem Past.on (h : g.Past limit start c) : g.On limit start c := ⟨h.fits, h.passes.reaches⟩

/-- The way begins here. -/
theorem On.here (h : g.On limit start c) : g.On limit c c := ⟨h.now, .refl c⟩

/-- Behind a token the way begins anew, and there is less to read. -/
theorem Past.inside (h : g.Past (limit + 1) start c) : g.On limit c c := ⟨g.passes h.fits h.passes, .refl c⟩

theorem On.trans (h : g.On limit start c) (h' : g.On limit' c d) : g.On limit start d :=
  ⟨h.fits, h.reaches.trans h'.reaches⟩

theorem Past.trans (h : g.Past limit start c) (h' : g.On limit' c d) : g.Past limit start d :=
  ⟨h.fits, h.passes.trans h'.reaches⟩

theorem On.past (h : g.On limit start c) (h' : g.Past limit' c d) : g.Past limit start d :=
  ⟨h.fits, h.reaches.passes h'.passes⟩

/-- The parser answers as `Q` says, or finds a fault of the ground. -/
def Ends (g : Ground) (p : Parser α) (c : Cursor) (Q : α → Cursor → Prop) : Prop :=
  match p c with
  | .ok (a, d) => Q a d
  | .error fault => g.Blames fault

section
variable {α β σ : Type} {p : Parser α} {f : α → Parser β} {Q : α → Cursor → Prop} {R : β → Cursor → Prop} {w : Text}

theorem Ends.bind (h : g.Ends p c Q) (hf : ∀ a d, Q a d → g.Ends (f a) d R) : g.Ends (p >>= f) c R := by
  unfold Ends at h ⊢
  rw [bind_apply]
  cases hp : p c with
  | error fault =>
    rw [hp] at h
    exact h
  | ok x =>
    rw [hp] at h
    exact hf x.1 x.2 h

theorem Ends.mono {Q' : α → Cursor → Prop} (h : g.Ends p c Q) (hq : ∀ a d, Q a d → Q' a d) : g.Ends p c Q' := by
  unfold Ends at h ⊢
  cases hp : p c with
  | error fault =>
    rw [hp] at h
    exact h
  | ok x =>
    rw [hp] at h
    exact hq x.1 x.2 h

theorem Ends.pure {a : α} (h : Q a c) : g.Ends (Pure.pure a) c Q := h

theorem Ends.ite {b : Prop} [Decidable b] {q : Parser α} (hp : b → g.Ends p c Q) (hq : ¬ b → g.Ends q c Q) :
    g.Ends (if b then p else q) c Q := by
  split
  next h => exact hp h
  next h => exact hq h

/-- What is answered is as `Q` says. -/
theorem Ends.ok {a : α} (h : g.Ends p c Q) (hp : p c = .ok (a, d)) : Q a d := by
  rw [Ends, hp] at h
  exact h

theorem Ends.error {fault : Fault} (h : g.Ends p c Q) (hp : p c = .error fault) : g.Blames fault := by
  rw [Ends, hp] at h
  exact h

@[simp] theorem ends_get_bind {f : Cursor → Parser β} : g.Ends (get >>= f) c R ↔ g.Ends (f c) c R := .rfl

@[simp] theorem ends_peek_bind {f : Token → Parser β} {n : Nat} :
    g.Ends (peek n >>= f) c R ↔ g.Ends (f (c.peek n)) c R := .rfl

@[simp] theorem ends_sees_bind {f : Bool → Parser β} {n : Nat} :
    g.Ends (sees w n >>= f) c R ↔ g.Ends (f (c.sees w n)) c R := .rfl

@[simp] theorem ends_textSince_bind {f : Text → Parser β} :
    g.Ends (textSince start >>= f) c R ↔ g.Ends (f (spell (start.upTo c))) c R := .rfl

theorem ends_rejectAt (h : g.On limit start c) {cause : Rejection} {n : Nat} : g.Ends (rejectAt (c.peek n) cause) d Q :=
  g.rejects h.now cause n

theorem ends_reject {cause : Rejection} (h : g.On limit start c) : g.Ends (reject cause) c Q := g.rejects h.now cause 0

theorem ends_lift {x : Except Fault α} (hx : ∀ fault, x = .error fault → g.Blames fault) (hq : ∀ a, Q a c) :
    g.Ends (liftM x) c Q := by
  cases x with
  | error fault => exact hx fault rfl
  | ok a => exact hq a

/-- The end of the input stays where it is; any other token is passed. -/
theorem ends_next (h : g.On limit start c) :
    g.Ends next c fun t d => t = c.peek ∧ g.On limit start d ∧ (t.isEnd = false → g.Past limit start d) := by
  obtain ⟨rest, last⟩ := c
  cases rest with
  | nil =>
    have hlast : last.isEnd = true := g.last h.now
    exact ⟨rfl, h, fun hend => absurd hend (by simp [hlast])⟩
  | cons t rest =>
    have hpast : g.Past limit start { rest, last } := ⟨h.fits, h.reaches.passes ⟨t, [], rfl⟩⟩
    exact ⟨rfl, hpast.on, fun _ => hpast⟩

/-- A token that is left is passed. -/
theorem ends_take_of_ne (h : g.On limit start c) (hne : c.rest ≠ []) : g.Ends next c fun _ => g.Past limit start := by
  obtain ⟨rest, last⟩ := c
  cases rest with
  | nil => exact absurd rfl hne
  | cons t rest => exact ⟨h.fits, h.reaches.passes ⟨t, [], rfl⟩⟩

theorem ends_take (h : g.On limit start c) (hend : c.peek.isEnd = false) : g.Ends next c fun _ => g.Past limit start := by
  refine (ends_next h).mono fun t d hd => ?_
  obtain ⟨rfl, _, hpast⟩ := hd
  exact hpast hend

theorem ends_skip (h : g.On limit start c) : g.Ends skip c fun _ => g.On limit start :=
  .bind (ends_next h) fun _ _ hd => .pure hd.2.1

theorem ends_skip_past (h : g.On limit start c) (hend : c.peek.isEnd = false) :
    g.Ends skip c fun _ => g.Past limit start :=
  .bind (ends_take h hend) fun _ _ hd => .pure hd

theorem ends_when {b : Bool} {p : Parser Unit} (h : g.On limit start c)
    (hp : b = true → g.Ends p c fun _ => g.On limit start) : g.Ends (when b p) c fun _ => g.On limit start :=
  .ite hp fun _ => .pure h

/-- What comes of taking a token if it is the one that is wanted. -/
def Taken (g : Ground) (limit : Nat) (start c : Cursor) (taken : Bool) (d : Cursor) : Prop :=
  if taken then g.Past limit start d else d = c ∧ g.On limit start d

theorem Taken.on {taken : Bool} (h : g.Taken limit start c taken d) : g.On limit start d := by
  cases taken with
  | false => exact h.2
  | true => exact Past.on h

theorem Taken.past {taken : Bool} (h : g.Taken limit start c taken d) (ht : taken = true) : g.Past limit start d := by
  subst ht
  exact h

theorem Taken.eq {taken : Bool} (h : g.Taken limit start c taken d) (ht : ¬ taken = true) : d = c := by
  rw [Bool.not_eq_true] at ht
  subst ht
  exact h.1

theorem ends_accept (w : Text) (h : g.On limit start c) : g.Ends (accept w) c (g.Taken limit start c) := by
  simp only [accept, ends_sees_bind]
  refine .ite (fun hsees => ?_) fun _ => .pure ⟨rfl, h⟩
  exact .bind (ends_take h (Token.not_isEnd_of_is hsees)) fun _ _ hd => .pure hd

theorem ends_acceptEither (v w : Text) (h : g.On limit start c) :
    g.Ends (acceptEither v w) c (g.Taken limit start c) := by
  refine .bind (ends_accept v h) fun taken d hd => .ite (fun ht => ?_) fun ht => ?_
  · exact .pure (hd.past ht)
  · rw [hd.eq ht]
    exact ends_accept w h

theorem ends_expect (w : Text) (h : g.On limit start c) : g.Ends (expect w) c fun _ => g.Past limit start := by
  refine .bind (ends_accept w h) fun taken d hd => .ite (fun ht => .pure (hd.past ht)) fun _ => ?_
  simp only [ends_peek_bind]
  exact ends_reject hd.on

theorem ends_expectName (h : g.On limit start c) : g.Ends expectName c fun _ => g.Past limit start := by
  simp only [expectName, ends_peek_bind]
  refine .ite (fun hword => ?_) fun _ => ends_reject h
  exact .bind (ends_take h (Token.not_isEnd_of_isWord hword)) fun _ _ hd => .pure hd

/-! ## Loops -/

theorem ends_rounds {round : σ → Parser (Turn σ β)} {I : σ → Cursor → Prop}
    (h : ∀ s c, I s c → g.Ends (round s) c (Turns I R c)) {n : Nat} {s : σ} (hn : c.rest.length < n)
    (hs : I s c) : g.Ends (rounds round n s) c R := by
  induction n generalizing s c with
  | zero => exact absurd hn (Nat.not_lt_zero _)
  | succ n ih =>
    refine .bind (h s c hs) fun turn d hturn => ?_
    cases turn with
    | again s =>
      have hlt := hturn.1.length_lt
      exact ih (by omega) hturn.2
    | done b => exact .pure hturn

/-- A loop is told to go round often enough. -/
theorem ends_loop {round : σ → Parser (Turn σ β)} {I : σ → Cursor → Prop} {s : σ} (hs : I s c)
    (h : ∀ s c, I s c → g.Ends (round s) c (Turns I R c)) : g.Ends (loop round s) c R := by
  simp only [loop, ends_get_bind]
  exact ends_rounds h (Nat.lt_succ_self _) hs

theorem ends_separated {mark : Text} (h : g.On limit start c)
    (hp : ∀ c, g.On limit c c → g.Ends p c fun _ => g.Past limit c) :
    g.Ends (separated mark p) c fun _ => g.Past limit start := by
  refine .bind (hp c h.here) fun a d hd =>
    ends_loop (I := fun _ => g.Past limit start) (h.past hd) fun _ c hc => ?_
  refine .bind (ends_accept mark hc.on.here) fun taken d hd => .ite (fun ht => ?_) fun ht => ?_
  · refine .bind (hp d hd.on.here) fun a e he => .pure ⟨((hd.past ht).trans he.on).passes, ?_⟩
    exact hc.trans (hd.on.trans he.on)
  · rw [hd.eq ht]
    exact .pure hc

theorem ends_listedRound {closer : Text} {items : List α} (h : g.On limit start c)
    (hp : ∀ c, g.On limit c c → g.Ends p c fun _ => g.Past limit c) :
    g.Ends (listedRound closer p items) c (Turns (fun _ => g.On limit start) (fun _ => g.On limit start) c) := by
  simp only [listedRound, ends_sees_bind]
  refine .ite (fun _ => .pure h) fun _ => .bind (hp c h.here) fun a d hd => ?_
  refine .bind (ends_accept "," hd.on) fun taken e he => .ite (fun ht => ?_) fun _ => ?_
  · exact .pure ⟨(he.past ht).passes, h.trans he.on⟩
  · exact .pure (h.trans he.on)

theorem ends_listed {closer : Text} (h : g.On limit start c)
    (hp : ∀ c, g.On limit c c → g.Ends p c fun _ => g.Past limit c) :
    g.Ends (listed closer p) c fun _ => g.On limit start :=
  ends_loop (I := fun _ => g.On limit start) h fun _ _ hc => ends_listedRound hc hp

/-- What passes over brackets passes a token. -/
theorem ends_skipBalanced (h : g.On limit start c) : g.Ends skipBalanced c fun _ => g.Past limit start := by
  refine ends_loop (I := fun _ => g.On limit start) h fun closers c hc => ?_
  refine .bind (ends_next hc.here) fun t d hd => ?_
  obtain ⟨rfl, hon, hpast⟩ := hd
  refine .ite (fun _ => ends_rejectAt hc) fun hend => ?_
  have hnext := hpast (Bool.eq_false_iff.2 hend)
  have hagain : ∀ closers : List Text,
      Turns (β := Unit) (fun _ => g.On limit start) (fun _ => g.Past limit start) c (.again closers) d :=
    fun _ => ⟨hnext.passes, hc.trans hon⟩
  refine .ite (fun _ => ?_) fun _ => .pure (hagain _)
  split
  · exact .pure (hagain _)
  · refine .ite (fun _ => .pure ?_) fun _ => .pure (hagain _)
    split
    · exact hc.past hnext
    · exact hagain _
  · exact .pure (hagain _)

end

end Ground

end WireSchema.Source

/-!
## The ground of a source

`Ends source p c Q` says that the parser `p`, put at `c`, answers as `Q` says or
finds a fault that the source gives rise to. The tokens that stand in a source are
a ground for parsers: types may be nested as deep as there are code points to read,
since whatever nests a type passes a token first.
-/

namespace WireSchema.Source

namespace Cursor

/-- How many code points the tokens have that are left. -/
def room (c : Cursor) : Nat := (c.rest.map (·.raw.length)).sum

/-- The cursor stands in the source before fewer than `limit` code points of tokens. -/
structure Fits (source : Text) (limit : Nat) (c : Cursor) : Prop where
  rest : ∀ t ∈ c.rest, t.Placed source
  last : c.last.isEnd = true
  start : c.last.start ≤ source.length
  room : c.room < limit

variable {c d : Cursor} {source : Text} {limit : Nat}

theorem room_before (c : Cursor) (ts : List Token) :
    (c.before ts).room = (ts.map (·.raw.length)).sum + c.room := by
  simp [room]

theorem Fits.mono {limit' : Nat} (h : c.Fits source limit) (hle : limit ≤ limit') : c.Fits source limit' :=
  { h with room := Nat.lt_of_lt_of_le h.room hle }

theorem Fits.reaches (h : c.Fits source limit) (hd : c.Reaches d) : d.Fits source limit := by
  obtain ⟨ts, rfl⟩ := hd
  have hroom := h.room
  rw [room_before] at hroom
  exact ⟨fun t ht => h.rest t (List.mem_append_right ts ht), h.last, h.start, by omega⟩

/-- Behind a token there is less to read. -/
theorem Fits.passes (h : c.Fits source (limit + 1)) (hd : c.Passes d) : d.Fits source limit := by
  obtain ⟨t, ts, rfl⟩ := hd
  have hroom := h.room
  have hraw := List.length_pos_iff.2 (h.rest t List.mem_cons_self).raw
  rw [room_before, List.map_cons, List.sum_cons] at hroom
  refine ⟨fun u hu => h.rest u (List.mem_append_right (t :: ts) hu), h.last, h.start, by omega⟩

theorem Fits.peek (h : c.Fits source limit) (n : Nat) : (c.peek n).start ≤ source.length := by
  rw [Cursor.peek, List.getD_eq_getElem?_getD]
  cases hn : c.rest[n]? with
  | none => exact h.start
  | some t => exact (h.rest t (List.mem_of_getElem? hn)).start

/-- A token that is not the end of the input is one of those that are left. -/
theorem Fits.first (h : c.Fits source limit) (hend : c.peek.isEnd = false) :
    c.peek.Placed source ∧ c.peek.raw.length < limit := by
  obtain ⟨rest, last⟩ := c
  cases rest with
  | nil =>
    have hlast : last.isEnd = true := h.last
    exact absurd hend (by simp [Cursor.peek, hlast])
  | cons t rest =>
    have hroom := h.room
    rw [Cursor.room, List.map_cons, List.sum_cons] at hroom
    exact ⟨h.rest t List.mem_cons_self, Nat.lt_of_le_of_lt (Nat.le_add_right _ _) hroom⟩

end Cursor

/-- The tokens that stand in a source. The holes of a template are shorter than the
template, which is one of the tokens there are to read. -/
def Ground.placed (source : Text) : Ground where
  Fits limit c := c.Fits source limit
  Blames := Source.Blames source
  Hole limit a b := EndsWindow source b ∧ a ≤ b ∧ b - a < limit
  mono h hle := h.mono hle
  reaches h hd := h.reaches hd
  passes h hd := h.passes hd
  last h := h.last
  rejects h _ n := .rejected (h.peek n)
  hole h parts hl a b hhole := by
    obtain ⟨hplaced, hroom⟩ := h.first (beq_eq_false_iff_ne.2 (by simp [hl]))
    obtain ⟨hends, hab, hlt⟩ := hplaced.hole parts hl a b hhole
    exact ⟨hends, hab, by omega⟩

namespace Cursor

variable {c d start : Cursor} {source : Text} {limit limit' : Nat}

/-- On the way from `start` to `c`, with fewer than `limit` code points to read from `start`. -/
structure On (source : Text) (limit : Nat) (start c : Cursor) : Prop where
  fits : start.Fits source limit
  reaches : start.Reaches c

/-- On the way from `start` to `c` and behind a token at least. -/
structure Past (source : Text) (limit : Nat) (start c : Cursor) : Prop where
  fits : start.Fits source limit
  passes : start.Passes c

theorem on_iff : On source limit start c ↔ (Ground.placed source).On limit start c :=
  ⟨fun h => ⟨h.fits, h.reaches⟩, fun h => ⟨h.fits, h.reaches⟩⟩

theorem past_iff : Past source limit start c ↔ (Ground.placed source).Past limit start c :=
  ⟨fun h => ⟨h.fits, h.passes⟩, fun h => ⟨h.fits, h.passes⟩⟩

theorem On.now (h : On source limit start c) : c.Fits source limit := (on_iff.1 h).now

theorem Past.on (h : Past source limit start c) : On source limit start c := on_iff.2 (past_iff.1 h).on

/-- The way begins here. -/
theorem On.here (h : On source limit start c) : On source limit c c := on_iff.2 (on_iff.1 h).here

theorem On.trans (h : On source limit start c) (h' : On source limit' c d) : On source limit start d :=
  on_iff.2 ((on_iff.1 h).trans (on_iff.1 h'))

theorem Past.trans (h : Past source limit start c) (h' : On source limit' c d) : Past source limit start d :=
  past_iff.2 ((past_iff.1 h).trans (on_iff.1 h'))

end Cursor

namespace Parser

open Cursor

/-- The parser answers as `Q` says, or finds a fault that the source gives rise to. -/
def Ends (source : Text) (p : Parser α) (c : Cursor) (Q : α → Cursor → Prop) : Prop :=
  match p c with
  | .ok (a, d) => Q a d
  | .error fault => Blames source fault

section
variable {α : Type} {source : Text} {limit : Nat} {start c : Cursor} {p : Parser α} {Q : α → Cursor → Prop}

theorem ends_iff : Ends source p c Q ↔ (Ground.placed source).Ends p c Q := .rfl

theorem Ends.on (h : (Ground.placed source).Ends p c fun _ => (Ground.placed source).On limit start) :
    Ends source p c fun _ => On source limit start := ends_iff.2 (h.mono fun _ _ => on_iff.2)

theorem Ends.past (h : (Ground.placed source).Ends p c fun _ => (Ground.placed source).Past limit start) :
    Ends source p c fun _ => Past source limit start := ends_iff.2 (h.mono fun _ _ => past_iff.2)

/-- The end of the input stays where it is; any other token is passed. -/
theorem ends_next (h : On source limit start c) :
    Ends source next c fun t d => t = c.peek ∧ On source limit start d ∧
      (t.isEnd = false → Past source limit start d) :=
  ends_iff.2 ((Ground.ends_next (on_iff.1 h)).mono fun _ _ hd =>
    ⟨hd.1, on_iff.2 hd.2.1, fun hend => past_iff.2 (hd.2.2 hend)⟩)

theorem ends_take (h : On source limit start c) (hend : c.peek.isEnd = false) :
    Ends source next c fun _ => Past source limit start := .past (Ground.ends_take (on_iff.1 h) hend)

theorem ends_skip (h : On source limit start c) : Ends source skip c fun _ => On source limit start :=
  .on (Ground.ends_skip (on_iff.1 h))

/-- What comes of taking a token if it is the one that is wanted. -/
def Taken (source : Text) (limit : Nat) (start c : Cursor) (taken : Bool) (d : Cursor) : Prop :=
  if taken then Past source limit start d else d = c ∧ On source limit start d

theorem taken_iff {taken : Bool} {d : Cursor} :
    Taken source limit start c taken d ↔ (Ground.placed source).Taken limit start c taken d := by
  cases taken with
  | false => exact and_congr_right fun _ => on_iff
  | true => exact past_iff

theorem Taken.on {taken : Bool} {d : Cursor} (h : Taken source limit start c taken d) : On source limit start d :=
  on_iff.2 (taken_iff.1 h).on

theorem ends_accept (w : Text) (h : On source limit start c) :
    Ends source (accept w) c (Taken source limit start c) :=
  ends_iff.2 ((Ground.ends_accept w (on_iff.1 h)).mono fun _ _ => taken_iff.2)

theorem ends_acceptEither (v w : Text) (h : On source limit start c) :
    Ends source (acceptEither v w) c (Taken source limit start c) :=
  ends_iff.2 ((Ground.ends_acceptEither v w (on_iff.1 h)).mono fun _ _ => taken_iff.2)

theorem ends_expect (w : Text) (h : On source limit start c) :
    Ends source (expect w) c fun _ => Past source limit start := .past (Ground.ends_expect w (on_iff.1 h))

theorem ends_expectName (h : On source limit start c) :
    Ends source expectName c fun _ => Past source limit start := .past (Ground.ends_expectName (on_iff.1 h))

theorem ends_separated {mark : Text} (h : On source limit start c)
    (hp : ∀ c, On source limit c c → Ends source p c fun _ => Past source limit c) :
    Ends source (separated mark p) c fun _ => Past source limit start :=
  .past (Ground.ends_separated (on_iff.1 h) fun c hc =>
    (ends_iff.1 (hp c (on_iff.2 hc))).mono fun _ _ => past_iff.1)

end

end Parser

end WireSchema.Source
