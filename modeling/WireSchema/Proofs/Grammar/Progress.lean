import Mathlib.Algebra.Order.BigOperators.Group.List
import Mathlib.Algebra.Order.Group.Nat
import WireSchema.Proofs.Grammar.Walk
import WireSchema.Proofs.Lexing.Faults
/-!
# Parsers make progress

Every rule of the grammar goes on by a token at least, for any tokens that close
with the end of the input, and never past the end. What is left to read bounds how
deep types can nest in brackets, and the width of a hole how deep they can nest in
it, so no reader of a source is stopped for nesting too deep.
-/

/-!
## Windows inside one another

A window of a source may be read wherever it begins and ends. Each of its tokens
takes a code point at least, the holes of a template lie inside of the template and
inside of the window, and the lexer never says that anything nests too deep.
-/

namespace WireSchema.Source

open Text

/-- How many code points the inside of a part has. -/
def TemplatePart.width : TemplatePart → Nat
  | .chunk _ => 0
  | .hole a b => b - a

@[simp] theorem TemplatePart.width_chunk (text : Text) : (TemplatePart.chunk text).width = 0 := rfl

@[simp] theorem TemplatePart.width_hole (a b : Nat) : (TemplatePart.hole a b).width = b - a := rfl

/-- A token counts once, and each code point in its holes. -/
def Token.size (t : Token) : Nat :=
  match t.lexeme with
  | .template parts => 1 + (parts.map (·.width)).sum
  | _ => 1

/-- The holes of the token lie between two offsets. -/
def Token.Encloses (t : Token) (start stop : Nat) : Prop :=
  ∀ parts, t.lexeme = .template parts → ∀ a b, .hole a b ∈ parts → start < a ∧ a ≤ b ∧ b < stop

/-- Nothing nests too deep. -/
def Level (x : Except Fault α) : Prop := x ≠ .error .depth

section
variable {α β : Type} {source rest t chunk : Text} {stop at_ opened skip room depth last more a b : Nat} {c mark : CodePoint}
  {quoted : Option (CodePoint × Nat)} {parts : List TemplatePart} {gap : Gap} {lexeme : Lexeme} {tokens : List Token}
  {u : Token}

/-! ## Faults -/

theorem Level.bind {x : Except Fault α} {f : α → Except Fault β} (hx : Level x) (hf : ∀ a, Level (f a)) :
    Level (x >>= f) := by
  cases x with
  | error fault => exact fun h => hx (congrArg Except.error (Except.error.inj h))
  | ok a => exact hf a

@[simp] theorem Level.ok (a : α) : Level (.ok a) := by
  simp [Level]

@[simp] theorem level_error {fault : Fault} : Level (.error fault : Except Fault α) ↔ fault ≠ .depth := by
  simp only [Level, ne_eq, Except.error.injEq]

theorem Level.rejected {cause : Rejection} {offset : Nat} : Level (.error (.rejected cause offset) : Except Fault α) :=
  level_error.2 Fault.noConfusion

theorem Level.escape (x : Except EscapeError α) : Level (x.mapError .escape) := by
  cases x <;> simp [Except.mapError]

theorem closingQuote_level (mark : CodePoint) (room : Nat) (t : Text) : Level (closingQuote mark room t) := by
  fun_induction closingQuote mark room t with
  | case1 | case2 | case3 | case4 | case6 | case7 => simp
  | case5 _ _ _ ih => exact ih.bind fun _ => .ok _
  | case8 _ _ _ _ _ _ ih => exact ih.bind fun _ => .ok _

theorem holeEnd_level (stop : Nat) (quoted : Option (CodePoint × Nat)) (depth at_ : Nat) (t : Text) :
    Level (holeEnd stop quoted depth at_ t) := by
  induction t generalizing quoted depth at_ with
  | nil =>
    rw [holeEnd.eq_def]
    simp only
    split
    · exact .rejected
    · split <;> simp
  | cons c rest ih =>
    rw [holeEnd.eq_def]
    simp only
    split
    · split <;> exact ih _ _ _
    · split
      · exact .rejected
      split
      · exact ih _ _ _
      split
      · exact ih _ _ _
      split
      · split
        · exact .ok _
        · exact ih _ _ _
      · exact ih _ _ _

theorem templateParts_level (opened stop skip at_ : Nat) (chunk t : Text) :
    Level (templateParts opened stop skip at_ chunk t) := by
  induction t generalizing skip at_ chunk with
  | nil =>
    rw [templateParts]
    split <;> simp
  | cons c rest ih =>
    cases skip with
    | succ skip => exact ih _ _ _
    | zero =>
      simp only [templateParts]
      split
      · exact .rejected
      split
      · exact ih _ _ _
      split
      · exact (Level.escape _).bind fun _ => .ok _
      split
      · exact (Level.escape _).bind fun _ => (holeEnd_level _ _ _ _ _).bind fun _ => (ih _ _ _).bind fun _ => .ok _
      · exact ih _ _ _

theorem readPiece_level (stop at_ : Nat) (gap : Gap) (c : CodePoint) (rest : Text) : Level (readPiece stop at_ gap c rest) := by
  simp only [readPiece]
  split
  · exact .ok _
  split
  · rw [blockComment]
    split
    · exact .rejected
    · split <;> simp
  split
  · exact .ok _
  split
  · refine (closingQuote_level _ _ _).bind fun found => ?_
    cases found with
    | none => exact .rejected
    | some n => exact (Level.escape _).bind fun _ => .ok _
  split
  · exact (templateParts_level _ _ _ _ _ _).bind fun _ => .ok _
  split
  · split <;> simp
  · repeat' split
    all_goals simp

theorem tokensFrom_level (stop at_ : Nat) (gap : Gap) (t : Text) : Level (tokensFrom stop at_ gap t) := by
  fun_induction tokensFrom stop at_ gap t with
  | case1 | case2 | case6 => simp
  | case3 at_ gap _ c rest fault hpiece =>
    exact fun h => readPiece_level stop at_ gap c rest (hpiece.trans (congrArg _ (Except.error.inj h)))
  | case4 _ _ _ _ _ _ _ _ ih => exact ih
  | case5 _ _ _ _ _ _ _ _ fault htokens ih => exact fun h => ih (htokens.trans h)

theorem tokenize_level (source : Text) (start stop : Nat) : Level (tokenize source start stop) :=
  tokensFrom_level _ _ _ _

/-! ## Holes -/

/-- The holes of a template are together no wider than what is left of it. -/
theorem templateParts_width (h : templateParts opened stop skip at_ chunk t = .ok (parts, last)) :
    at_ + skip + (parts.map (·.width)).sum ≤ last := by
  rw [templateParts_eq_ok] at h
  induction h with
  | skip _ ih | escape _ _ ih | plain _ _ _ _ _ ih => omega
  | close => exact Nat.le_refl _
  | hole _ _ hclose _ ih =>
    have hle := (holeEnd_ok hclose).1
    simp only [List.map_cons, List.sum_cons, TemplatePart.width_chunk, TemplatePart.width_hole]
    omega

theorem Token.size_pos (t : Token) : 0 < t.size := by
  unfold Token.size
  split
  · omega
  · exact Nat.one_pos

/-- Each hole is narrower than its token. -/
theorem Token.width_lt_size (hl : u.lexeme = .template parts) (hhole : .hole a b ∈ parts) : b - a < u.size := by
  have hle : b - a ≤ (parts.map (·.width)).sum :=
    List.le_sum_of_mem (List.mem_map.2 ⟨.hole a b, hhole, rfl⟩)
  rw [Token.size, hl]
  simp only
  omega

/-- A token is no larger than what it takes of the window, and its holes are inside. -/
theorem Begins.inside (ht : c :: rest = source.drop at_) (hat : at_ < stop)
    (h : Begins stop at_ gap c rest (.token lexeme more)) (hlexeme : u.lexeme = lexeme) :
    u.size ≤ more + 1 ∧ at_ + u.size ≤ stop ∧ u.Encloses at_ stop := by
  have hplain (hnot : ∀ parts, lexeme ≠ .template parts) : u.size = 1 ∧ u.Encloses at_ stop := by
    subst hlexeme
    refine ⟨?_, fun parts hparts => absurd hparts (hnot parts)⟩
    unfold Token.size
    split
    next parts hparts => exact absurd hparts (hnot parts)
    next => rfl
  cases h with
  | block _ _ hread => exact absurd hread blockComment_ne_token
  | @template parts last hparts =>
    have hwidth := templateParts_width hparts
    have hlast := templateParts_last hparts
    have hsize : u.size = 1 + (parts.map (·.width)).sum := by rw [Token.size, hlexeme]
    refine ⟨by omega, by omega, fun parts' hparts' a b hmem => ?_⟩
    rw [hlexeme] at hparts'
    cases hparts'
    obtain ⟨_, ha, hab, hb⟩ := (templateParts_hole (drop_succ_of_drop ht) hparts).2 a b hmem
    exact ⟨by omega, hab, by omega⟩
  | _ =>
    obtain ⟨hone, hholes⟩ := hplain fun _ hparts => by cases hparts
    exact ⟨by omega, by omega, hholes⟩

theorem Token.Encloses.mono {start start' : Nat} (h : u.Encloses start stop) (hle : start' ≤ start) : u.Encloses start' stop :=
  fun parts hparts a b hmem => by
    obtain ⟨ha, hab, hb⟩ := h parts hparts a b hmem
    exact ⟨by omega, hab, hb⟩

/-- The tokens of a window are together no larger than the window, and their holes are inside. -/
theorem tokensFrom_inside (ht : t = source.drop at_) (h : tokensFrom stop at_ gap t = .ok tokens) :
    ∃ ts last, tokens = ts ++ [last] ∧ last.isEnd = true ∧ (ts.map (·.size)).sum ≤ stop - at_ ∧
      ∀ u ∈ ts, u.Encloses at_ stop := by
  rw [tokensFrom_eq_ok] at h
  induction h with
  | ended _ => exact ⟨[], _, rfl, rfl, Nat.zero_le _, List.forall_mem_nil _⟩
  | @gap _ more _ _ _ _ _ _ _ _ ih =>
    obtain ⟨ts, last, rfl, hlast, hsize, hholes⟩ := ih (drop_behind ht more)
    exact ⟨ts, last, rfl, hlast, by omega, fun u hu => (hholes u hu).mono (by omega)⟩
  | @token at_ more gap c rest lexeme _ hlt hpiece _ ih =>
    obtain ⟨ts, last, rfl, hlast, hsize, hholes⟩ := ih (drop_behind ht more)
    obtain ⟨htaken, hfits, hinside⟩ := (readPiece_begins hpiece).inside ht hlt
      (u := { lexeme, raw := c :: rest.take more, start := at_, stop := at_ + more + 1, spaceBefore := gap.space,
              lineBreak := gap.lineBreak, docs := gap.docs }) rfl
    refine ⟨_ :: ts, last, rfl, hlast, ?_, List.forall_mem_cons.2 ⟨hinside, fun u hu => (hholes u hu).mono (by omega)⟩⟩
    rw [List.map_cons, List.sum_cons]
    omega

end

end WireSchema.Source


namespace WireSchema

open Source Source.Cursor Source.Parser

namespace Source

/-! ## What a cursor has left -/

/-- How much the tokens come to that are left. -/
def Cursor.size (c : Cursor) : Nat := (c.rest.map (·.size)).sum

section
variable {c d : Cursor}

theorem Cursor.size_before (c : Cursor) (ts : List Token) : (c.before ts).size = (ts.map (·.size)).sum + c.size := by
  simp [size]

theorem Cursor.Reaches.size_le (h : c.Reaches d) : d.size ≤ c.size := by
  obtain ⟨ts, rfl⟩ := h
  rw [size_before]
  omega

theorem Cursor.Passes.size_lt (h : c.Passes d) : d.size < c.size := by
  obtain ⟨t, ts, rfl⟩ := h
  have hpos := t.size_pos
  rw [size_before, List.map_cons, List.sum_cons]
  omega

theorem Cursor.size_first_le (hlast : c.last.isEnd = true) (hend : c.peek.isEnd = false) : c.peek.size ≤ c.size := by
  obtain ⟨rest, last⟩ := c
  cases rest with
  | nil => exact absurd hend (by simpa [Cursor.peek] using hlast)
  | cons t rest => exact Nat.le_add_right _ _

end

namespace Ground

/-- Any tokens before the end of the input, and any fault. -/
def any : Ground where
  Fits _ c := c.last.isEnd = true
  Blames _ := True
  Hole _ _ _ := True
  mono h _ := h
  reaches h hd := hd.last ▸ h
  passes h hd := hd.reaches.last ▸ h
  last h := h
  rejects _ _ _ := trivial
  hole _ _ _ _ _ _ := trivial

/-- Tokens that come to less than the limit, and any fault but for nesting too deep. -/
def sized : Ground where
  Fits limit c := c.last.isEnd = true ∧ c.size < limit
  Blames fault := fault ≠ .depth
  Hole limit a b := b - a < limit
  mono h hle := ⟨h.1, Nat.lt_of_lt_of_le h.2 hle⟩
  reaches h hd := ⟨hd.last ▸ h.1, Nat.lt_of_le_of_lt hd.size_le h.2⟩
  passes h hd := ⟨hd.reaches.last ▸ h.1, Nat.lt_of_lt_of_le hd.size_lt (Nat.le_of_lt_succ h.2)⟩
  last h := h.1
  rejects _ _ _ := nofun
  hole h _ hl _ _ hhole := by
    have hwidth := Token.width_lt_size hl hhole
    have hle := size_first_le h.1 (beq_eq_false_iff_ne.2 (by simp [hl]))
    have hlt := h.2
    omega

theorem ofTokens_inside {source : Text} {a b : Nat} {tokens : List Token} (h : tokenize source a b = .ok tokens) :
    (ofTokens tokens).last.isEnd = true ∧ (ofTokens tokens).size ≤ b - a := by
  obtain ⟨ts, last, rfl, hlast, hsize, _⟩ := tokensFrom_inside rfl h
  exact ⟨by simpa [ofTokens] using hlast, by simpa [ofTokens, Cursor.size] using hsize⟩

theorem covers_any (source : Text) : any.Covers source where
  empty _ := trivial
  emptyHole _ := trivial
  tokens _ h := (ofTokens_inside h).1
  fault _ _ := trivial

theorem covers_sized (source : Text) : sized.Covers source where
  empty h := absurd h.2 (Nat.not_lt_zero _)
  emptyHole h := absurd h (Nat.not_lt_zero _)
  tokens hhole h := ⟨(ofTokens_inside h).1, Nat.lt_of_le_of_lt (ofTokens_inside h).2 hhole⟩
  fault _ h hdepth := tokenize_level _ _ _ (hdepth ▸ h)

end Ground

/-- Wherever the parser stops, it is behind a token at least and not behind the end. -/
def Parser.Advances {α : Type} (p : Parser α) (c : Cursor) : Prop := ∀ a d, p c = .ok (a, d) → c.Passes d

/-- A round behind which its loop goes on is behind a token at least. -/
def Parser.Continues {σ β : Type} (round : Parser (Turn σ β)) (c : Cursor) : Prop :=
  ∀ s d, round c = .ok (.again s, d) → c.Passes d

/-- The parser returns, not behind the end, or it raises a fault that is none of nesting. -/
inductive Parser.Finishes {α : Type} (p : Parser α) (c : Cursor) : Prop where
  | returns (a : α) (d : Cursor) : p c = .ok (a, d) → c.Reaches d → Finishes p c
  | raises (fault : Fault) : p c = .error fault → fault ≠ .depth → Finishes p c

section
variable {α σ β : Type} {p : Parser α} {c : Cursor} {limit : Nat}

theorem Ground.Ends.advances {g : Ground} (h : g.Ends p c fun _ => g.Past limit c) : p.Advances c :=
  fun _ _ hp => (h.ok hp).passes

theorem Ground.Ends.continues {g : Ground} {round : Parser (Turn σ β)} {I : σ → Cursor → Prop} {R : β → Cursor → Prop}
    (h : g.Ends round c (Turns I R c)) : round.Continues c :=
  fun s d hround => (h.ok hround : Turns I R c (.again s) d).1

theorem Ground.Ends.finishes (h : sized.Ends p c fun _ => sized.On limit c) : p.Finishes c := by
  cases hp : p c with
  | error fault => exact .raises fault hp (h.error hp)
  | ok x => exact .returns x.1 x.2 hp (h.ok hp).reaches

end

end Source

/-- Whatever goes on with these rules has passed a token. -/
structure Rules.Progress (rules : Rules) (c : Cursor) : Prop where
  statement : c.peek.isEnd = false → (DeclarationGrammar.statement rules).Advances c
  type : (TypeGrammar.type rules).Advances c
  member : ∀ found, (TypeGrammar.membersRound rules found).Continues c
  enumMember : ∀ state, (DeclarationGrammar.memberRound state).Continues c
  element : ∀ state, (TypeGrammar.tupleRound rules state).Continues c
  argument : ∀ found, (listedRound ">" rules.type found).Continues c
  modifier : (DeclarationGrammar.modifierRound ()).Continues c
  parameter : ∀ found, (listedRound ">" (DeclarationGrammar.parameter rules) found).Continues c

/-- Whatever reads with these rules comes to an end. -/
structure Rules.Finish (rules : Rules) (c : Cursor) : Prop where
  statements : (DeclarationGrammar.statements rules).Finishes c
  type : (TypeGrammar.type rules).Finishes c
  skipStatement : DeclarationGrammar.skipStatement.Finishes c
  skipBalanced : skipBalanced.Finishes c
  skipSignature : (TypeGrammar.skipSignature rules).Finishes c
  value : DeclarationGrammar.value.Finishes c
  closerIndex : ∀ opener closer, closerIndex opener closer 0 c.rest ≤ c.rest.length

section
variable {c : Cursor}

theorem Rules.progress_upTo (source : Text) (n : Nat) (hlast : c.last.isEnd = true) : (Rules.upTo source n).Progress c := by
  have hr := (Ground.covers_any source).admits n
  have hon (limit : Nat) : Ground.any.On limit c c := ⟨hlast, .refl c⟩
  exact
    { statement := fun hend => (Ground.ends_statement hr (hon n) hend).advances
      type := (Ground.ends_type hr (hon (n + 1))).advances
      member := fun _ => (Ground.ends_membersRound hr (hon n)).continues
      enumMember := fun _ => (Ground.ends_memberRound (hon n)).continues
      element := fun _ => (Ground.ends_tupleRound hr (hon n)).continues
      argument := fun _ => (Ground.ends_listedRound (hon n) fun _ hd => hr.type hd).continues
      modifier := (Ground.ends_modifierRound (hon n)).continues
      parameter := fun _ => (Ground.ends_listedRound (hon n) fun _ hd => Ground.ends_parameter hr hd).continues }

theorem Rules.finish_upTo (source : Text) {n : Nat} (hlast : c.last.isEnd = true) (hsize : c.size < n) :
    (Rules.upTo source n).Finish c := by
  have hr := (Ground.covers_sized source).admits n
  have hon : Ground.sized.On n c c := ⟨⟨hlast, hsize⟩, .refl c⟩
  exact
    { statements := (Ground.ends_statements hr hon).finishes
      type := ((Ground.ends_type hr hon.grow).mono fun _ _ => Ground.Past.on).finishes
      skipStatement := ((Ground.ends_skipStatement hon).mono fun _ _ hd => hd.elim (fun heq => heq.1 ▸ hon) Ground.Past.on).finishes
      skipBalanced := ((Ground.ends_skipBalanced hon).mono fun _ _ => Ground.Past.on).finishes
      skipSignature := (Ground.ends_skipSignature hr hon).finishes
      value := (Ground.ends_value hon).finishes
      closerIndex := fun _ _ => TypeGrammar.closerIndex_le _ _ _ _ }

/-- What is left of a window is no larger than the window, and holes are inside of it. -/
theorem tokenize_inside {source : Text} {a b : Nat} {tokens : List Token} (h : tokenize source a b = .ok tokens) :
    (ofTokens tokens).last.isEnd = true ∧ (ofTokens tokens).size ≤ b - a ∧ ∀ t ∈ tokens, t.Encloses a b := by
  obtain ⟨hlast, hsize⟩ := Ground.ofTokens_inside h
  obtain ⟨ts, last, rfl, hend, _, hinside⟩ := tokensFrom_inside rfl h
  refine ⟨hlast, hsize, List.forall_mem_append.2 ⟨hinside, List.forall_mem_singleton.2 fun parts hl => ?_⟩⟩
  rw [Token.isEnd, hl] at hend
  cases hend

/-- Parsers move on, whatever the tokens are and however deep the rules may go, and
come to an end if the rules may go as deep as there are tokens and code points in
holes. The cursor of a hole has less than the one it is in, so a source is read
without nesting too deep. -/
theorem parsers_progress (source : Text) (hlast : c.last.isEnd = true) :
    (∀ n, (Rules.upTo source n).Progress c ∧ (c.size < n → (Rules.upTo source n).Finish c)) ∧
      (∀ a b tokens, tokenize source a b = .ok tokens →
        (ofTokens tokens).last.isEnd = true ∧ (ofTokens tokens).size ≤ b - a ∧ ∀ t ∈ tokens, t.Encloses a b) ∧
      Declaration.parse source ≠ .error .depth :=
  ⟨fun n => ⟨Rules.progress_upTo source n hlast, Rules.finish_upTo source hlast⟩, fun _ _ _ => tokenize_inside,
    fun h => (Ground.covers_sized source).parse_blames (Nat.lt_succ_of_lt (Nat.lt_succ_self _)) h rfl⟩

/-- The tokens of `type A = B`. -/
def aliasCursor : Cursor :=
  ⟨[word "type", word "A", { word "=" with lexeme := .mark }, word "B"], { word [] with lexeme := .endOfInput }⟩
where
  word (raw : Text) : Token := ⟨.word, raw, 0, 0, true, false, []⟩

/-- The alias is read, behind all of its tokens. -/
theorem parsers_progress_alias :
    aliasCursor.last.isEnd = true ∧ aliasCursor.size = 4 ∧ (Rules.upTo "type A = B" 5).Finish aliasCursor ∧
      aliasCursor.Passes ⟨[], aliasCursor.last⟩ := by
  have hprogress := (parsers_progress "type A = B" (c := aliasCursor) rfl).1 5
  have hread : DeclarationGrammar.statement (Rules.upTo "type A = B" 5) aliasCursor =
      .ok (some { name := "A", docs := {}, body := .typeAlias [] (.reference "B" [] "B") }, ⟨[], aliasCursor.last⟩) := rfl
  exact ⟨rfl, rfl, hprogress.2 (by decide), hprogress.1.statement rfl _ _ hread⟩

end

end WireSchema
