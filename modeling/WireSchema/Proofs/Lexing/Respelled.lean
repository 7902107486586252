import WireSchema.Proofs.Lexing.Moved
/-!
# Tokens read again from their text

The text of a run of tokens has one space for each gap between them. Cutting the
source behind the run and replacing gaps changes what stands behind a token, but
never so that the token would go on: behind it stand the tokens that touched it
in the source, then a space or nothing. So the text is read as the same tokens.
-/

namespace WireSchema.Source

open Text

/-- The kinds of tokens. -/
inductive Kind where
  | word
  | string
  | number
  | template
  | mark
  | endOfInput
deriving DecidableEq

def Lexeme.kind : Lexeme → Kind
  | word => .word
  | string _ => .string
  | number => .number
  | template _ => .template
  | mark => .mark
  | endOfInput => .endOfInput

def Token.kind (t : Token) : Kind := t.lexeme.kind

theorem Token.isWord_eq (t : Token) : t.isWord = (t.kind == .word) := by
  cases hl : t.lexeme <;> simp [isWord, kind, Lexeme.kind, hl]

theorem Token.isMark_eq (t : Token) : t.isMark = (t.kind == .mark) := by
  cases hl : t.lexeme <;> simp [isMark, kind, Lexeme.kind, hl]

theorem Token.isNumber_eq (t : Token) : t.isNumber = (t.kind == .number) := by
  cases hl : t.lexeme <;> simp [isNumber, kind, Lexeme.kind, hl]

theorem Token.isString_eq (t : Token) : t.isString = (t.kind == .string) := by
  cases hl : t.lexeme <;> simp [isString, kind, Lexeme.kind, hl]

theorem Token.isTemplate_eq (t : Token) : t.isTemplate = (t.kind == .template) := by
  cases hl : t.lexeme <;> simp [isTemplate, kind, Lexeme.kind, hl]

theorem Token.isEnd_eq (t : Token) : t.isEnd = (t.kind == .endOfInput) := by
  cases hl : t.lexeme <;> simp [isEnd, kind, Lexeme.kind, hl]

/-- What there is to a token but for its place and the gap before it. -/
def Token.reading (t : Token) : Kind × Text × Text := (t.kind, t.value, t.raw)

/-- The token is read at its place of the source. -/
def Token.ReadAt (source : Text) (stop : Nat) (t : Token) : Prop :=
  ∃ gap c rest more, source.drop t.start = c :: rest ∧ t.raw = c :: rest.take more ∧ t.stop = t.start + more + 1 ∧
    readPiece stop t.start gap c rest = .ok (.token t.lexeme more)

/-- The token that is read from a text at an offset, behind a gap. -/
def Token.found (lexeme : Lexeme) (raw : Text) (at_ : Nat) (gap : Gap) : Token :=
  { lexeme, raw, start := at_, stop := at_ + raw.length, spaceBefore := gap.space, lineBreak := gap.lineBreak,
    docs := gap.docs }

/-- The token `v` is read from the text of the token `u`: but for where they stand
the two are the same, and what stood before `u` is gone. -/
structure Token.Copies (v u : Token) : Prop where
  lexeme : ∃ own, v.lexeme = Lexeme.later v.start own ∧ u.lexeme = Lexeme.later u.start own
  raw : v.raw = u.raw
  stop : v.stop = v.start + v.raw.length
  lineBreak : v.lineBreak = false
  docs : v.docs = []

/-- The text of tokens behind a token. -/
def spellBehind (us : List Token) : Text :=
  us.flatMap fun t => if t.spaceBefore then CodePoint.ofChar ' ' :: t.raw else t.raw

section
variable {source t w r r' : Text} {stop at_ k b stop' : Nat} {gap : Gap} {tokens us pre post : List Token} {u v : Token}

theorem spell_eq_append (u : Token) (us : List Token) : spell (u :: us) = u.raw ++ spellBehind us := rfl

@[simp] theorem Lexeme.later_kind (k : Nat) (l : Lexeme) : (l.later k).kind = l.kind := by
  cases l <;> rfl

theorem Token.Copies.kind (h : v.Copies u) : v.kind = u.kind := by
  obtain ⟨own, hv, hu⟩ := h.lexeme
  rw [Token.kind, Token.kind, hv, hu, Lexeme.later_kind, Lexeme.later_kind]

theorem Token.Copies.value (h : v.Copies u) : v.value = u.value := by
  obtain ⟨own, hv, hu⟩ := h.lexeme
  rw [Token.value, Token.value, hv, hu, h.raw]
  cases own <;> rfl

/-- Every token but the end of the input is read at its place. -/
theorem tokensFrom_read (ht : t = source.drop at_) (h : tokensFrom stop at_ gap t = .ok tokens) :
    ∀ u ∈ tokens, u.isEnd = false → u.ReadAt source stop := by
  rw [tokensFrom_eq_ok] at h
  induction h with
  | ended _ =>
    intro u hu hnone
    rw [List.mem_singleton.1 hu] at hnone
    cases hnone
  | @gap _ more _ _ _ _ _ _ _ _ ih => exact ih (drop_behind ht more)
  | @token _ more gap c rest _ _ _ hpiece _ ih =>
    intro u hu hnone
    rcases List.mem_cons.1 hu with rfl | hu
    · exact ⟨gap, c, rest, more, ht.symm, rfl, rfl, hpiece⟩
    · exact ih (drop_behind ht more) u hu hnone

/-- A run of tokens is gone through token by token. -/
theorem Accounts.cons (h : Accounts source stop at_ (u :: us)) (hnone : u.isEnd = false) :
    at_ ≤ u.start ∧ u.start < u.stop ∧ u.stop ≤ stop ∧ u.raw = slice source u.start u.stop ∧
      u.Follows (slice source at_ u.start) ∧ Accounts source stop u.stop us := by
  cases h with
  | last hend => exact absurd hend (Bool.eq_false_iff.1 hnone)
  | token _ hat hlt hle _ hraw hfollows hrest => exact ⟨hat, hlt, hle, hraw, hfollows, hrest⟩

/-- Where no gap is told of, a token touches the one before. -/
theorem Token.Follows.touches (h : u.Follows (slice source at_ u.start)) (hspace : u.spaceBefore = false)
    (hat : at_ ≤ u.start) (hle : u.start ≤ source.length) : u.start = at_ := by
  have hnil : slice source at_ u.start = [] := by
    refine Decidable.byContradiction fun hne => ?_
    rw [h.space.2 hne] at hspace
    cases hspace
  have hlength : (slice source at_ u.start).length = u.start - at_ := length_slice hle
  rw [hnil, List.length_nil] at hlength
  omega

/-- Behind a token the source and the text of the tokens go on alike with the
tokens that touch, and then the text has a space or ends. -/
theorem Accounts.touching (hstop : stop ≤ source.length) (h : Accounts source stop at_ (us ++ post))
    (hnone : ∀ u ∈ us, u.isEnd = false) :
    ∃ w r r', source.drop at_ = w ++ r ∧ spellBehind us = w ++ r' ∧ Parted r' := by
  induction us generalizing at_ with
  | nil => exact ⟨[], _, [], rfl, rfl, parted_nil⟩
  | cons u us ih =>
    rw [List.forall_mem_cons] at hnone
    obtain ⟨hat, hlt, hle, hraw, hfollows, hrest⟩ := h.cons hnone.1
    cases hspace : u.spaceBefore with
    | true =>
      refine ⟨[], _, CodePoint.ofChar ' ' :: (u.raw ++ spellBehind us), rfl, ?_, parted_cons (by decide) _⟩
      simp [spellBehind, hspace]
    | false =>
      obtain rfl := hfollows.touches hspace hat (by omega)
      obtain ⟨w, r, r', hw, htext, hr'⟩ := ih hrest hnone.2
      refine ⟨u.raw ++ w, r, r', ?_, ?_, hr'⟩
      · rw [drop_eq_slice_append (Nat.le_of_lt hlt), ← hraw, hw, List.append_assoc]
      · simp only [spellBehind] at htext ⊢
        simp [hspace, htext]

/-- A token is read in any text that goes on as the source does for a while, and
then with what cannot go on with the token. -/
theorem Token.ReadAt.again (hread : u.ReadAt source stop) (hle : u.stop ≤ source.length) (hw : source.drop u.stop = w ++ r)
    (hr' : Stays runsOn r') (hword : u.isWord = true → w = [] → Stays CodePoint.continuesWord r')
    (hlong : b + (u.raw.length + w.length) ≤ stop') (gap : Gap) :
    ∃ own, u.lexeme = Lexeme.later u.start own ∧
      tokensFrom stop' b gap (u.raw ++ (w ++ r')) =
        (tokensFrom stop' (b + u.raw.length) {} (w ++ r')).map (.found (own.later b) u.raw b gap :: ·) := by
  obtain ⟨before, c, rest, more, hdrop, hraw, hend, hpiece⟩ := hread
  -- the token's own code points, and those that touch it
  have hbody : (rest.take more).length = more := by
    have hlength := congrArg List.length hdrop
    rw [List.length_drop, List.length_cons] at hlength
    rw [List.length_take]
    omega
  have hbehind : rest.drop more = w ++ r := by rw [drop_behind hdrop.symm, ← hend, hw]
  have hrest : rest = rest.take more ++ w ++ r := by rw [List.append_assoc, ← hbehind, List.take_append_drop]
  generalize rest.take more = body at hraw hbody hrest
  rw [hrest] at hpiece
  rw [hraw, List.length_cons] at hlong
  obtain ⟨own, hown, hagain⟩ := readPiece_apart (by rw [List.length_append]; omega) hpiece
  refine ⟨own, hown, ?_⟩
  have hpiece' : readPiece stop' b gap c (body ++ (w ++ r')) = .ok (.token (own.later b) more) := by
    rw [← List.append_assoc]
    refine hagain (by rw [List.length_append]; omega) hr' fun hlexeme hlength => ?_
    rw [List.length_append] at hlength
    exact hword (by rw [Token.isWord, hlexeme]; rfl) (List.length_eq_zero_iff.1 (by omega))
  have htake : (body ++ (w ++ r')).take more = body := by rw [← hbody, List.take_left]
  have hdrop' : (body ++ (w ++ r')).drop more = w ++ r' := by rw [← hbody, List.drop_left]
  have hnext : b + more + 1 = b + (c :: body).length := by rw [List.length_cons, hbody]; omega
  rw [hraw, List.cons_append, tokensFrom, if_neg (by omega), hpiece']
  simp only [htake, hdrop', hnext]
  cases tokensFrom stop' (b + (c :: body).length) {} (w ++ r') <;> rfl

/-- A token is read before the text of the tokens behind it. -/
theorem Token.ReadAt.spelled (hread : u.ReadAt source stop) (hstop : stop ≤ source.length) (hle : u.stop ≤ source.length)
    (h : Accounts source stop u.stop (us ++ post)) (hnone : ∀ u ∈ us, u.isEnd = false)
    (hlong : b + (u.raw ++ spellBehind us).length ≤ stop') (gap : Gap) :
    ∃ own, u.lexeme = Lexeme.later u.start own ∧
      tokensFrom stop' b gap (u.raw ++ spellBehind us) =
        (tokensFrom stop' (b + u.raw.length) {} (spellBehind us)).map (.found (own.later b) u.raw b gap :: ·) := by
  obtain ⟨w, r, r', hw, htext, hr'⟩ := h.touching hstop hnone
  rw [htext] at hlong ⊢
  simp only [List.length_append] at hlong
  exact hread.again hle hw hr'.apart (fun _ _ => hr'.word) (by omega) gap

/-- The end of the input behind a text of so many code points that ends with a token. -/
def Token.endAt (stop : Nat) : Token :=
  { lexeme := .endOfInput, raw := [], start := stop, stop, spaceBefore := false, lineBreak := true, docs := [] }

/-- The text behind a token is read as copies of the tokens, with the same spaces
between them, and ends with the last one. -/
theorem Accounts.again (hstop : stop ≤ source.length) (h : Accounts source stop at_ (us ++ post))
    (hread : ∀ u ∈ us, u.ReadAt source stop) (hnone : ∀ u ∈ us, u.isEnd = false)
    (hlong : b + (spellBehind us).length = stop') :
    ∃ vs, tokensFrom stop' b {} (spellBehind us) = .ok (vs ++ [.endAt stop']) ∧
      List.Forall₂ (fun v u => v.Copies u ∧ v.spaceBefore = u.spaceBefore) vs us := by
  induction us generalizing at_ b with
  | nil =>
    rw [spellBehind, List.flatMap_nil, List.length_nil] at hlong
    exact ⟨[], tokensFrom_end (Nat.le_of_eq hlong.symm), .nil⟩
  | cons u us ih =>
    rw [List.forall_mem_cons] at hnone hread
    obtain ⟨_, _, hle, _, _, hrest⟩ := h.cons hnone.1
    generalize hg : (if u.spaceBefore then [CodePoint.ofChar ' '] else []) = g
    have htext : spellBehind (u :: us) = g ++ (u.raw ++ spellBehind us) := by
      rw [← hg]
      cases hspace : u.spaceBefore <;> simp [spellBehind, hspace]
    have hblank : ∀ c ∈ g, c.isBlank = true := by
      rw [← hg]
      cases u.spaceBefore <;> decide
    have hfeed : g.contains (CodePoint.ofChar '\n') = false := by
      rw [← hg]
      cases u.spaceBefore <;> decide
    have hspace : (!g.isEmpty) = u.spaceBefore := by
      rw [← hg]
      cases u.spaceBefore <;> rfl
    rw [htext, List.length_append] at hlong
    have hroom : b + g.length + (u.raw ++ spellBehind us).length ≤ stop' := by omega
    -- the token is read again from its own text, with what is spelled behind it
    obtain ⟨own, hown, hagain⟩ :=
      hread.1.spelled hstop (Nat.le_trans hle hstop) hrest hnone.2 hroom { space := u.spaceBefore }
    rw [List.length_append] at hlong
    obtain ⟨vs, hvs, hcopies⟩ := ih hrest hread.2 hnone.2 (b := b + g.length + u.raw.length) (by omega)
    rw [hvs] at hagain
    refine ⟨.found (own.later (b + g.length)) u.raw (b + g.length) { space := u.spaceBefore } :: vs, ?_,
      .cons ⟨⟨⟨own, rfl, hown⟩, rfl, rfl, rfl, rfl⟩, rfl⟩ hcopies⟩
    rw [htext, Chunk.tokensFrom_gap hblank (by omega), hfeed, hspace]
    exact hagain

theorem Accounts.not_last (h : Accounts source stop at_ (u :: us)) (hne : us ≠ []) : u.isEnd = false := by
  cases h with
  | last => exact absurd rfl hne
  | token hnone => exact hnone

/-- The tokens behind a token account for the source behind it. -/
theorem Accounts.behind (h : Accounts source stop at_ (pre ++ u :: us)) (hnone : u.isEnd = false) :
    u.stop ≤ stop ∧ Accounts source stop u.stop us := by
  induction pre generalizing at_ with
  | nil =>
    obtain ⟨_, _, hle, _, _, hrest⟩ := h.cons hnone
    exact ⟨hle, hrest⟩
  | cons v pre ih =>
    have hfirst := h.not_last (List.append_ne_nil_of_right_ne_nil pre (List.cons_ne_nil u us))
    obtain ⟨_, _, _, _, _, hrest⟩ := Accounts.cons h hfirst
    exact ih hrest

/-- The text of a run of tokens is read as copies of them, with the same spaces between. -/
theorem tokenize_spell_copies (hends : EndsWindow source stop)
    (h : tokenize source at_ stop = .ok (pre ++ (u :: us ++ post))) (hnone : ∀ v ∈ u :: us, v.isEnd = false) :
    ∃ v vs, tokenize (spell (u :: us)) 0 (spell (u :: us)).length =
        .ok (v :: vs ++ [.endAt (spell (u :: us)).length]) ∧
      v.Copies u ∧ v.spaceBefore = false ∧
      List.Forall₂ (fun v u => v.Copies u ∧ v.spaceBefore = u.spaceBefore) vs us := by
  obtain ⟨first, others, _, hfirst, hgoes⟩ := tokensFrom_goesOn hends rfl h
  have haccounts := hfirst ▸ hgoes.accounts
  have hread : ∀ v ∈ u :: us, v.ReadAt source stop := fun v hv =>
    tokensFrom_read rfl h v (List.mem_append_right pre (List.mem_append_left post hv)) (hnone v hv)
  rw [List.forall_mem_cons] at hnone hread
  obtain ⟨hle, hbehind⟩ := haccounts.behind hnone.1
  have hwhole : 0 + (u.raw ++ spellBehind us).length ≤ (spell (u :: us)).length := by rw [spell_eq_append, Nat.zero_add]
  have hothers : 0 + u.raw.length + (spellBehind us).length = (spell (u :: us)).length := by
    rw [spell_eq_append, List.length_append, Nat.zero_add]
  obtain ⟨own, hown, hagain⟩ := hread.1.spelled hends.le (Nat.le_trans hle hends.le) hbehind hnone.2 hwhole {}
  obtain ⟨vs, hvs, hcopies⟩ := hbehind.again hends.le hread.2 hnone.2 hothers
  rw [hvs] at hagain
  exact ⟨_, vs, hagain, ⟨⟨own, rfl, hown⟩, rfl, rfl, rfl, rfl⟩, rfl, hcopies⟩

theorem spellBehind_copies {vs : List Token}
    (h : List.Forall₂ (fun v u => v.Copies u ∧ v.spaceBefore = u.spaceBefore) vs us) : spellBehind vs = spellBehind us := by
  induction h with
  | nil => rfl
  | cons hcopy _ ih =>
    rw [spellBehind] at ih ⊢
    rw [spellBehind, List.flatMap_cons, List.flatMap_cons, ih, hcopy.1.raw, hcopy.2]
    rfl

theorem docs_copies {vs : List Token} (h : List.Forall₂ Token.Copies vs us) : ∀ v ∈ vs, v.docs = [] := by
  induction h with
  | nil => exact fun _ hv => absurd hv List.not_mem_nil
  | cons hcopy _ ih => exact List.forall_mem_cons.2 ⟨hcopy.docs, ih⟩

/-- The text of a run of tokens is read as tokens of the same kinds, values and
texts, with the same spaces between them. None of the comments is left: the
tokens have no documentation, and the text is the one that they have. -/
theorem tokenize_spell (hends : EndsWindow source stop) (h : tokenize source at_ stop = .ok tokens) (hrun : us <:+: tokens)
    (hne : us ≠ []) (hnone : ∀ u ∈ us, u.isEnd = false) :
    ∃ vs last, tokenize (spell us) 0 (spell us).length = .ok (vs ++ [last]) ∧ last.isEnd = true ∧
      last.spaceBefore = false ∧
      vs.map Token.reading = us.map Token.reading ∧
      vs.tail.map (·.spaceBefore) = us.tail.map (·.spaceBefore) ∧ vs.head?.map (·.spaceBefore) = some false ∧
      spell vs = spell us ∧ ∀ v ∈ vs ++ [last], v.docs = [] := by
  obtain ⟨u, us, rfl⟩ := List.exists_cons_of_ne_nil hne
  obtain ⟨pre, post, rfl⟩ := hrun
  rw [List.append_assoc] at h
  obtain ⟨v, vs, htokens, hv, hspace, hcopies⟩ := tokenize_spell_copies hends h hnone
  have hsame : List.Forall₂ Token.Copies (v :: vs) (u :: us) := .cons hv (hcopies.imp fun _ _ h => h.1)
  have hreads : (v :: vs).map Token.reading = (u :: us).map Token.reading := by
    rw [← List.forall₂_eq_eq_eq, List.forall₂_map_left_iff, List.forall₂_map_right_iff]
    exact hsame.imp fun _ _ h => by rw [Token.reading, Token.reading, h.kind, h.value, h.raw]
  have hspaces : vs.map (·.spaceBefore) = us.map (·.spaceBefore) := by
    rw [← List.forall₂_eq_eq_eq, List.forall₂_map_left_iff, List.forall₂_map_right_iff]
    exact hcopies.imp fun _ _ h => h.2
  refine ⟨v :: vs, _, htokens, rfl, rfl, hreads, hspaces, congrArg some hspace, ?_, ?_⟩
  · rw [spell_eq_append, spell_eq_append, hv.raw, spellBehind_copies hcopies]
  · intro w hw
    rcases List.mem_append.1 hw with hw | hw
    · exact docs_copies hsame w hw
    · rw [List.mem_singleton.1 hw]
      rfl

/-- A number, an arrow and a word, of `a:/* b */1.5/** c */ =>d`. -/
theorem tokenize_spell_comments :
    let us : List Token :=
      [{ lexeme := .number, raw := "1.5", start := 9, stop := 12, spaceBefore := true, lineBreak := false, docs := [] },
       { lexeme := .mark, raw := "=>", start := 21, stop := 23, spaceBefore := true, lineBreak := false,
         docs := ["/** c */"] },
       { lexeme := .word, raw := "d", start := 23, stop := 24, spaceBefore := false, lineBreak := false, docs := [] }]
    spell us = "1.5 =>d" ∧ ∃ vs last, tokenize (spell us) 0 (spell us).length = .ok (vs ++ [last]) ∧ last.isEnd = true ∧
      last.spaceBefore = false ∧
      vs.map Token.reading = us.map Token.reading ∧
      vs.tail.map (·.spaceBefore) = us.tail.map (·.spaceBefore) ∧ vs.head?.map (·.spaceBefore) = some false ∧
      spell vs = spell us ∧ ∀ v ∈ vs ++ [last], v.docs = [] := by
  have htokens : tokenize "a:/* b */1.5/** c */ =>d" 0 24 = .ok
      [{ lexeme := .word, raw := "a", start := 0, stop := 1, spaceBefore := false, lineBreak := false, docs := [] },
       { lexeme := .mark, raw := ":", start := 1, stop := 2, spaceBefore := false, lineBreak := false, docs := [] },
       { lexeme := .number, raw := "1.5", start := 9, stop := 12, spaceBefore := true, lineBreak := false, docs := [] },
       { lexeme := .mark, raw := "=>", start := 21, stop := 23, spaceBefore := true, lineBreak := false,
         docs := ["/** c */"] },
       { lexeme := .word, raw := "d", start := 23, stop := 24, spaceBefore := false, lineBreak := false, docs := [] },
       { lexeme := .endOfInput, raw := [], start := 24, stop := 24, spaceBefore := false, lineBreak := true,
         docs := [] }] := by cbv
  exact ⟨by decide, tokenize_spell (.inl rfl) htokens ⟨[_, _], [_], rfl⟩ (List.cons_ne_nil _ _) (by decide)⟩

end

end WireSchema.Source
