import Mathlib.Algebra.GroupWithZero.Nat
import WireSchema.Proofs.Lexing.Coverage
/-!
# What stops the lexer

A window inside the source is never left. What stops the lexer there is a
rejection at an offset of the source, an escape in a literal that cannot be
read, or a digit that no number begins with.
-/

namespace WireSchema.Source

open Text

/-- What may stand before the text of a literal: a quote, or the brace that
closes a hole. -/
def literalMarks : Text := "\"'`\x7d"

/-- The source gives rise to the fault. -/
inductive Blames (source : Text) : Fault → Prop where
  | rejected {cause : Rejection} {offset : Nat} : offset ≤ source.length → Blames source (.rejected cause offset)
  | escape {front inside back : Text} {mark : CodePoint} {error : EscapeError} :
    source = front ++ mark :: (inside ++ back) → mark ∈ literalMarks → unescape inside = .error error →
    Blames source (.escape error)
  | numeral {c : CodePoint} : c ∈ source → c.isDigit = true → c.isDecimal = false → Blames source .numeral

/-- A token that stands in the source. The holes of a template are shorter than
the template, and a brace closes each. -/
structure Token.Placed (source : Text) (t : Token) : Prop where
  raw : t.raw ≠ []
  start : t.start ≤ source.length
  hole : ∀ parts, t.lexeme = .template parts → ∀ a b, .hole a b ∈ parts →
    EndsWindow source b ∧ a ≤ b ∧ b - a < t.raw.length

section
variable {source t rest chunk : Text} {stop at_ opened skip room depth close last more a b : Nat}
  {quoted : Option (CodePoint × Nat)} {c mark : CodePoint} {fault : Fault} {parts : List TemplatePart} {gap : Gap}
  {lexeme : Lexeme} {tokens : List Token}

theorem take_succ_of_drop (ht : c :: rest = source.drop at_) (n : Nat) :
    source.take (at_ + (n + 1)) = source.take at_ ++ c :: rest.take n := by
  rw [List.take_add, ← ht, List.take_succ_cons]

theorem drop_succ_of_drop (ht : c :: rest = source.drop at_) : rest = source.drop (at_ + 1) := by
  rw [← List.drop_drop, ← ht]
  rfl

theorem lt_length_of_drop (ht : c :: rest = source.drop at_) : at_ < source.length := by
  have hlength := congrArg List.length ht
  rw [List.length_cons, List.length_drop] at hlength
  omega

theorem length_le_of_drop (ht : [] = source.drop at_) : source.length ≤ at_ :=
  List.drop_eq_nil_iff.1 ht.symm

/-! ## Strings -/

/-- The search for a quote does not leave the text it is given. -/
theorem closingQuote_answers (mark : CodePoint) (h : room ≤ t.length) :
    ∃ found, closingQuote mark room t = .ok found := by
  fun_induction closingQuote mark room t with
  | case1 => exact ⟨none, rfl⟩
  | case2 => cases h
  | case3 => exact ⟨none, rfl⟩
  | case4 room hroom =>
    rw [List.length_singleton] at h
    omega
  | case5 room d after ih =>
    simp only [List.length_cons] at h
    obtain ⟨found, hfound⟩ := ih (by omega)
    exact ⟨found.map (· + 2), by rw [hfound]; rfl⟩
  | case6 => exact ⟨some 0, rfl⟩
  | case7 => exact ⟨none, rfl⟩
  | case8 room c rest _ _ _ ih =>
    obtain ⟨found, hfound⟩ := ih (Nat.le_of_succ_le_succ h)
    exact ⟨found.map (· + 1), by rw [hfound]; rfl⟩

/-! ## Templates -/

/-- A hole ends in the window at a closing brace. -/
theorem holeEnd_ok (h : holeEnd stop quoted depth at_ t = .ok close) :
    at_ ≤ close ∧ close < stop ∧ t[close - at_]? = some (CodePoint.ofChar '\x7d') := by
  induction t generalizing quoted depth at_ with
  | nil =>
    rw [holeEnd.eq_def] at h
    simp only at h
    split at h
    · cases h
    · split at h <;> cases h
  | cons c rest ih =>
    -- the rest is scanned one place on
    have hlater {quoted depth} (h : holeEnd stop quoted depth (at_ + 1) rest = .ok close) :
        at_ ≤ close ∧ close < stop ∧ (c :: rest)[close - at_]? = some (CodePoint.ofChar '\x7d') := by
      obtain ⟨hle, hlt, hclose⟩ := ih h
      have hindex : close - at_ = close - (at_ + 1) + 1 := by omega
      rw [hindex, List.getElem?_cons_succ]
      exact ⟨Nat.le_of_succ_le hle, hlt, hclose⟩
    rw [holeEnd.eq_def] at h
    simp only at h
    split at h
    · split at h <;> exact hlater h
    · split at h
      · cases h
      next hat =>
        split at h
        · exact hlater h
        split at h
        · exact hlater h
        split at h
        next hbrace =>
          split at h
          · cases h
            exact ⟨Nat.le_refl _, Nat.lt_of_not_le hat, by simp [hbrace]⟩
          · exact hlater h
        · exact hlater h

theorem holeEnd_brace (ht : t = source.drop at_) (h : holeEnd stop quoted depth at_ t = .ok close) :
    at_ ≤ close ∧ source[close]? = some (CodePoint.ofChar '\x7d') := by
  obtain ⟨hle, _, hclose⟩ := holeEnd_ok h
  rw [ht, List.getElem?_drop, Nat.add_sub_cancel' hle] at hclose
  exact ⟨hle, hclose⟩

theorem holeEnd_blames (hstop : stop ≤ source.length) (hat : at_ ≤ source.length) (ht : t = source.drop at_)
    (hquoted : ∀ q ∈ quoted, q.2 ≤ source.length) (h : holeEnd stop quoted depth at_ t = .error fault) :
    Blames source fault := by
  induction t generalizing quoted depth at_ with
  | nil =>
    have hend := length_le_of_drop ht
    rw [holeEnd.eq_def] at h
    simp only at h
    split at h
    · cases h
      exact .rejected (hquoted _ rfl)
    · rw [if_neg (by omega)] at h
      cases h
      exact .rejected hat
  | cons c rest ih =>
    have hlt := lt_length_of_drop ht
    have hrest := drop_succ_of_drop ht
    rw [holeEnd.eq_def] at h
    simp only at h
    split at h
    · split at h
      · exact ih hlt hrest (by simp) h
      · exact ih hlt hrest hquoted h
    · split at h
      · cases h
        exact .rejected hat
      split at h
      · exact ih hlt hrest (by simpa using hat) h
      split at h
      · exact ih hlt hrest (by simp) h
      split at h
      · split at h
        · cases h
        · exact ih hlt hrest (by simp) h
      · exact ih hlt hrest (by simp) h

/-- The chunk has been read up to an offset, from a mark that may open one. -/
def ChunkTo (source chunk : Text) (at_ : Nat) : Prop :=
  ∃ front mark, mark ∈ literalMarks ∧ source.take at_ = front ++ mark :: chunk.reverse

/-- An escape that cannot be read is blamed on what stands behind a mark that may open a literal. -/
theorem unescape_blames {front inside behind : Text} (hsource : source = front ++ mark :: (inside ++ behind))
    (hmark : mark ∈ literalMarks) (h : (unescape inside).mapError .escape = .error fault) : Blames source fault := by
  cases hread : unescape inside with
  | ok text =>
    rw [hread] at h
    cases h
  | error error =>
    rw [hread] at h
    cases h
    exact .escape hsource hmark hread

theorem ChunkTo.blames (hchunk : ChunkTo source chunk at_)
    (h : (unescape chunk.reverse).mapError .escape = .error fault) : Blames source fault := by
  obtain ⟨front, mark, hmark, htake⟩ := hchunk
  have hsource : source = front ++ mark :: (chunk.reverse ++ source.drop at_) :=
    calc source = source.take at_ ++ source.drop at_ := (List.take_append_drop at_ source).symm
      _ = front ++ mark :: (chunk.reverse ++ source.drop at_) := by
        rw [htake, List.append_assoc, List.cons_append]
  exact unescape_blames hsource hmark h

theorem ChunkTo.cons (hchunk : ChunkTo source chunk at_) (ht : c :: rest = source.drop at_) :
    ChunkTo source (c :: chunk) (at_ + 1) := by
  obtain ⟨front, mark, hmark, htake⟩ := hchunk
  refine ⟨front, mark, hmark, ?_⟩
  rw [take_succ_of_drop ht 0, htake]
  simp

/-- A backslash keeps the code point behind it in the chunk. -/
theorem ChunkTo.escaped (hchunk : ChunkTo source chunk at_) (ht : c :: rest = source.drop at_) :
    ChunkTo source (rest.take 1 ++ c :: chunk) (at_ + 1 + 1) := by
  obtain ⟨front, mark, hmark, htake⟩ := hchunk
  refine ⟨front, mark, hmark, ?_⟩
  rw [take_succ_of_drop ht 1, htake]
  cases rest <;> simp

theorem chunkTo_nil (h : source[close]? = some mark) (hmark : mark ∈ literalMarks) :
    ChunkTo source [] (close + 1) := by
  refine ⟨source.take close, mark, hmark, ?_⟩
  rw [List.take_add_one, h]
  rfl

theorem templateParts_blames (hstop : stop ≤ source.length) (hopened : opened ≤ source.length)
    (ht : t = source.drop at_) (hchunk : ChunkTo source chunk (at_ + skip))
    (h : templateParts opened stop skip at_ chunk t = .error fault) : Blames source fault := by
  induction t generalizing skip at_ chunk fault with
  | nil =>
    have hend := length_le_of_drop ht
    rw [templateParts, if_neg (by omega)] at h
    cases h
    exact .rejected hopened
  | cons c rest ih =>
    have hlt := lt_length_of_drop ht
    have hrest := drop_succ_of_drop ht
    cases skip with
    | succ skip =>
      have hnext : at_ + (skip + 1) = at_ + 1 + skip := by omega
      exact ih hrest (hnext ▸ hchunk) h
    | zero =>
      simp only [templateParts] at h
      split at h
      · cases h
        exact .rejected hopened
      split at h
      · exact ih hrest (hchunk.escaped ht) h
      split at h
      · cases hread : (unescape chunk.reverse).mapError Fault.escape with
        | error _ =>
          rw [hread] at h
          cases h
          exact hchunk.blames hread
        | ok text => simp [hread, bind, Except.bind, pure, Except.pure] at h
      split at h
      next hhole =>
        cases hread : (unescape chunk.reverse).mapError Fault.escape with
        | error _ =>
          rw [hread] at h
          cases h
          exact hchunk.blames hread
        | ok text =>
        -- the inside of the hole begins behind the brace, which the source has
        obtain ⟨inside, rfl⟩ := List.head?_eq_some_iff.1 hhole.2
        have hinside := drop_succ_of_drop hrest
        cases hclose : holeEnd stop none 0 (at_ + 2) inside with
        | error _ =>
          simp only [hread, bind, Except.bind, List.drop_one, List.tail_cons, hclose] at h
          cases h
          exact holeEnd_blames hstop (lt_length_of_drop hrest) hinside (by simp) hclose
        | ok close =>
        obtain ⟨hle, hbrace⟩ := holeEnd_brace hinside hclose
        have hnext : close + 1 = at_ + 1 + (close - at_) := by omega
        simp only [hread, bind, Except.bind, List.drop_one, List.tail_cons, hclose] at h
        cases hparts : templateParts opened stop (close - at_) (at_ + 1) [] (CodePoint.ofChar '\x7b' :: inside) with
        | error _ =>
          rw [hparts] at h
          cases h
          exact ih hrest (hnext ▸ chunkTo_nil hbrace (by decide)) hparts
        | ok found => simp [hparts, pure, Except.pure] at h
      next => exact ih hrest (hchunk.cons ht) h

/-- A hole of a template lies before the mark that closes the template. -/
theorem templateParts_hole (ht : t = source.drop at_)
    (h : templateParts opened stop skip at_ chunk t = .ok (parts, last)) :
    at_ + skip ≤ last ∧ ∀ a b, .hole a b ∈ parts →
      EndsWindow source b ∧ at_ ≤ a ∧ a ≤ b ∧ b < last := by
  rw [templateParts_eq_ok] at h
  refine ⟨h.last_le.1, ?_⟩
  induction h with
  | skip _ ih | escape _ _ ih | plain _ _ _ _ _ ih =>
    intro a b hmem
    obtain ⟨hends, ha, hb⟩ := ih (drop_succ_of_drop ht) a b hmem
    exact ⟨hends, Nat.le_of_succ_le ha, hb⟩
  | close => simp
  | hole _ _ hclose hparts ih =>
    have hrest := drop_succ_of_drop ht
    obtain ⟨hle, hbrace⟩ := holeEnd_brace (drop_succ_of_drop hrest) hclose
    have hlast := hparts.last_le
    intro a b hmem
    simp only [List.mem_cons, reduceCtorEq, false_or] at hmem
    rcases hmem with hmem | hmem
    · cases hmem
      exact ⟨.inr hbrace, by omega, hle, by omega⟩
    · obtain ⟨hends, ha, hb⟩ := ih hrest a b hmem
      exact ⟨hends, Nat.le_of_succ_le ha, hb⟩

/-! ## Numbers -/

/-- A decimal digit begins a number. -/
theorem numberLength_pos (h : c.isDecimal = true) : 0 < numberLength (c :: rest) := by
  have hdigits : 0 < digitsLength (c :: rest) := by
    rw [digitsLength, if_pos h]
    exact Nat.lt_of_lt_of_le Nat.zero_lt_one (Nat.le_add_right 1 _)
  have hmantissa : 0 < mantissaLength (c :: rest) := by
    rw [mantissaLength]
    split <;> omega
  have hdecimal : 0 < decimalNumberLength (c :: rest) := by
    rw [decimalNumberLength]
    split
    · omega
    · exact Nat.lt_of_lt_of_le (Nat.succ_pos _) (Nat.le_trans (Nat.le_add_right _ _) (Nat.le_add_right _ _))
  rw [numberLength]
  split <;> omega

/-- A dot and a decimal digit begin a number. -/
theorem numberLength_dot_pos (h : c.isDecimal = true) : 0 < numberLength (CodePoint.ofChar '.' :: c :: rest) := by
  have hdot : (CodePoint.ofChar '.').isDecimal = false := by decide
  have hmantissa : 0 < mantissaLength (CodePoint.ofChar '.' :: c :: rest) := by
    have hstart : Text.startsWith (CodePoint.ofChar '.' :: c :: rest) "." = true := startsWith_append "." _
    simp only [mantissaLength, digitsLength, hdot, Bool.false_eq_true, if_false, hstart, if_true, List.drop_one,
      List.tail_cons, h]
    split <;> omega
  have hdecimal : 0 < decimalNumberLength (CodePoint.ofChar '.' :: c :: rest) := by
    rw [decimalNumberLength]
    split
    · omega
    · exact Nat.lt_of_lt_of_le (Nat.succ_pos _) (Nat.le_trans (Nat.le_add_right _ _) (Nat.le_add_right _ _))
  rw [numberLength]
  split <;> omega

/-- Where a number would begin and none does, a digit is not decimal. -/
theorem exists_digit (h : (c.isDigit || (c == CodePoint.ofChar '.' && (rest.head?.map CodePoint.isDigit).getD false)) = true)
    (hzero : numberLength (c :: rest) = 0) :
    ∃ d ∈ c :: rest, d.isDigit = true ∧ d.isDecimal = false := by
  rw [Bool.or_eq_true] at h
  rcases h with h | h
  · refine ⟨c, List.mem_cons_self, h, Bool.eq_false_iff.2 fun hdecimal => ?_⟩
    exact absurd hzero (Nat.ne_of_gt (numberLength_pos hdecimal))
  · rw [Bool.and_eq_true, beq_iff_eq] at h
    obtain ⟨rfl, hdigit⟩ := h
    cases rest with
    | nil => cases hdigit
    | cons d rest =>
      refine ⟨d, List.mem_cons_of_mem _ List.mem_cons_self, hdigit, Bool.eq_false_iff.2 fun hdecimal => ?_⟩
      exact absurd hzero (Nat.ne_of_gt (numberLength_dot_pos hdecimal))

/-! ## Windows -/

/-- A block comment that is not closed in the window is blamed where it begins. -/
theorem blockComment_blames (hat : at_ ≤ source.length) (h : blockComment stop at_ gap t = .error fault) :
    Blames source fault := by
  rw [blockComment] at h
  split at h
  · cases h
    exact .rejected hat
  split at h
  · cases h
    exact .rejected hat
  · cases h

theorem readPiece_blames (hstop : stop ≤ source.length) (hat : at_ < stop) (ht : c :: rest = source.drop at_)
    (h : readPiece stop at_ gap c rest = .error fault) : Blames source fault := by
  have hle : at_ ≤ source.length := Nat.le_of_lt (lt_length_of_drop ht)
  have hrest := drop_succ_of_drop ht
  have hopens (hmark : c ∈ literalMarks) : ChunkTo source [] (at_ + 1) :=
    chunkTo_nil (getElem?_first ht) hmark
  simp only [readPiece] at h
  -- the tests in their order: only literals, digits and the last one can fail
  split at h
  · cases h
  split at h
  · exact blockComment_blames hle h
  split at h
  · cases h
  split at h
  next hquote =>
    have hroom : stop - at_ - 1 ≤ rest.length := by
      rw [hrest, List.length_drop]
      omega
    obtain ⟨found, hfound⟩ := closingQuote_answers c hroom
    simp only [hfound, bind, Except.bind] at h
    cases found with
    | none =>
      cases h
      exact .rejected hle
    | some n =>
      simp only at h
      cases hread : (unescape (rest.take n)).mapError Fault.escape with
      | ok value => simp [hread, pure, Except.pure] at h
      | error _ =>
        rw [hread] at h
        cases h
        have hsource : source = source.take at_ ++ c :: (rest.take n ++ rest.drop n) := by
          rw [List.take_append_drop, ht, List.take_append_drop]
        refine unescape_blames hsource ?_ hread
        rcases hquote with rfl | rfl <;> decide
  split at h
  next hquote =>
    cases hparts : templateParts at_ stop 0 (at_ + 1) [] rest with
    | ok found => simp [hparts, bind, Except.bind, pure, Except.pure] at h
    | error _ =>
      simp only [hparts, bind, Except.bind] at h
      cases h
      exact templateParts_blames hstop hle hrest (hopens (hquote ▸ by decide)) hparts
  split at h
  next hdigit =>
    split at h
    next hzero =>
      cases h
      obtain ⟨d, hmem, hd, hdecimal⟩ := exists_digit hdigit hzero
      exact .numeral (List.mem_of_mem_drop (ht ▸ hmem)) hd hdecimal
    · cases h
  split at h
  · cases h
  split at h
  · cases h
  split at h
  · cases h
  split at h
  · cases h
  · cases h
    exact .rejected hle

theorem tokensFrom_blames (hstop : stop ≤ source.length) (ht : t = source.drop at_)
    (h : tokensFrom stop at_ gap t = .error fault) : Blames source fault := by
  induction at_, gap, t using tokensFrom.induct stop generalizing fault with
  | case1 at_ gap t hend =>
    rw [tokensFrom.eq_def, if_pos hend] at h
    cases h
  | case2 at_ gap hend =>
    have := length_le_of_drop ht
    omega
  | case3 at_ gap hend c rest found hpiece =>
    rw [tokensFrom, if_neg hend, hpiece] at h
    cases h
    exact readPiece_blames hstop (Nat.lt_of_not_le hend) ht hpiece
  | case4 at_ gap hend c rest filled more hpiece ih =>
    rw [tokensFrom, if_neg hend, hpiece] at h
    exact ih (drop_behind ht more) h
  | case5 at_ gap hend c rest lexeme more hpiece found htokens ih =>
    rw [tokensFrom, if_neg hend, hpiece] at h
    simp only [htokens] at h
    cases h
    exact ih (drop_behind ht more) htokens
  | case6 at_ gap hend c rest lexeme more hpiece later htokens ih =>
    rw [tokensFrom, if_neg hend, hpiece] at h
    simp only [htokens] at h
    cases h

/-- What stops the lexer in a window inside the source is in the source. -/
theorem tokenize_blames (hstop : stop ≤ source.length) (h : tokenize source at_ stop = .error fault) :
    Blames source fault := tokensFrom_blames hstop rfl h

/-! ## Tokens -/

theorem Begins.placed (hstop : stop ≤ source.length) (ht : c :: rest = source.drop at_)
    (h : Begins stop at_ gap c rest (.token lexeme more)) {t : Token} (hlexeme : t.lexeme = lexeme)
    (hraw : t.raw = c :: rest.take more) (hstart : t.start = at_) : t.Placed source where
  raw := by simp [hraw]
  start := hstart ▸ Nat.le_of_lt (lt_length_of_drop ht)
  hole := by
    rintro parts hparts a b hmem
    rw [hlexeme] at hparts
    subst hparts
    cases h with
    | block _ _ hread => exact absurd hread blockComment_ne_token
    | @template _ last htemplate =>
      have hrest := drop_succ_of_drop ht
      have hlast := templateParts_last htemplate
      obtain ⟨_, hholes⟩ := templateParts_hole hrest htemplate
      obtain ⟨hends, ha, hab, hb⟩ := hholes a b hmem
      have hlength : rest.length = source.length - (at_ + 1) := by rw [hrest, List.length_drop]
      have htake : t.raw.length = last - at_ + 1 := by
        rw [hraw, List.length_cons, List.length_take]
        omega
      exact ⟨hends, hab, by omega⟩

theorem tokensFrom_placed (hstop : stop ≤ source.length) (ht : t = source.drop at_)
    (h : tokensFrom stop at_ gap t = .ok tokens) :
    ∃ ts last, tokens = ts ++ [last] ∧ (∀ u ∈ ts, u.Placed source) ∧ last.isEnd = true ∧ last.start = stop := by
  rw [tokensFrom_eq_ok] at h
  induction h with
  | ended _ => exact ⟨[], _, rfl, fun _ hu => absurd hu List.not_mem_nil, rfl, rfl⟩
  | @gap _ more _ _ _ _ _ _ _ _ ih => exact ih (drop_behind ht more)
  | @token _ more _ _ _ _ _ _ hpiece _ ih =>
    obtain ⟨ts, last, rfl, hplaced, hlast⟩ := ih (drop_behind ht more)
    refine ⟨_ :: ts, last, rfl, List.forall_mem_cons.2 ⟨?_, hplaced⟩, hlast⟩
    exact (readPiece_begins hpiece).placed hstop ht rfl rfl rfl

theorem Accounts.length_raw_le (h : Accounts source stop at_ tokens) (hstop : stop ≤ source.length)
    (hat : at_ ≤ stop) : at_ + (tokens.map (·.raw.length)).sum ≤ stop := by
  induction h with
  | last _ hraw => simpa [hraw] using hat
  | @token at_ t ts _ hstart hlt hle _ hraw _ _ ih =>
    have hlength : t.raw.length = t.stop - t.start := by rw [hraw, length_slice (Nat.le_trans hle hstop)]
    have := ih hle
    rw [List.map_cons, List.sum_cons, hlength]
    omega

end

end WireSchema.Source
