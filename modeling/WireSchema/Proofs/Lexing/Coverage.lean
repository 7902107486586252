import Mathlib.Data.List.Permutation
import WireSchema.Proofs.Lexing.Gaps
import WireSchema.Proofs.Lexing.Tokens
/-!
# The tokens account for the source

Tokens and the gaps before them make up a window of the source, one after the
other. What a token says of its gap is read off the fillers of the gap, and the
window may end where the source does or before a closing brace.
-/

namespace WireSchema.Source

open Text Filler

/-! ## A token that begins in the window ends in it -/

section
variable {source rest t chunk : Text} {stop at_ more room n opened skip last : Nat} {c mark : CodePoint} {before : Gap}
  {lexeme : Lexeme} {parts : List TemplatePart}

theorem closingQuote_lt (h : closingQuote mark room t = .ok (some n)) : n < room := by
  fun_induction closingQuote mark room t generalizing n with
  | case1 | case2 | case3 | case4 | case7 => cases h
  | case5 room _ after ih =>
    obtain ⟨found, hfound, h⟩ := Except.bind_eq_ok.1 h
    obtain ⟨m, rfl, rfl⟩ := Option.map_eq_some_iff.1 (Except.ok.inj h)
    have := ih hfound
    omega
  | case6 =>
    cases h
    exact Nat.succ_pos _
  | case8 room _ _ _ _ _ ih =>
    obtain ⟨found, hfound, h⟩ := Except.bind_eq_ok.1 h
    obtain ⟨m, rfl, rfl⟩ := Option.map_eq_some_iff.1 (Except.ok.inj h)
    exact Nat.succ_lt_succ (ih hfound)

/-- A run over a template literal up to the mark that closes it. Where nothing is skipped, a
code point escapes the next one, closes the literal, opens a hole, or belongs to the chunk. -/
inductive PartsFrom (stop : Nat) : Nat → Nat → Text → Text → List TemplatePart → Nat → Prop where
  | skip {skip at_ last : Nat} {chunk rest : Text} {c : CodePoint} {parts : List TemplatePart}
    (behind : PartsFrom stop skip (at_ + 1) chunk rest parts last) :
    PartsFrom stop (skip + 1) at_ chunk (c :: rest) parts last
  | escape {at_ last : Nat} {chunk rest : Text} {parts : List TemplatePart} (before : at_ < stop)
    (behind : PartsFrom stop 1 (at_ + 1) (rest.take 1 ++ CodePoint.ofChar '\\' :: chunk) rest parts last) :
    PartsFrom stop 0 at_ chunk (CodePoint.ofChar '\\' :: rest) parts last
  | close {at_ : Nat} {chunk rest text : Text} (before : at_ < stop) (unescaped : unescape chunk.reverse = .ok text) :
    PartsFrom stop 0 at_ chunk (CodePoint.ofChar '`' :: rest) [.chunk text] at_
  | hole {at_ last close : Nat} {chunk inside text : Text} {parts : List TemplatePart} (before : at_ < stop)
    (unescaped : unescape chunk.reverse = .ok text) (closed : holeEnd stop none 0 (at_ + 2) inside = .ok close)
    (behind : PartsFrom stop (close - at_) (at_ + 1) [] (CodePoint.ofChar '\x7b' :: inside) parts last) :
    PartsFrom stop 0 at_ chunk (CodePoint.ofChar '$' :: CodePoint.ofChar '\x7b' :: inside)
      (.chunk text :: .hole (at_ + 2) close :: parts) last
  | plain {at_ last : Nat} {chunk rest : Text} {c : CodePoint} {parts : List TemplatePart} (before : at_ < stop)
    (slash : c ≠ '\\') (quote : c ≠ '`') (bare : ¬ (c = '$' ∧ rest.head? = some (CodePoint.ofChar '\x7b')))
    (behind : PartsFrom stop 0 (at_ + 1) (c :: chunk) rest parts last) : PartsFrom stop 0 at_ chunk (c :: rest) parts last

theorem PartsFrom.templateParts_eq (h : PartsFrom stop skip at_ chunk t parts last) :
    templateParts opened stop skip at_ chunk t = .ok (parts, last) := by
  induction h with
  | skip _ ih => exact ih
  | escape hat _ ih =>
    rw [templateParts, if_neg (Nat.not_le_of_lt hat), if_pos rfl]
    exact ih
  | close hat htext =>
    have hslash : ¬ CodePoint.ofChar '`' = CodePoint.ofChar '\\' := by decide
    rw [templateParts, if_neg (Nat.not_le_of_lt hat), if_neg hslash, if_pos rfl, htext]
    rfl
  | hole hat htext hclose _ ih =>
    have hslash : ¬ CodePoint.ofChar '$' = CodePoint.ofChar '\\' := by decide
    have hquote : ¬ CodePoint.ofChar '$' = CodePoint.ofChar '`' := by decide
    rw [templateParts, if_neg (Nat.not_le_of_lt hat), if_neg hslash, if_neg hquote, if_pos ⟨rfl, rfl⟩, htext]
    simp only [List.drop_one, List.tail_cons, hclose, Except.mapError, bind, Except.bind, ih]
    rfl
  | plain hat hslash hquote hbare _ ih =>
    rw [templateParts, if_neg (Nat.not_le_of_lt hat), if_neg hslash, if_neg hquote, if_neg hbare]
    exact ih

/-- The parts of a template literal are found where a run goes up to the mark that closes it. -/
theorem templateParts_eq_ok :
    templateParts opened stop skip at_ chunk t = .ok (parts, last) ↔ PartsFrom stop skip at_ chunk t parts last := by
  refine ⟨fun h => ?_, PartsFrom.templateParts_eq⟩
  -- by induction on the text; the tests of the scan come in the order of the rules
  induction t generalizing skip at_ chunk parts last with
  | nil =>
    rw [templateParts] at h
    split at h <;> cases h
  | cons c rest ih =>
    cases skip with
    | succ skip => exact .skip (ih h)
    | zero =>
      rw [templateParts.eq_3] at h
      by_cases hstop : stop ≤ at_
      · rw [if_pos hstop] at h
        cases h
      have hat := Nat.lt_of_not_le hstop
      rw [if_neg hstop] at h
      by_cases hslash : c = '\\'
      · rw [if_pos hslash] at h
        subst hslash
        exact .escape hat (ih h)
      rw [if_neg hslash] at h
      by_cases hquote : c = '`'
      · rw [if_pos hquote] at h
        subst hquote
        obtain ⟨text, htext, h⟩ := Except.bind_eq_ok.1 h
        cases h
        exact .close hat (Except.mapError_eq_ok.1 htext)
      rw [if_neg hquote] at h
      by_cases hhole : c = '$' ∧ rest.head? = some (CodePoint.ofChar '\x7b')
      · rw [if_pos hhole] at h
        obtain ⟨rfl, hbrace⟩ := hhole
        obtain ⟨inside, rfl⟩ := List.head?_eq_some_iff.1 hbrace
        obtain ⟨text, htext, h⟩ := Except.bind_eq_ok.1 h
        obtain ⟨close, hclose, h⟩ := Except.bind_eq_ok.1 h
        obtain ⟨⟨others, found⟩, hothers, h⟩ := Except.bind_eq_ok.1 h
        cases h
        exact .hole hat (Except.mapError_eq_ok.1 htext) hclose (ih hothers)
      · rw [if_neg hhole] at h
        exact .plain hat hslash hquote hhole (ih h)

theorem PartsFrom.last_le (h : PartsFrom stop skip at_ chunk t parts last) : at_ + skip ≤ last ∧ last < stop := by
  induction h with
  | skip _ ih | escape _ _ ih | hole _ _ _ _ ih | plain _ _ _ _ _ ih => omega
  | close hat => exact ⟨Nat.le_refl _, hat⟩

/-- The mark that closes a template stands in the window, behind what is skipped. -/
theorem templateParts_last (h : templateParts opened stop skip at_ chunk t = .ok (parts, last)) :
    at_ + skip ≤ last ∧ last < stop :=
  (templateParts_eq_ok.1 h).last_le

/-- A closing brace ends a number. -/
theorem EndsWindow.breaks (h : EndsWindow source stop) : Breaks (source.drop stop) := by
  intro d hd
  rw [h.head? hd]
  decide

/-- A closing brace ends a word. -/
theorem EndsWindow.stays (h : EndsWindow source stop) : Stays CodePoint.continuesWord (source.drop stop) := by
  intro d hd
  rw [h.head? hd]
  decide

theorem Begins.fits (hends : EndsWindow source stop) (hat : at_ < stop) (htext : source.drop at_ = c :: rest)
    (h : Begins stop at_ before c rest (.token lexeme more)) : at_ + more + 1 ≤ stop ∧ lexeme ≠ .endOfInput := by
  have hrest : rest = slice source (at_ + 1) stop ++ source.drop stop := by
    rw [← drop_eq_slice_append hat, ← Nat.add_one, ← List.drop_drop, htext]
    rfl
  have hwhole : c :: rest = slice source at_ stop ++ source.drop stop := by
    rw [← drop_eq_slice_append (Nat.le_of_lt hat), htext]
  cases h with
  | block _ _ hread => exact absurd hread blockComment_ne_token
  | string hclose =>
    have := closingQuote_lt hclose
    exact ⟨by omega, nofun⟩
  | template hparts =>
    have := templateParts_last hparts
    exact ⟨by omega, nofun⟩
  | number hlength =>
    have hle := numberLength_le (slice source at_ stop)
    rw [hwhole, numberLength_append hends.breaks.ends] at hlength
    rw [length_slice hends.le] at hle
    exact ⟨by omega, nofun⟩
  | word =>
    have hle := runLength_le CodePoint.continuesWord (slice source (at_ + 1) stop)
    rw [length_slice hends.le] at hle
    rw [hrest, runLength_append hends.stays]
    exact ⟨by omega, nofun⟩
  | dots hstart =>
    rw [← htext] at hstart
    exact ⟨hends.fits (Nat.le_of_lt hat) (by decide) hstart, nofun⟩
  | arrow hstart =>
    rw [← htext] at hstart
    exact ⟨hends.fits (Nat.le_of_lt hat) (by decide) hstart, nofun⟩
  | mark => exact ⟨hat, nofun⟩

end

/-! ## The window token by token -/

/-- What a token says of the gap before it. White space and comments fill the gap,
and the documentation is what they hold of it. -/
structure Token.Follows (t : Token) (gap : Text) : Prop where
  filled : ∃ fs, Fills t.isEnd fs ∧ texts fs = gap
  docs : ∀ fs, Fills t.isEnd fs → texts fs = gap → t.docs = Filler.docs fs
  space : t.spaceBefore = true ↔ gap ≠ []
  lineBreak : t.isEnd = false → (t.lineBreak = true ↔ CodePoint.ofChar '\n' ∈ gap)

/-- The tokens account for the source from `at_` up to the end of the window. -/
inductive Accounts (source : Text) (stop : Nat) : Nat → List Token → Prop where
  | last {at_ : Nat} {t : Token} : t.isEnd = true → t.raw = [] → t.start = stop → t.stop = stop →
    t.Follows (slice source at_ stop) → Accounts source stop at_ [t]
  | token {at_ : Nat} {t : Token} {ts : List Token} : t.isEnd = false → at_ ≤ t.start → t.start < t.stop →
    t.stop ≤ stop → t.raw ≠ [] → t.raw = slice source t.start t.stop → t.Follows (slice source at_ t.start) →
    Accounts source stop t.stop ts → Accounts source stop at_ (t :: ts)

/-- The gap with more fillers. -/
def Gap.fillAll (before : Gap) (fs : List Filler) : Gap := fs.foldl Gap.fill before

section
variable {source rest t : Text} {stop at_ : Nat} {c : CodePoint} {before : Gap} {fs : List Filler} {token : Token}
  {tokens ts : List Token}

theorem docs_fillAll : (before.fillAll fs).docs = before.docs ++ Filler.docs fs := by
  induction fs generalizing before with
  | nil => simp [Gap.fillAll, Filler.docs]
  | cons f fs ih =>
    have hstep := @ih (before.fill f)
    rw [Gap.fillAll] at hstep ⊢
    rw [List.foldl_cons, hstep, Gap.fill, List.append_assoc]
    cases hdoc : f.doc? <;> simp [Filler.docs, hdoc]

theorem space_fillAll : (before.fillAll fs).space = (before.space || !fs.isEmpty) := by
  induction fs generalizing before with
  | nil => simp [Gap.fillAll]
  | cons f fs ih =>
    have hstep := @ih (before.fill f)
    rw [Gap.fillAll] at hstep ⊢
    rw [List.foldl_cons, hstep]
    simp [Gap.fill]

theorem lineBreak_fillAll : (before.fillAll fs).lineBreak = (before.lineBreak || (texts fs).contains '\n') := by
  induction fs generalizing before with
  | nil => simp [Gap.fillAll]
  | cons f fs ih =>
    have hstep := @ih (before.fill f)
    rw [Gap.fillAll] at hstep ⊢
    rw [List.foldl_cons, hstep, Gap.fill, texts_cons, List.contains_append]
    simp only [Bool.or_assoc]

/-- Where the first token stands behind `at_`, and that the others account for
the source behind it. -/
inductive Stands (source : Text) (stop at_ : Nat) (token : Token) : List Token → Prop where
  | last : token.isEnd = true → token.raw = [] → token.start = stop → token.stop = stop →
    Stands source stop at_ token []
  | before {ts : List Token} : token.isEnd = false → at_ ≤ token.start → token.start < token.stop →
    token.stop ≤ stop → token.raw ≠ [] → token.raw = slice source token.start token.stop →
    Accounts source stop token.stop ts → Stands source stop at_ token ts

/-- How the tokens go on where a gap has been read so far: with fillers up to the
first token, which is told of all of them. -/
structure GoesOn (source : Text) (stop at_ : Nat) (before : Gap) (token : Token) (ts : List Token)
    (fs : List Filler) : Prop where
  fills : Fills token.isEnd fs
  texts : texts fs = slice source at_ token.start
  docs : token.docs = (before.fillAll fs).docs
  space : token.spaceBefore = (before.fillAll fs).space
  lineBreak : token.isEnd = false → token.lineBreak = (before.fillAll fs).lineBreak
  first : at_ < stop → source[at_]? = some (CodePoint.ofChar '\n') → fs.head? = some (.blank '\n')
  stands : Stands source stop at_ token ts

theorem GoesOn.accounts (h : GoesOn source stop at_ {} token ts fs) : Accounts source stop at_ (token :: ts) := by
  have hspace : token.spaceBefore = true ↔ slice source at_ token.start ≠ [] := by
    rw [h.space, space_fillAll, ← h.texts]
    cases fs with
    | nil => simp
    | cons f fs => simp [f.text_ne_nil]
  have hfollows : token.Follows (slice source at_ token.start) :=
    { filled := ⟨fs, h.fills, h.texts⟩
      docs := by
        intro gs hfills htexts
        rw [h.docs, docs_fillAll, h.fills.unique hfills (h.texts.trans htexts.symm)]
        rfl
      space := hspace
      lineBreak := by
        intro hend
        rw [h.lineBreak hend, lineBreak_fillAll, ← h.texts]
        simp }
  cases h.stands with
  | last hend hraw hstart hstop => exact .last hend hraw hstart hstop (hstart ▸ hfollows)
  | before hend hat hlt hle hne hraw haccounts => exact .token hend hat hlt hle hne hraw hfollows haccounts

/-- Only the end stands behind the window. -/
theorem Stands.end_of_le (h : Stands source stop at_ token ts) (hle : stop ≤ at_) :
    token.isEnd = true ∧ token.start = stop := by
  cases h with
  | last hend _ hstart => exact ⟨hend, hstart⟩
  | before _ hat hlt hstop => omega

theorem Stands.le_start (h : Stands source stop at_ token ts) (hle : at_ ≤ stop) : at_ ≤ token.start := by
  cases h with
  | last _ _ hstart => exact hstart ▸ hle
  | before _ hstart => exact hstart

theorem Stands.of_le {first : Nat} (h : Stands source stop at_ token ts) (hle : first ≤ at_) :
    Stands source stop first token ts := by
  cases h with
  | last hend hraw hstart hstop => exact .last hend hraw hstart hstop
  | before hend hstart hlt hle' hne hraw haccounts =>
    exact .before hend (Nat.le_trans hle hstart) hlt hle' hne hraw haccounts

/-- One filler more in front. -/
theorem GoesOn.fill {next : Nat} {f : Filler} (hnext : at_ < next)
    (hfound : FoundAt source stop at_ next f) (hfeed : source[at_]? = some (CodePoint.ofChar '\n') → f = .blank '\n')
    (h : GoesOn source stop next (before.fill f) token ts fs) : GoesOn source stop at_ before token ts (f :: fs) where
  fills := by
    refine ⟨hfound.proper, fun hline => ?_, h.fills⟩
    by_cases hle : stop ≤ next
    · obtain ⟨hend, hstart⟩ := h.stands.end_of_le hle
      have hnil : Filler.texts fs = [] := by rw [h.texts, hstart, slice_eq_nil hle]
      exact .inr ⟨hend, texts_eq_nil hnil⟩
    · exact .inl (h.first (Nat.lt_of_not_le hle) ((hfound.line hline).resolve_left hle))
  texts := by
    rw [texts_cons, hfound.text, h.texts]
    by_cases hle : next ≤ stop
    · rw [Nat.min_eq_left hle, ← slice_add (Nat.le_of_lt hnext) (h.stands.le_start hle)]
    · have hle := Nat.le_of_not_le hle
      rw [Nat.min_eq_right hle, (h.stands.end_of_le hle).2, slice_eq_nil hle, List.append_nil]
  docs := h.docs
  space := h.space
  lineBreak := h.lineBreak
  first _ hhead := by rw [hfeed hhead, List.head?_cons]
  stands := h.stands.of_le (Nat.le_of_lt hnext)

theorem drop_behind (htext : c :: rest = source.drop at_) (more : Nat) :
    rest.drop more = source.drop (at_ + more + 1) := by
  rw [Nat.add_assoc, ← List.drop_drop, ← htext]
  rfl

theorem take_behind (htext : c :: rest = source.drop at_) (more : Nat) :
    c :: rest.take more = slice source at_ (at_ + more + 1) := by
  have hlength : at_ + more + 1 - at_ = more + 1 := by omega
  rw [slice, ← htext, hlength, List.take_succ_cons]

theorem getElem?_first (htext : c :: rest = source.drop at_) : source[at_]? = some c := by
  rw [← Nat.add_zero at_, ← List.getElem?_drop, ← htext]
  rfl

/-- No token begins with a line feed. -/
theorem ne_feed_of_token {lexeme : Lexeme} {more : Nat}
    (h : readPiece stop at_ before c rest = .ok (.token lexeme more)) : c ≠ CodePoint.ofChar '\n' := by
  rintro rfl
  have hblank : (CodePoint.ofChar '\n').isBlank = true := by decide
  exact Bool.false_ne_true ((readPiece_eq_token.1 h).1.blank.symm.trans hblank)

/-- What stands from an offset on is gone through filler by filler, up to a token. -/
theorem tokensFrom_goesOn (hends : EndsWindow source stop) (htext : t = source.drop at_)
    (h : tokensFrom stop at_ before t = .ok tokens) :
    ∃ token ts fs, tokens = token :: ts ∧ GoesOn source stop at_ before token ts fs := by
  rw [tokensFrom_eq_ok] at h
  induction h with
  | ended hstop =>
    exact ⟨_, [], [], rfl, trivial, (slice_eq_nil hstop).symm, rfl, rfl,
      fun hend => (by cases hend), fun hlt => absurd hstop (Nat.not_le_of_lt hlt), .last rfl rfl rfl rfl⟩
  | @gap at_ more _ _ c _ _ hat hpiece _ ih =>
    obtain ⟨f, rfl, hfound, hblank⟩ := (readPiece_begins hpiece).found hends hat htext.symm
    obtain ⟨token, ts, fs, rfl, hgoes⟩ := ih (drop_behind htext more)
    refine ⟨token, ts, f :: fs, rfl, hgoes.fill (by omega) hfound fun hhead => ?_⟩
    have hc : c = CodePoint.ofChar '\n' := Option.some.inj ((getElem?_first htext).symm.trans hhead)
    rw [hblank (hc ▸ by decide), hc]
  | @token at_ more _ c _ _ _ hat hpiece _ ih =>
    obtain ⟨hfits, hlexeme⟩ := (readPiece_begins hpiece).fits hends hat htext.symm
    obtain ⟨token, ts, fs, rfl, hgoes⟩ := ih (drop_behind htext more)
    have hlt : at_ < at_ + more + 1 := Nat.lt_succ_of_le (Nat.le_add_right at_ more)
    refine ⟨_, _, [], rfl, trivial, (slice_eq_nil (Nat.le_refl _)).symm, rfl, rfl, fun _ => rfl, fun _ hhead => ?_,
      .before (beq_eq_false_iff_ne.2 hlexeme) (Nat.le_refl _) hlt hfits (List.cons_ne_nil _ _)
        (take_behind htext more) hgoes.accounts⟩
    have hc : c = CodePoint.ofChar '\n' := Option.some.inj ((getElem?_first htext).symm.trans hhead)
    exact absurd hc (ne_feed_of_token hpiece)

/-- The tokens of a window account for every code point of it, where the window
ends with the source or before a closing brace. -/
theorem tokenize_accounts (hends : EndsWindow source stop) (h : tokenize source at_ stop = .ok tokens) :
    Accounts source stop at_ tokens := by
  obtain ⟨token, ts, fs, rfl, hgoes⟩ := tokensFrom_goesOn hends rfl h
  exact hgoes.accounts

/-- The hole of a template literal, with documentation and the end of a line in it. -/
theorem tokenize_accounts_hole :
    let source : Text := "x$\x7b /** of a */ a // and\n| b \x7d"
    EndsWindow source 29 ∧ Accounts source 29 3
      [{ lexeme := .word, raw := "a", start := 16, stop := 17, spaceBefore := true, lineBreak := false,
         docs := ["/** of a */"] },
       { lexeme := .mark, raw := "|", start := 25, stop := 26, spaceBefore := true, lineBreak := true, docs := [] },
       { lexeme := .word, raw := "b", start := 27, stop := 28, spaceBefore := true, lineBreak := false, docs := [] },
       { lexeme := .endOfInput, raw := [], start := 29, stop := 29, spaceBefore := true, lineBreak := true,
         docs := [] }] :=
  ⟨.inr (by decide), tokenize_accounts (.inr (by decide)) (by cbv)⟩

end

end WireSchema.Source
