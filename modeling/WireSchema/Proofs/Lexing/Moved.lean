import WireSchema.Proofs.Lexing.Apart
/-!
# Windows in a longer source

The tokens of a window are the same wherever its code points stand, if what
comes behind them ends a token: they only stand so much later. Only the first
of them is told of a gap that came before.
-/

namespace WireSchema.Source

open Text

/-- The token so many code points later. -/
def Token.later (k : Nat) (t : Token) : Token :=
  { t with lexeme := t.lexeme.later k, start := t.start + k, stop := t.stop + k }

/-- The token behind more white space, with the end of a line in it if `line` is set. -/
def Token.widen (line : Bool) (t : Token) : Token := { t with spaceBefore := true, lineBreak := line || t.lineBreak }

/-- The piece so many code points later. -/
def Piece.later (k : Nat) : Piece → Piece
  | .gap found more => .gap found more
  | .token lexeme more => .token (lexeme.later k) more

/-- How many code points the piece takes behind the first one. -/
def Piece.more : Piece → Nat
  | .gap _ more => more
  | .token _ more => more

/-- The code points that end a token wherever they stand behind it. -/
def tokenBreaks : Text := " \n;)[\x7d"

/-- The text is empty or begins with what ends a token. -/
def Parted (s : Text) : Prop := ∀ c, s.head? = some c → c ∈ tokenBreaks

section
variable {source t w r r' rest pattern : Text} {stop stop' at_ b i n more k : Nat} {c : CodePoint} {before gap : Gap}
  {lexeme : Lexeme} {piece : Piece} {tokens ts us : List Token} {u final : Token}

theorem parted_nil : Parted [] := nofun

theorem parted_cons (h : c ∈ tokenBreaks) (rest : Text) : Parted (c :: rest) := by
  rintro d ⟨⟩
  exact h

theorem Parted.stays {p : CodePoint → Bool} (h : Parted r) (hp : ∀ c ∈ tokenBreaks, p c = false) : Stays p r :=
  fun c hc => hp c (h c hc)

theorem Parted.apart (h : Parted r) : Stays runsOn r := h.stays (by decide)

theorem Parted.word (h : Parted r) : Stays CodePoint.continuesWord r := h.stays (by decide)

theorem EndsWindow.parted (h : EndsWindow source stop) : Parted (source.drop stop) := by
  intro c hc
  rw [h.head? hc]
  decide

/-! ## Pieces -/

theorem indexOf?_within (hle : n + pattern.length ≤ w.length) (h : indexOf? pattern (w ++ r) = some n) :
    indexOf? pattern (w ++ r') = some n := by
  induction w generalizing n with
  | nil =>
    rw [List.length_nil] at hle
    obtain rfl : n = 0 := by omega
    obtain rfl : pattern = [] := List.length_eq_zero_iff.1 (by omega)
    cases r' <;> rfl
  | cons c w ih =>
    have hfits (r : Text) : startsWith (c :: (w ++ r)) pattern = startsWith (c :: w) pattern :=
      startsWith_of_length_le (t := c :: w) (by omega) r
    rw [List.cons_append, indexOf?, hfits] at h
    rw [List.cons_append, indexOf?, hfits]
    split at h
    next hstart => rw [if_pos hstart, h]
    next hstart =>
      obtain ⟨m, hm, rfl⟩ := Option.map_eq_some_iff.1 h
      rw [List.length_cons] at hle
      rw [if_neg hstart, ih (by omega) hm]
      rfl

theorem blockComment_within (hr : Parted r) (hr' : Parted r') (hw : at_ + 1 + w.length = stop) (hle : b + 1 + w.length ≤ stop')
    (hstart : startsWith (c :: w) "/*" = true) (h : blockComment stop at_ gap (c :: (w ++ r)) = .ok piece) :
    blockComment stop' b gap (c :: (w ++ r')) = .ok piece := by
  obtain ⟨inside, hinside⟩ := eq_append_of_startsWith hstart
  have hopen : c :: w = CodePoint.ofChar '/' :: CodePoint.ofChar '*' :: inside := hinside
  obtain ⟨rfl, rfl⟩ := List.cons.inj hopen
  rw [List.length_cons] at hw hle
  have hdoc {r : Text} (hr : Parted r) : startsWith (CodePoint.ofChar '/' :: CodePoint.ofChar '*' :: (inside ++ r)) "/**" =
      startsWith (CodePoint.ofChar '/' :: CodePoint.ofChar '*' :: inside) "/**" :=
    startsWith_within hr.apart (by decide) (CodePoint.ofChar '/' :: CodePoint.ofChar '*' :: inside)
  have hshort {r : Text} (hr : Parted r) : startsWith (CodePoint.ofChar '/' :: CodePoint.ofChar '*' :: (inside ++ r)) "/**/" =
      startsWith (CodePoint.ofChar '/' :: CodePoint.ofChar '*' :: inside) "/**/" :=
    startsWith_within hr.apart (by decide) (CodePoint.ofChar '/' :: CodePoint.ofChar '*' :: inside)
  simp only [blockComment, List.cons_append, List.drop_succ_cons, List.drop_zero, hdoc hr, hshort hr] at h
  simp only [blockComment, List.cons_append, List.drop_succ_cons, List.drop_zero, hdoc hr', hshort hr']
  cases hindex : indexOf? "*/" (inside ++ r) with
  | none => simp [hindex] at h
  | some n =>
    simp only [hindex] at h
    split at h
    · cases h
    next hroom =>
      have hfits : n + 2 ≤ inside.length := by omega
      have htake (r : Text) : (inside ++ r).take (n + 2) = inside.take (n + 2) :=
        List.take_append_of_le_length hfits
      rw [indexOf?_within (by simpa [Text.ofString] using hfits) hindex]
      simp only [List.take_succ_cons, htake] at h ⊢
      rw [if_neg (by omega)]
      cases h
      rfl

theorem lineComment_within (hfeed : CodePoint.ofChar '\n' ∈ w) :
    lineComment stop' b gap (c :: (w ++ r')) = lineComment stop at_ gap (c :: (w ++ r)) := by
  have hne : ((c :: w).takeWhile (· ≠ CodePoint.ofChar '\n')).length ≠ (c :: w).length := by
    intro heq
    have hwhole := (List.takeWhile_sublist (l := c :: w) (· ≠ CodePoint.ofChar '\n')).eq_of_length heq
    have hall := List.all_takeWhile (l := c :: w) (p := (· ≠ CodePoint.ofChar '\n'))
    rw [hwhole] at hall
    simpa using List.all_eq_true.1 hall _ (List.mem_cons_of_mem c hfeed)
  have hle := (List.takeWhile_sublist (l := c :: w) (· ≠ CodePoint.ofChar '\n')).length_le
  have hcut (r : Text) : (c :: (w ++ r)).takeWhile (· ≠ CodePoint.ofChar '\n') =
      (c :: w).takeWhile (· ≠ CodePoint.ofChar '\n') := by
    rw [← List.cons_append, List.takeWhile_append, if_neg hne]
  have hlt (r : Text) : ((c :: w).takeWhile (· ≠ CodePoint.ofChar '\n')).length ≠ (c :: (w ++ r)).length := by
    rw [← List.cons_append, List.length_append]
    omega
  simp only [lineComment, hcut, if_neg (hlt _)]

theorem readPiece_line (h : startsWith (c :: rest) "//" = true) :
    readPiece stop at_ before c rest = .ok (lineComment stop at_ before (c :: rest)) := by
  obtain ⟨inside, hinside⟩ := eq_append_of_startsWith h
  have hopen : c :: rest = CodePoint.ofChar '/' :: CodePoint.ofChar '/' :: inside := hinside
  obtain ⟨rfl, rfl⟩ := List.cons.inj hopen
  have hblank : (CodePoint.ofChar '/').isBlank = false := by decide
  have hblock : startsWith (CodePoint.ofChar '/' :: CodePoint.ofChar '/' :: inside) "/*" = false := rfl
  unfold readPiece
  simp only [hblank, hblock, h, Bool.false_eq_true, if_false, if_true]

/-- A token that begins in a window ends in it, where what comes behind the window ends a token. -/
theorem readPiece_fits (hr : Parted r) (hw : at_ + 1 + w.length = stop)
    (h : readPiece stop at_ gap c (w ++ r) = .ok (.token lexeme more)) : more ≤ w.length := by
  generalize hpiece : Piece.token lexeme more = piece at h
  cases readPiece_begins h with
  | blank => cases hpiece
  | line => cases hpiece
  | block _ _ hread =>
    subst hpiece
    exact absurd hread blockComment_ne_token
  | string hclose =>
    cases hpiece
    have := closingQuote_lt hclose
    omega
  | template hparts =>
    cases hpiece
    have := templateParts_last hparts
    omega
  | number hlength =>
    cases hpiece
    have hcut : numberLength (c :: (w ++ r)) = numberLength (c :: w) :=
      numberLength_append (not_continuesNumber hr.apart) (c :: w)
    have hle := numberLength_le (c :: w)
    rw [List.length_cons] at hle
    omega
  | word =>
    cases hpiece
    rw [runLength_append hr.word]
    exact runLength_le _ w
  | dots hstart =>
    cases hpiece
    have hcut : startsWith (c :: (w ++ r)) "..." = startsWith (c :: w) "..." := startsWith_within hr.apart (by decide) (c :: w)
    obtain ⟨rest, hrest⟩ := eq_append_of_startsWith (hcut ▸ hstart)
    have hlength := congrArg List.length hrest
    have hlong : (Text.ofString "...").length = 3 := rfl
    rw [List.length_cons, List.length_append, hlong] at hlength
    omega
  | arrow hstart =>
    cases hpiece
    have hcut : startsWith (c :: (w ++ r)) "=>" = startsWith (c :: w) "=>" := startsWith_within hr.apart (by decide) (c :: w)
    obtain ⟨rest, hrest⟩ := eq_append_of_startsWith (hcut ▸ hstart)
    have hlength := congrArg List.length hrest
    have hlong : (Text.ofString "=>").length = 2 := rfl
    rw [List.length_cons, List.length_append, hlong] at hlength
    omega
  | mark =>
    cases hpiece
    exact Nat.zero_le _

/-- What is read in a window is read wherever the window stands, before what ends a token. -/
theorem readPiece_within (hr : Parted r) (hw : at_ + 1 + w.length = stop)
    (hline : startsWith (c :: w) "//" = true → CodePoint.ofChar '\n' ∈ w)
    (h : readPiece stop at_ gap c (w ++ r) = .ok piece) :
    ∃ own : Piece, piece = own.later at_ ∧ ∀ {b stop' r'}, Parted r' → b + 1 + w.length ≤ stop' →
      readPiece stop' b gap c (w ++ r') = .ok (own.later b) := by
  cases piece with
  | token lexeme more =>
    obtain ⟨own, rfl, hown⟩ := readPiece_apart (readPiece_fits hr hw h) h
    exact ⟨.token own more, rfl, fun hr' hle => hown (by omega) hr'.apart fun _ _ => hr'.word⟩
  | gap filled more =>
    refine ⟨.gap filled more, rfl, fun {b stop' r'} hr' hle => ?_⟩
    have hblock {r : Text} (hr : Parted r) : startsWith (c :: (w ++ r)) "/*" = startsWith (c :: w) "/*" :=
      startsWith_within hr.apart (by decide) (c :: w)
    have hslashes {r : Text} (hr : Parted r) : startsWith (c :: (w ++ r)) "//" = startsWith (c :: w) "//" :=
      startsWith_within hr.apart (by decide) (c :: w)
    generalize hpiece : Piece.gap filled more = piece at h
    cases readPiece_begins h with
    | blank hblank => rw [readPiece, if_pos hblank, Piece.later]
    | block hblank hstart hread =>
      rw [hblock hr] at hstart
      rw [readPiece, hblank, if_neg Bool.false_ne_true, hblock hr', if_pos hstart]
      subst hpiece
      exact blockComment_within hr hr' hw hle hstart hread
    | line hblank hstart =>
      rw [hslashes hr] at hstart
      rw [readPiece_line ((hslashes hr').trans hstart), lineComment_within (hline hstart)]
      rfl
    | _ => cases hpiece

/-! ## Tokens -/

@[simp] theorem Token.later_zero (t : Token) : t.later 0 = t := by
  have hpart (part : TemplatePart) : part.later 0 = part := by cases part <;> rfl
  have hparts (parts : List TemplatePart) : parts.map (·.later 0) = parts := by
    rw [List.map_congr_left fun part _ => hpart part, List.map_id']
  obtain ⟨lexeme, raw, start, stop, spaceBefore, lineBreak, docs⟩ := t
  cases lexeme <;> simp [Token.later, Lexeme.later, hparts]

@[simp] theorem Token.raw_later (k : Nat) (t : Token) : (t.later k).raw = t.raw := rfl

@[simp] theorem Token.spaceBefore_later (k : Nat) (t : Token) : (t.later k).spaceBefore = t.spaceBefore := rfl

@[simp] theorem Token.lineBreak_later (k : Nat) (t : Token) : (t.later k).lineBreak = t.lineBreak := rfl

@[simp] theorem Token.docs_later (k : Nat) (t : Token) : (t.later k).docs = t.docs := rfl

/-- A comment that runs behind the window ends it. -/
theorem lineComment_ends (hw : at_ + 1 + w.length = stop) (hnone : CodePoint.ofChar '\n' ∉ c :: w)
    (h : lineComment stop at_ before (c :: (w ++ r)) = .gap gap more) :
    gap = { before with space := true } ∧ stop ≤ at_ + more + 1 := by
  have hcut : ((c :: (w ++ r)).takeWhile (· ≠ CodePoint.ofChar '\n')).length =
      (c :: w).length + (r.takeWhile (· ≠ CodePoint.ofChar '\n')).length := by
    have hall : ∀ d ∈ c :: w, decide (d ≠ CodePoint.ofChar '\n') = true :=
      fun d hd => decide_eq_true fun heq => hnone (heq ▸ hd)
    rw [← List.cons_append, List.takeWhile_append_of_pos hall, List.length_append]
  simp only [lineComment, hcut] at h
  obtain ⟨rfl, rfl⟩ := Piece.gap.inj h
  refine ⟨rfl, ?_⟩
  simp only [List.length_cons]
  split <;> omega

theorem slice_succ (hat : at_ < stop) (ht : c :: rest = source.drop at_) :
    slice source at_ stop = c :: slice source (at_ + 1) stop ∧ rest = slice source (at_ + 1) stop ++ source.drop stop := by
  have hrest := drop_succ_of_drop ht
  obtain ⟨m, hm⟩ : ∃ m, stop - at_ = m + 1 := ⟨stop - at_ - 1, by omega⟩
  refine ⟨?_, ?_⟩
  · rw [slice, slice, ← ht, ← hrest, hm, List.take_succ_cons, show stop - (at_ + 1) = m by omega]
  · rw [hrest, drop_eq_slice_append hat]

/-- A piece of a window ends in it, if a line comment does. -/
theorem readPiece_inside (hends : EndsWindow source stop) (hat : at_ < stop) (ht : c :: rest = source.drop at_)
    (hline : startsWith (slice source at_ stop) "//" = true → CodePoint.ofChar '\n' ∈ slice source at_ stop)
    (h : readPiece stop at_ before c rest = .ok piece) : at_ + piece.more + 1 ≤ stop := by
  have hbegins := readPiece_begins h
  cases piece with
  | token lexeme more => exact (hbegins.fits hends hat ht.symm).1
  | gap gap more =>
    obtain ⟨f, rfl, hfound, _⟩ := hbegins.found hends hat ht.symm
    cases hf : f.isLine with
    | false => exact hfound.inside hf
    | true =>
      refine Nat.le_of_not_lt fun hlong => ?_
      have hlong : stop < at_ + more + 1 := hlong
      have htext := hfound.text
      rw [Nat.min_eq_right (Nat.le_of_lt hlong)] at htext
      cases f with
      | line inside =>
        have hfeed := hline (htext ▸ startsWith_append "//" inside)
        rw [← htext] at hfeed
        have hslash : CodePoint.ofChar '\n' ≠ CodePoint.ofChar '/' := by decide
        exact hfound.proper (by simpa [hslash] using hfeed)
      | _ => cases hf

/-- A token does not begin as a line comment does. -/
theorem feed_of_token (ht : c :: rest = source.drop at_) (hat : at_ < stop)
    (h : readPiece stop at_ before c rest = .ok (.token lexeme more))
    (hstart : startsWith (slice source at_ stop) "//" = true) : CodePoint.ofChar '\n' ∈ slice source at_ stop := by
  obtain ⟨hslice, hrest⟩ := slice_succ hat ht
  obtain ⟨inside, hinside⟩ := eq_append_of_startsWith hstart
  have hlong : startsWith (c :: rest) "//" = true := by
    rw [hrest, ← List.cons_append, ← hslice, hinside, List.append_assoc]
    exact startsWith_append _ _
  rw [readPiece_line hlong] at h
  cases h

/-- What is read in a window is read in any other source that has the window. -/
theorem readPiece_moved (hends : EndsWindow source stop) (hat : at_ < stop) (ht : c :: rest = source.drop at_)
    (hline : startsWith (slice source at_ stop) "//" = true → CodePoint.ofChar '\n' ∈ slice source at_ stop)
    (h : readPiece stop at_ before c rest = .ok piece) :
    ∃ own : Piece, piece = own.later at_ ∧
      (∀ {b stop' r'}, Parted r' → b + (stop - at_) ≤ stop' →
        readPiece stop' b before c (slice source (at_ + 1) stop ++ r') = .ok (own.later b)) ∧
      ∀ r', (slice source (at_ + 1) stop ++ r').drop piece.more = slice source (at_ + piece.more + 1) stop ++ r' ∧
        (slice source (at_ + 1) stop ++ r').take piece.more = rest.take piece.more := by
  have hfits := readPiece_inside hends hat ht hline h
  obtain ⟨hslice, hrest⟩ := slice_succ hat ht
  have hlength : (slice source (at_ + 1) stop).length = stop - (at_ + 1) := length_slice hends.le
  have hwhole : at_ + 1 + (slice source (at_ + 1) stop).length = stop := by omega
  have hslash : CodePoint.ofChar '\n' ≠ CodePoint.ofChar '/' := by decide
  have hfeed : startsWith (c :: slice source (at_ + 1) stop) "//" = true →
      CodePoint.ofChar '\n' ∈ slice source (at_ + 1) stop := fun hstart => by
    rw [hslice] at hline
    obtain ⟨inside, hinside⟩ := eq_append_of_startsWith hstart
    have hc : c = CodePoint.ofChar '/' := (List.cons.inj hinside).1
    simpa [hc, hslash] using hline hstart
  obtain ⟨own, hown, hread⟩ := readPiece_within hends.parted hwhole hfeed (hrest ▸ h)
  refine ⟨own, hown, fun hr' hle => hread hr' (by omega), fun r' => ⟨?_, ?_⟩⟩
  · have hnext : at_ + 1 + piece.more = at_ + piece.more + 1 := Nat.add_right_comm _ _ _
    have hleft : stop - (at_ + 1) - piece.more = stop - (at_ + piece.more + 1) := by omega
    rw [List.drop_append_of_le_length (by omega), slice, slice, List.drop_take, List.drop_drop, hnext, hleft]
  · rw [hrest, List.take_append_of_le_length (by omega), List.take_append_of_le_length (by omega)]

theorem tokensFrom_end (h : stop ≤ at_) :
    tokensFrom stop at_ gap t = .ok
      [{ lexeme := .endOfInput, raw := [], start := stop, stop := stop, spaceBefore := gap.space,
         lineBreak := true, docs := gap.docs }] := by
  rw [tokensFrom.eq_def, if_pos h]

/-- A line comment that runs behind the window leaves no token. -/
theorem tokensFrom_line (hw : at_ + 1 + w.length = stop) (hstart : startsWith (c :: w) "//" = true)
    (hnone : CodePoint.ofChar '\n' ∉ c :: w) :
    tokensFrom stop at_ gap (c :: (w ++ r)) = .ok [⟨.endOfInput, [], stop, stop, true, true, gap.docs⟩] := by
  have hlong : startsWith (c :: (w ++ r)) "//" = true := by
    obtain ⟨inside, hinside⟩ := eq_append_of_startsWith hstart
    rw [← List.cons_append, hinside, List.append_assoc]
    exact startsWith_append _ _
  rw [tokensFrom, if_neg (by omega), readPiece_line hlong]
  cases hcomment : lineComment stop at_ gap (c :: (w ++ r)) with
  | token lexeme more => cases hcomment
  | gap filled more =>
    obtain ⟨rfl, hbehind⟩ := lineComment_ends hw hnone hcomment
    simp only
    rw [tokensFrom_end hbehind]

/-- A run that takes more of the gap goes on alike in any other source that has the window. -/
theorem Lexes.gap_moved (hends : EndsWindow source stop) (hat : at_ < stop) (ht : c :: rest = source.drop at_)
    (hline : startsWith (slice source at_ stop) "//" = true → CodePoint.ofChar '\n' ∈ slice source at_ stop)
    (h : readPiece stop at_ gap c rest = .ok (.gap filled more)) (hr' : Parted r') (hle : b + (stop - at_) ≤ stop')
    (hbehind : Lexes stop' (b + more + 1) filled (slice source (at_ + more + 1) stop ++ r') us) :
    Lexes stop' b gap (slice source at_ stop ++ r') us := by
  obtain ⟨piece, hown, hmoved, hcut⟩ := readPiece_moved hends hat ht hline h
  cases piece with
  | token lexeme more => cases hown
  | gap filled' more' =>
    cases hown
    rw [(slice_succ hat ht).1, List.cons_append]
    have hdrop : (slice source (at_ + 1) stop ++ r').drop more = slice source (at_ + more + 1) stop ++ r' := (hcut r').1
    refine .gap (by omega) (hmoved hr' hle) ?_
    rw [hdrop]
    exact hbehind

/-- A run that takes a token takes it in any other source that has the window: what is
its own of the token does not depend on where it stands. -/
theorem Lexes.token_moved (hends : EndsWindow source stop) (hat : at_ < stop) (ht : c :: rest = source.drop at_)
    (h : readPiece stop at_ gap c rest = .ok (.token lexeme more)) :
    ∃ own : Lexeme, lexeme = own.later at_ ∧ ∀ {b stop' r' us}, Parted r' → b + (stop - at_) ≤ stop' →
      Lexes stop' (b + more + 1) {} (slice source (at_ + more + 1) stop ++ r') us →
      Lexes stop' b gap (slice source at_ stop ++ r')
        (⟨own.later b, c :: rest.take more, b, b + more + 1, gap.space, gap.lineBreak, gap.docs⟩ :: us) := by
  obtain ⟨piece, hown, hmoved, hcut⟩ := readPiece_moved hends hat ht (feed_of_token ht hat h) h
  cases piece with
  | gap filled more => cases hown
  | token own more' =>
    obtain ⟨rfl, rfl⟩ := Piece.token.inj hown
    refine ⟨own, rfl, fun {b stop' r' us} hr' hle hbehind => ?_⟩
    obtain ⟨hdrop, htake⟩ := hcut r'
    simp only [Piece.more] at hdrop htake
    rw [(slice_succ hat ht).1, List.cons_append, ← htake]
    rw [← hdrop] at hbehind
    exact .token (by omega) (hmoved hr' hle) hbehind

/-- The tokens of a window are the same in any other source that has the window,
but for where they stand. -/
theorem tokensFrom_moved (hends : EndsWindow source (n + k)) (hi : i ≤ n) (hat : at_ = i + k) (ht : t = source.drop at_)
    (h : tokensFrom (n + k) at_ gap t = .ok tokens) :
    ∃ own : List Token, tokens = own.map (·.later k) ∧ ∀ {b r'}, Parted r' →
      tokensFrom (n + b) (i + b) gap (slice source at_ (n + k) ++ r') = .ok (own.map (·.later b)) := by
  rw [tokensFrom_eq_ok] at h
  -- by induction on the run; the place and the end of the window are moved together
  induction h generalizing i with
  | @ended at_ gap t hend =>
    obtain rfl : i = n := by omega
    refine ⟨[⟨.endOfInput, [], i, i, gap.space, true, gap.docs⟩], rfl, fun {b r'} _ => ?_⟩
    rw [tokensFrom_end (Nat.le_refl _)]
    rfl
  | @gap at_ more gap filled c rest tokens hlt hpiece hbehind ih =>
    by_cases hrun : startsWith (slice source at_ (n + k)) "//" = true ∧ CodePoint.ofChar '\n' ∉ slice source at_ (n + k)
    · -- the comment runs to the end of both windows
      obtain ⟨hslice, hrest⟩ := slice_succ hlt ht
      have hlength : (slice source (at_ + 1) (n + k)).length = n + k - (at_ + 1) := length_slice hends.le
      rw [hslice] at hrun
      have hwhole := tokensFrom_eq_ok.2 (.gap hlt hpiece hbehind)
      rw [hrest, tokensFrom_line (by omega) hrun.1 hrun.2] at hwhole
      cases hwhole
      refine ⟨[⟨.endOfInput, [], n, n, true, true, gap.docs⟩], rfl, fun {b r'} _ => ?_⟩
      rw [hslice, List.cons_append, tokensFrom_line (by omega) hrun.1 hrun.2]
      rfl
    · have hline : startsWith (slice source at_ (n + k)) "//" = true →
          CodePoint.ofChar '\n' ∈ slice source at_ (n + k) :=
        fun hstart => Decidable.not_not.1 fun hnone => hrun ⟨hstart, hnone⟩
      have hfits : at_ + more + 1 ≤ n + k := readPiece_inside hends hlt ht hline hpiece
      obtain ⟨own, htokens, hread⟩ := ih (i := i + more + 1) (by omega) (by omega) (drop_behind ht more)
      refine ⟨own, htokens, fun {b r'} hr' => tokensFrom_eq_ok.2 ?_⟩
      refine .gap_moved hends hlt ht hline hpiece hr' (by omega) ?_
      rw [show i + b + more + 1 = i + more + 1 + b by omega]
      exact tokensFrom_eq_ok.1 (hread hr')
  | @token at_ more gap c rest lexeme tokens hlt hpiece hbehind ih =>
    have hfits : at_ + more + 1 ≤ n + k := readPiece_inside hends hlt ht (feed_of_token ht hlt hpiece) hpiece
    obtain ⟨lexeme, rfl, hmoved⟩ := Lexes.token_moved hends hlt ht hpiece
    obtain ⟨own, rfl, hread⟩ := ih (i := i + more + 1) (by omega) (by omega) (drop_behind ht more)
    refine ⟨⟨lexeme.later i, c :: rest.take more, i, i + more + 1, gap.space, gap.lineBreak, gap.docs⟩ :: own, ?_,
      fun {b r'} hr' => tokensFrom_eq_ok.2 ?_⟩
    · rw [List.map_cons, Token.later, Lexeme.later_later, ← hat, show i + more + 1 + k = at_ + more + 1 by omega]
    · rw [List.map_cons, Token.later, Lexeme.later_later, show i + more + 1 + b = i + b + more + 1 by omega]
      refine hmoved hr' (by omega) ?_
      rw [show i + b + more + 1 = i + more + 1 + b by omega]
      exact tokensFrom_eq_ok.1 (hread hr')

/-- The tokens of a window stand in a longer source. -/
theorem tokensFrom_within (hends : EndsWindow source stop) (hr' : Parted r') (hat : at_ ≤ stop) (ht : t = source.drop at_)
    (h : tokensFrom stop at_ gap t = .ok tokens) :
    tokensFrom (stop + k) (at_ + k) gap (slice source at_ stop ++ r') = .ok (tokens.map (·.later k)) := by
  obtain ⟨own, rfl, hread⟩ := tokensFrom_moved (k := 0) hends hat rfl ht h
  simp only [Token.later_zero, List.map_id'] at hread ⊢
  exact hread hr'

theorem slice_length (source : Text) (at_ : Nat) : slice source at_ source.length = source.drop at_ := by
  rw [slice, List.take_of_length_le (by rw [List.length_drop])]

/-- The tokens of a source that ends with a token stand in a longer source, and
reading goes on behind them. -/
theorem tokensFrom_behind (hr' : Parted r') (hle : source.length + k ≤ stop') (hgap : gap.space = false → gap = {})
    (hat : at_ ≤ source.length) (ht : t = source.drop at_) (h : tokensFrom source.length at_ gap t = .ok tokens)
    (hlast : ∀ last, tokens.getLast? = some last → last.spaceBefore = false)
    (hrest : tokensFrom stop' (source.length + k) {} r' = .ok us) :
    tokensFrom stop' (at_ + k) gap (t ++ r') = .ok (tokens.dropLast.map (·.later k) ++ us) := by
  have hends : EndsWindow source source.length := .inl rfl
  rw [tokensFrom_eq_ok] at h hrest ⊢
  induction h with
  | @ended at_ gap t hend =>
    obtain rfl : at_ = source.length := Nat.le_antisymm hat hend
    obtain rfl : gap = {} := hgap (hlast _ rfl)
    rw [ht, List.drop_length]
    exact hrest
  | @gap at_ more gap filled c rest tokens hlt hpiece hbehind ih =>
    have hline : startsWith (slice source at_ source.length) "//" = true →
        CodePoint.ofChar '\n' ∈ slice source at_ source.length := by
      intro hstart
      refine Decidable.not_not.1 fun hnone => ?_
      -- the comment would stand behind the last token
      obtain ⟨hslice, hsplit⟩ := slice_succ hlt ht
      have hlength : (slice source (at_ + 1) source.length).length = source.length - (at_ + 1) := length_slice hends.le
      rw [hslice] at hstart hnone
      have hwhole := tokensFrom_eq_ok.2 (.gap hlt hpiece hbehind)
      rw [hsplit, tokensFrom_line (by omega) hstart hnone] at hwhole
      cases hwhole
      cases hlast _ rfl
    have hfits := readPiece_inside hends hlt ht hline hpiece
    obtain ⟨f, rfl, _⟩ := (readPiece_begins hpiece).found hends hlt ht.symm
    have hnext := ih (fun hspace => absurd hspace (Bool.false_ne_true ∘ Eq.symm)) hfits (drop_behind ht more) hlast
    rw [drop_behind ht more, ← slice_length, show at_ + more + 1 + k = at_ + k + more + 1 by omega] at hnext
    rw [ht, ← slice_length]
    exact .gap_moved hends hlt ht hline hpiece hr' (by omega) hnext
  | @token at_ more gap c rest lexeme tokens hlt hpiece hbehind ih =>
    have hfits := readPiece_inside hends hlt ht (feed_of_token ht hlt hpiece) hpiece
    obtain ⟨lexeme, rfl, hmoved⟩ := Lexes.token_moved hends hlt ht hpiece
    obtain ⟨ts, last, rfl, _⟩ := tokensFrom_placed hends.le (drop_behind ht more) (tokensFrom_eq_ok.2 hbehind)
    rw [← List.cons_append, List.getLast?_concat] at hlast
    have hnext := ih (fun _ => rfl) hfits (drop_behind ht more) (by simpa using hlast)
    rw [List.dropLast_concat, drop_behind ht more, ← slice_length,
      show at_ + more + 1 + k = at_ + k + more + 1 by omega] at hnext
    rw [← List.cons_append, List.dropLast_concat, List.map_cons, Token.later, Lexeme.later_later,
      show at_ + more + 1 + k = at_ + k + more + 1 by omega, ht, ← slice_length, List.cons_append]
    exact hmoved hr' (by omega) hnext

/-- A text keeps its tokens before what ends a token, if it ends with a token. -/
theorem tokenize_behind (htokens : tokenize source 0 source.length = .ok (ts ++ [final])) (hspace : final.spaceBefore = false)
    (hr' : Parted r') (hle : source.length + k ≤ stop') (hrest : tokensFrom stop' (source.length + k) {} r' = .ok us) :
    tokensFrom stop' k {} (source ++ r') = .ok (ts.map (·.later k) ++ us) := by
  have hbehind := tokensFrom_behind hr' hle (fun _ => rfl) (Nat.zero_le _) rfl htokens (by simp [hspace]) hrest
  rw [Nat.zero_add, List.drop_zero, List.dropLast_concat] at hbehind
  exact hbehind

/-- The gap behind more white space, with the end of a line in it if `line` is set. -/
def Gap.widen (line : Bool) (gap : Gap) : Gap := { gap with space := true, lineBreak := line || gap.lineBreak }

/-- The piece behind more white space, with the end of a line in it if `line` is set. -/
def Piece.widen (line : Bool) : Piece → Piece
  | .gap filled more => .gap (filled.widen line) more
  | .token lexeme more => .token lexeme more

/-- A longer gap before a piece does not change the piece. -/
theorem readPiece_widen (line : Bool) (h : readPiece stop at_ gap c rest = .ok piece) :
    readPiece stop at_ (gap.widen line) c rest = .ok (piece.widen line) := by
  cases piece with
  | token lexeme more => exact readPiece_eq_token.2 (readPiece_eq_token.1 h)
  | gap filled more =>
    generalize hpiece : Piece.gap filled more = piece at h
    cases readPiece_begins h with
    | blank hblank =>
      rw [readPiece, if_pos hblank]
      simp only [Gap.widen, Piece.widen, Bool.or_assoc]
    | block hblank hstart hread =>
      rw [readPiece, hblank, if_neg Bool.false_ne_true, if_pos hstart]
      rw [blockComment] at hread ⊢
      cases hindex : indexOf? "*/" ((c :: rest).drop 2) with
      | none =>
        simp only [hindex] at hread
        cases hread
      | some n =>
        simp only [hindex] at hread ⊢
        by_cases hroom : stop < at_ + n + 4
        · rw [if_pos hroom] at hread
          cases hread
        · rw [if_neg hroom] at hread ⊢
          rw [← Except.ok.inj hread]
          simp only [Gap.widen, Piece.widen, Bool.or_assoc]
    | line _ hstart =>
      rw [readPiece_line hstart]
      rfl
    | _ => cases hpiece

/-- A token is told of a gap before it. -/
theorem tokensFrom_widen (line : Bool) (h : tokensFrom stop at_ gap t = .ok (u :: us)) :
    tokensFrom stop at_ (gap.widen line) t = .ok (u.widen line :: us) := by
  rw [tokensFrom_eq_ok] at h ⊢
  generalize htokens : u :: us = tokens at h
  induction h with
  | @ended at_ gap t hend =>
    cases htokens
    have hended : Lexes stop at_ (gap.widen line) t _ := .ended hend
    simpa only [Gap.widen, Token.widen, Bool.or_true] using hended
  | gap hlt hpiece _ ih => exact .gap hlt (readPiece_widen line hpiece) (ih htokens)
  | token hlt hpiece hbehind _ =>
    cases htokens
    exact .token hlt (readPiece_widen line hpiece) hbehind

/-- The tokens of a hole stand in a longer source. -/
theorem tokenize_within (hends : EndsWindow source stop) (before behind : Text) (hbehind : Parted behind) (hat : at_ ≤ stop)
    (h : tokenize source at_ stop = .ok tokens) :
    tokenize (before ++ (source ++ behind)) (at_ + before.length) (stop + before.length) =
      .ok (tokens.map (·.later before.length)) := by
  have hdrop : (before ++ (source ++ behind)).drop (at_ + before.length) =
      slice source at_ stop ++ (source.drop stop ++ behind) := by
    rw [Nat.add_comm, ← List.drop_drop, List.drop_left, List.drop_append_of_le_length (Nat.le_trans hat hends.le),
      ← List.append_assoc, ← drop_eq_slice_append hat]
  have hparted : Parted (source.drop stop ++ behind) := by
    rcases hends with rfl | hbrace
    · rwa [List.drop_length, List.nil_append]
    · have hfirst : (source.drop stop).head? = some (CodePoint.ofChar '\x7d') := by rw [List.head?_drop, hbrace]
      obtain ⟨after, hafter⟩ := List.head?_eq_some_iff.1 hfirst
      rw [hafter]
      exact parted_cons (by decide) _
  rw [tokenize, hdrop]
  exact tokensFrom_within hends hparted hat rfl h

/-! ## The end of a window -/

/-- Behind a token that ends the window there is no gap. -/
theorem Accounts.space_last (h : Accounts source stop at_ (ts ++ [u, final])) (hstop : u.stop = stop) :
    final.spaceBefore = false := by
  induction ts generalizing at_ with
  | nil =>
    cases h with
    | token _ _ _ _ _ _ _ hrest =>
      cases hrest with
      | last _ _ _ _ hfollows =>
        refine Bool.eq_false_iff.2 fun hspace => hfollows.space.1 hspace ?_
        exact slice_eq_nil (Nat.le_of_eq hstop.symm)
      | token _ _ _ _ _ _ _ hnone => cases hnone
  | cons v ts ih =>
    generalize htokens : v :: ts ++ [u, final] = tokens at h
    cases h with
    | last => simp at htokens
    | token _ _ _ _ _ _ _ hrest =>
      obtain ⟨rfl, rfl⟩ := List.cons.inj htokens
      exact ih hrest

theorem Accounts.not_isEnd (h : Accounts source stop at_ (ts ++ [final])) (hu : u ∈ ts) : u.isEnd = false := by
  induction ts generalizing at_ with
  | nil => cases hu
  | cons v ts ih =>
    generalize htokens : v :: ts ++ [final] = tokens at h
    cases h with
    | last => simp at htokens
    | token hend _ _ _ _ _ _ hrest =>
      obtain ⟨rfl, rfl⟩ := List.cons.inj htokens
      rcases List.mem_cons.1 hu with rfl | hu
      · exact hend
      · exact ih hrest hu

end

end WireSchema.Source
