import WireSchema.Proofs.Lexing.Respelled
/-!
# Other white space between tokens

Any white space may stand for a space between tokens, but for the white space
that goes on with a word: directly behind a word, that becomes part of it.
-/

namespace WireSchema.Source

open Text Filler

section
variable {source source' t t' rest inside : Text} {stop at_ : Nat} {c : CodePoint} {before gap : Gap} {isLast : Bool}
  {f g : Filler} {fs gs : List Filler} {tokens ts : List Token} {u : Token}

/-! ## Fillers are read as such -/

theorem indexOf?_append (first pattern after : Text) : ∃ n, indexOf? pattern (first ++ (pattern ++ after)) = some n := by
  induction first with
  | nil =>
    rw [List.nil_append]
    cases hwhole : pattern ++ after with
    | nil =>
      rw [(List.append_eq_nil_iff.1 hwhole).1]
      exact ⟨0, rfl⟩
    | cons c rest => exact ⟨0, by rw [indexOf?, ← hwhole, if_pos (startsWith_append pattern after)]⟩
  | cons c first ih =>
    obtain ⟨n, hn⟩ := ih
    rw [List.cons_append, indexOf?, hn]
    split
    · exact ⟨0, rfl⟩
    · exact ⟨n + 1, rfl⟩

/-- A block is closed where its inside ends. -/
theorem indexOf?_block (h : (block inside).Proper) (rest : Text) :
    indexOf? "*/" (inside ++ ("*/" ++ rest)) = some inside.length := by
  obtain ⟨n, hn⟩ := indexOf?_append inside "*/" rest
  obtain ⟨other, after, heq, hlength, hfirst⟩ := indexOf?_eq_some (by decide) hn
  have hother : (block other).Proper := block_proper fun front back hfront => by
    rw [hlength]
    exact hfirst front back (heq.trans hfront)
  rw [hn, ← hlength, block_unique h hother heq]

/-- A filler is read as such, if nothing but a line feed or the end comes behind a line. -/
theorem readPiece_filler (hf : f.Proper) (htext : c :: t = f.text ++ rest) (hroom : at_ + f.text.length ≤ stop)
    (hline : f.isLine = true → Stays (· != CodePoint.ofChar '\n') rest ∧ (rest = [] → stop = at_ + f.text.length)) :
    readPiece stop at_ before c t = .ok (.gap (before.fill f) (f.text.length - 1)) := by
  -- a line comment goes on as far as the line, the others end where they are closed
  cases f with
  | blank d =>
    obtain ⟨rfl, rfl⟩ := List.cons.inj htext
    have hblank : c.isBlank = true := hf
    rw [readPiece, if_pos hblank, fill_blank]
    rfl
  | block inside =>
    have hlength : (block inside).text.length = inside.length + 4 := by simp [Text.ofString]
    have hblank : c.isBlank = false := by
      rw [text_block] at htext
      rw [(List.cons.inj htext).1]
      decide
    have hstart : startsWith (c :: t) "/*" = true := by
      rw [htext]
      exact startsWith_append "/*" (inside ++ "*/" ++ rest)
    have hinside : (c :: t).drop 2 = inside ++ ("*/" ++ rest) := by
      rw [htext]
      exact List.append_assoc inside "*/" rest
    have hcomment : (c :: t).take (inside.length + 4) = (block inside).text := by
      rw [htext, ← hlength, List.take_left]
    have hdoc : (startsWith (c :: t) "/**" && !startsWith (c :: t) "/**/") =
        (startsWith (block inside).text "/**" && (block inside).text != "/**/") := by
      rw [htext, isDoc_eq hf]
    rw [readPiece, hblank, if_neg Bool.false_ne_true, if_pos hstart, blockComment, hinside, indexOf?_block hf rest]
    simp only [hcomment, hdoc]
    rw [if_neg (by omega), hlength, Gap.fill, doc?]
    split <;> simp
  | line inside =>
    obtain ⟨hstays, hend⟩ := hline rfl
    have hnone : ∀ d ∈ (line inside).text, decide (d ≠ CodePoint.ofChar '\n') = true := by
      have hslash : CodePoint.ofChar '/' ≠ CodePoint.ofChar '\n' := by decide
      have hinside : ∀ d ∈ inside, d ≠ CodePoint.ofChar '\n' := fun d hd heq => hf (heq ▸ hd)
      simpa [hslash] using hinside
    have hcut : (c :: t).takeWhile (· ≠ CodePoint.ofChar '\n') = (line inside).text := by
      rw [htext, List.takeWhile_append_of_pos hnone]
      cases rest with
      | nil => simp
      | cons d rest =>
        have hd : d = CodePoint.ofChar '\n' := by simpa using hstays d rfl
        simp [hd]
    have hstart : startsWith (c :: t) "//" = true := by
      rw [htext]
      exact startsWith_append "//" (inside ++ rest)
    rw [readPiece_line hstart, fill_line hf, lineComment, hcut, htext]
    split
    next hwhole =>
      rw [List.length_append] at hwhole
      have hrest : rest = [] := List.length_eq_zero_iff.1 (by omega)
      rw [hend hrest, Nat.add_sub_cancel_left]
    · rfl

/-- The fillers of a gap are gone through one after the other. -/
theorem tokensFrom_fillers (hfills : Fills isLast fs) (hroom : at_ + (texts fs).length ≤ stop)
    (hlast : isLast = true → rest = [] ∧ stop = at_ + (texts fs).length) :
    tokensFrom stop at_ before (texts fs ++ rest) =
      tokensFrom stop (at_ + (texts fs).length) (before.fillAll fs) rest := by
  induction fs generalizing at_ before with
  | nil => rfl
  | cons f fs ih =>
    obtain ⟨hproper, hline, hfills⟩ := hfills
    rw [texts_cons, List.length_append] at hroom hlast ⊢
    obtain ⟨c, t, hct⟩ := List.exists_cons_of_ne_nil f.text_ne_nil
    have hone : 0 < f.text.length := by rw [hct]; exact Nat.succ_pos _
    have htext : c :: (t ++ (texts fs ++ rest)) = f.text ++ (texts fs ++ rest) := by rw [hct]; rfl
    have hfits : at_ + f.text.length ≤ stop := by omega
    have hbehind : f.isLine = true → Stays (· != CodePoint.ofChar '\n') (texts fs ++ rest) ∧
        (texts fs ++ rest = [] → stop = at_ + f.text.length) := by
      intro hyes
      rcases hline hyes with hhead | ⟨hend, rfl⟩
      · obtain ⟨others, rfl⟩ := List.head?_eq_some_iff.1 hhead
        exact ⟨fun d hd => by cases hd; rfl, nofun⟩
      · obtain ⟨rfl, hstop⟩ := hlast hend
        exact ⟨nofun, fun _ => hstop⟩
    have hpiece : readPiece stop at_ before c (t ++ (texts fs ++ rest)) = .ok (.gap (before.fill f) (f.text.length - 1)) :=
      readPiece_filler hproper htext hfits hbehind
    have hdrop : (t ++ (texts fs ++ rest)).drop (f.text.length - 1) = texts fs ++ rest := by
      rw [hct, List.length_cons, Nat.add_sub_cancel, List.drop_left]
    have hnext : at_ + (f.text.length - 1) + 1 = at_ + f.text.length := by omega
    rw [List.append_assoc, ← htext, tokensFrom, if_neg (by omega), hpiece]
    simp only [hdrop, hnext]
    rw [ih hfills (by omega) (fun hend => ⟨(hlast hend).1, by rw [(hlast hend).2]; omega⟩), Nat.add_assoc]
    rfl

/-! ## Other white space -/

/-- What may stand for a filler: the same, or any white space for a space. -/
inductive Filler.Respaced : Filler → Filler → Prop where
  | same (f : Filler) : Respaced f f
  | space {c : CodePoint} : c.isBlank = true → Respaced (blank ' ') (blank c)

/-- From an offset on the second source has the texts of the tokens at the same
places as the first one, and between them what may stand for the fillers of the first. -/
inductive Respaced (source source' : Text) : Nat → List Token → Prop where
  | nil {at_ : Nat} : Respaced source source' at_ []
  | cons {at_ : Nat} {t : Token} {ts : List Token} {fs gs : List Filler} :
    Fills t.isEnd fs → texts fs = slice source at_ t.start → List.Forall₂ Filler.Respaced fs gs →
    texts gs = slice source' at_ t.start → t.raw = slice source' t.start t.stop → Respaced source source' t.stop ts →
    Respaced source source' at_ (t :: ts)

/-- The code point stays, or white space stands for it. -/
def Whitened (c d : CodePoint) : Prop := c = d ∨ d.isBlank = true

theorem whitened_refl (t : Text) : List.Forall₂ Whitened t t := List.forall₂_same.2 fun _ _ => .inl rfl

theorem Filler.Respaced.whitened (h : Filler.Respaced f g) : List.Forall₂ Whitened f.text g.text := by
  cases h with
  | same => exact whitened_refl _
  | space hblank => exact .cons (.inr hblank) .nil

theorem respaced_whitened (h : List.Forall₂ Filler.Respaced fs gs) : List.Forall₂ Whitened (texts fs) (texts gs) := by
  induction h with
  | nil => exact .nil
  | cons hf _ ih => exact List.rel_append hf.whitened ih

/-- White space in the place of spaces fills a gap as the spaces do. -/
theorem Fills.respaced (hfills : Fills isLast fs) (h : List.Forall₂ Filler.Respaced fs gs) : Fills isLast gs := by
  induction h with
  | nil => trivial
  | @cons f g fs gs hfirst hrest ih =>
    obtain ⟨hproper, hline, hfills⟩ := hfills
    cases hfirst with
    | same =>
      refine ⟨hproper, fun hyes => ?_, ih hfills⟩
      rcases hline hyes with hhead | ⟨hlast, rfl⟩
      · -- a line feed is no space
        obtain ⟨others, rfl⟩ := List.head?_eq_some_iff.1 hhead
        cases hrest with
        | cons hfeed _ =>
          generalize hf : blank (CodePoint.ofChar '\n') = f' at hfeed
          cases hfeed with
          | same => exact .inl rfl
          | space => exact absurd (Filler.blank.inj hf) (by decide)
      · cases hrest
        exact .inr ⟨hlast, rfl⟩
    | space hblank => exact ⟨hblank, nofun, ih hfills⟩

/-- Up to the first place where white space stands for something else the texts are the same. -/
theorem whitened_split (h : List.Forall₂ Whitened t t') :
    ∃ w r r', t = w ++ r ∧ t' = w ++ r' ∧ ∀ c, r'.head? = some c → c.isBlank = true := by
  induction h with
  | nil => exact ⟨[], [], [], rfl, rfl, nofun⟩
  | @cons c d t t' hfirst hrest ih =>
    rcases hfirst with rfl | hblank
    · obtain ⟨w, r, r', rfl, rfl, hr'⟩ := ih
      exact ⟨c :: w, r, r', rfl, rfl, hr'⟩
    · exact ⟨[], c :: t, d :: t', rfl, rfl, fun e he => Option.some.inj he ▸ hblank⟩

theorem Respaced.whitened (h : Respaced source source' at_ tokens) (haccounts : Accounts source source.length at_ tokens)
    (hlength : source'.length = source.length) : List.Forall₂ Whitened (source.drop at_) (source'.drop at_) := by
  induction haccounts with
  | @last at_ t _ _ hstart hstop hfollows =>
    cases h with
    | @cons _ _ _ fs gs _ hfs hrespaced hgs _ _ =>
      rw [hstart, slice_length] at hfs
      rw [hstart, ← hlength, slice_length] at hgs
      rw [← hfs, ← hgs]
      exact respaced_whitened hrespaced
  | @token at_ t ts _ hat hlt hle _ hraw _ _ ih =>
    cases h with
    | @cons _ _ _ fs gs _ hfs hrespaced hgs hraw' hrest =>
      have hold : source.drop at_ = texts fs ++ (t.raw ++ source.drop t.stop) := by
        rw [drop_eq_slice_append hat, drop_eq_slice_append (Nat.le_of_lt hlt), ← hfs, ← hraw]
      have hnew : source'.drop at_ = texts gs ++ (t.raw ++ source'.drop t.stop) := by
        rw [drop_eq_slice_append hat, drop_eq_slice_append (Nat.le_of_lt hlt), ← hgs, ← hraw']
      rw [hold, hnew]
      exact List.rel_append (respaced_whitened hrespaced) (List.rel_append (whitened_refl _) (ih hrest))

/-! ## What white space goes on with -/

/-- The numbers of the white space that does not go on with a word, and of that which does. -/
def plainBlanks : List Nat := [0x09, 0x0A, 0x0B, 0x0C, 0x0D, 0x1C, 0x1D, 0x1E, 0x1F, 0x20, 0x85]

def wordBlanks : List Nat :=
  [0xA0, 0x1680, 0x2000, 0x2001, 0x2002, 0x2003, 0x2004, 0x2005, 0x2006, 0x2007, 0x2008, 0x2009, 0x200A, 0x2028, 0x2029,
   0x202F, 0x205F, 0x3000]

theorem blank_iff : c.isBlank = true ↔ c.val ∈ plainBlanks ++ wordBlanks := by
  simp only [CodePoint.isBlank, plainBlanks, wordBlanks, List.cons_append, List.nil_append, List.mem_cons, List.not_mem_nil,
    Bool.or_eq_true, Bool.and_eq_true, decide_eq_true_eq, beq_iff_eq, or_false]
  omega

theorem not_runsOn_of_blank (h : c.isBlank = true) : runsOn c = false := by
  have hall : ∀ n ∈ plainBlanks ++ wordBlanks, ∀ hn : n < 0x110000, runsOn ⟨n, hn⟩ = false := by decide
  exact hall c.val (blank_iff.1 h) c.isLt

/-- White space goes on with a word from U+00A0 on. -/
theorem continuesWord_of_blank (h : c.isBlank = true) : c.continuesWord = true ↔ 0xA0 ≤ c.val := by
  have hall : ∀ n ∈ plainBlanks ++ wordBlanks, ∀ hn : n < 0x110000,
      CodePoint.continuesWord ⟨n, hn⟩ = true ↔ 0xA0 ≤ n := by decide +kernel
  exact hall c.val (blank_iff.1 h) c.isLt

/-! ## The same tokens -/

/-- A word takes in what goes on with it. -/
theorem tokensFrom_joined {raw s : Text} (hname : Text.isName raw = true) (hjoined : ¬ Stays CodePoint.continuesWord s)
    (hroom : at_ + (raw ++ s).length ≤ stop) (h : tokensFrom stop at_ gap (raw ++ s) = .ok tokens) :
    ∃ u us, tokens = u :: us ∧ raw.length < u.raw.length := by
  obtain ⟨d, s, rfl⟩ : ∃ d s', s = d :: s' := List.exists_cons_of_ne_nil fun hnil => hjoined (hnil ▸ nofun)
  have hd : d.continuesWord = true := Decidable.byContradiction fun hno => hjoined fun e he => by
    rw [← Option.some.inj he]
    exact Bool.eq_false_iff.2 hno
  -- the word goes as far as it can
  generalize hmore : s.takeWhile CodePoint.continuesWord = more
  generalize hrest : s.dropWhile CodePoint.continuesWord = rest
  have hs : s = more ++ rest := by rw [← hmore, ← hrest, List.takeWhile_append_dropWhile]
  have hall : more.all CodePoint.continuesWord = true := hmore ▸ List.all_takeWhile
  have hstays : Stays CodePoint.continuesWord rest := by
    intro e he
    have hfirst := List.head?_dropWhile_not CodePoint.continuesWord s
    rw [hrest, he] at hfirst
    exact hfirst
  have hlong : Text.isName (raw ++ d :: more) = true := by
    cases raw with
    | nil => cases hname
    | cons c body =>
      simp only [Text.isName, Bool.and_eq_true] at hname
      simp only [List.cons_append, Text.isName, Bool.and_eq_true, List.all_append, List.all_cons]
      exact ⟨hname.1, hname.2, hd, hall⟩
  obtain ⟨c, body, hraw, hread⟩ := Chunk.fits_word hlong hstays []
  have htext : raw ++ d :: s = c :: (body ++ rest) := by
    rw [← List.cons_append, ← hraw, hs, List.append_assoc]
    rfl
  rw [htext] at h hroom
  have hlength := congrArg List.length hraw
  rw [hraw] at hread
  simp only [List.length_append, List.length_cons] at hlength hroom hread
  rw [tokensFrom, if_neg (by omega), hread stop at_ gap (by omega)] at h
  simp only at h
  split at h
  · cases h
  · cases h
    refine ⟨_, _, rfl, ?_⟩
    simp only [List.take_left, List.length_cons]
    omega

theorem found_reading {own : Lexeme} {b : Nat} (h : u.lexeme = own.later u.start) :
    (Token.found (own.later b) u.raw b gap).reading = u.reading := by
  have hcopy : (Token.found (own.later b) u.raw b { space := gap.space }).Copies u := ⟨⟨own, rfl, h⟩, rfl, rfl, rfl, rfl⟩
  rw [Token.reading, Token.reading, ← hcopy.kind, ← hcopy.value]
  rfl

/-- The gap before a token is gone through in one go. -/
theorem tokensFrom_gap {start : Nat} (hfills : Fills isLast gs) (hgs : texts gs = slice source' at_ start) (hat : at_ ≤ start)
    (hle : start ≤ source'.length) (hlast : isLast = true → start = source'.length) :
    tokensFrom source'.length at_ gap (source'.drop at_) =
      tokensFrom source'.length start (gap.fillAll gs) (source'.drop start) := by
  have hgap : at_ + (texts gs).length = start := by
    rw [hgs, length_slice hle]
    omega
  have hend : isLast = true → source'.drop start = [] ∧ source'.length = at_ + (texts gs).length := fun hyes =>
    ⟨List.drop_eq_nil_of_le (Nat.le_of_eq (hlast hyes).symm), by rw [hgap, hlast hyes]⟩
  rw [drop_eq_slice_append hat, ← hgs, tokensFrom_fillers hfills (by omega) hend, hgap]

/-- With what goes on with a word behind it, the word is another one. -/
theorem not_reading_of_joined (hname : Text.isName u.raw = true) (hjoined : ¬ Stays CodePoint.continuesWord t)
    (hroom : at_ + (u.raw ++ t).length ≤ stop) :
    ¬ ∃ us, tokensFrom stop at_ gap (u.raw ++ t) = .ok us ∧ us.map Token.reading = (u :: ts).map Token.reading := by
  rintro ⟨us, hus, hsame⟩
  obtain ⟨v, vs, rfl, hlonger⟩ := tokensFrom_joined hname hjoined hroom hus
  have hraw : v.raw = u.raw := congrArg (·.2.2) (List.cons.inj hsame).1
  rw [hraw] at hlonger
  exact absurd hlonger (Nat.lt_irrefl _)

/-- A token that is found again is read with the tokens behind it. -/
theorem reads_found {own : Lexeme} {b : Nat} {found : Except Fault (List Token)} (h : u.lexeme = own.later u.start) :
    (∃ us, found.map (.found (own.later b) u.raw b gap :: ·) = .ok us ∧ us.map Token.reading = (u :: ts).map Token.reading) ↔
      ∃ us, found = .ok us ∧ us.map Token.reading = ts.map Token.reading := by
  constructor
  · rintro ⟨us, hus, hsame⟩
    cases found with
    | error fault => cases hus
    | ok others =>
      cases hus
      exact ⟨others, rfl, (List.cons.inj hsame).2⟩
  · rintro ⟨others, rfl, hsame⟩
    exact ⟨_, rfl, by rw [List.map_cons, List.map_cons, found_reading h, hsame]⟩

/-- A source has the same tokens with other white space in the place of spaces, if and
only if none of the white space goes on with a word before it. -/
theorem Respaced.reads (h : Respaced source source' at_ tokens) (haccounts : Accounts source source.length at_ tokens)
    (hlength : source'.length = source.length)
    (hread : ∀ u ∈ tokens, u.isEnd = false → u.ReadAt source source.length)
    (hlexed : ∀ u ∈ tokens, u.isWord = true → Text.isName u.raw = true) (hat : at_ ≤ source.length) :
    (∃ us, tokensFrom source'.length at_ gap (source'.drop at_) = .ok us ∧ us.map Token.reading = tokens.map Token.reading) ↔
      ∀ u ∈ tokens, u.isWord = true → Stays CodePoint.continuesWord (source'.drop u.stop) := by
  induction haccounts generalizing gap with
  | @last at_ t hend hraw hstart hstop hfollows =>
    cases h with
    | cons hfills _ hrespaced hgs =>
      have hends : t.start = source'.length := hstart.trans hlength.symm
      have hlexeme : t.lexeme = .endOfInput := beq_iff_eq.1 hend
      rw [tokensFrom_gap (hfills.respaced hrespaced) hgs (hstart ▸ hat) (Nat.le_of_eq hends) fun _ => hends, hends,
        List.drop_length, tokensFrom_end (Nat.le_refl _)]
      refine ⟨fun _ u hu hword => ?_, fun _ => ⟨_, rfl, ?_⟩⟩
      · rw [List.mem_singleton.1 hu, Token.isWord, hlexeme] at hword
        cases hword
      · simp [Token.reading, Token.kind, Token.value, hlexeme, hraw, Lexeme.kind]
  | @token at_ t ts hend hstart hlt hle hne hraw _ haccounts ih =>
    cases h with
    | @cons _ _ _ fs gs hfills _ hrespaced hgs hraw' hrest =>
      rw [List.forall_mem_cons] at hread hlexed ⊢
      -- the text of the token, and what comes behind it
      obtain ⟨w, r, r', hw, hw', hr'⟩ := whitened_split (hrest.whitened haccounts hlength)
      have htext : source'.drop t.start = t.raw ++ source'.drop t.stop := by
        rw [drop_eq_slice_append (Nat.le_of_lt hlt), ← hraw']
      have hlong : t.start + (t.raw ++ source'.drop t.stop).length = source'.length := by
        rw [← htext, List.length_drop]
        omega
      rw [tokensFrom_gap (hend ▸ hfills.respaced hrespaced) hgs hstart (by omega) fun hno => absurd hno Bool.false_ne_true, htext]
      by_cases hjoined : t.isWord = true ∧ ¬ Stays CodePoint.continuesWord (source'.drop t.stop)
      · refine ⟨fun hexists => absurd hexists ?_, fun hall => absurd (hall.1 hjoined.1) hjoined.2⟩
        exact not_reading_of_joined (hlexed.1 hjoined.1) hjoined.2 (Nat.le_of_eq hlong)
      · have hword : t.isWord = true → Stays CodePoint.continuesWord (source'.drop t.stop) :=
          fun hword => Classical.byContradiction fun hno => hjoined ⟨hword, hno⟩
        have hjoins : Stays runsOn r' := fun c hc => not_runsOn_of_blank (hr' c hc)
        rw [hw', List.length_append, List.length_append] at hlong
        have hroom : t.start + (t.raw.length + w.length) ≤ source'.length := by omega
        have hfirst : t.isWord = true → w = [] → Stays CodePoint.continuesWord r' := fun hyes hnil => by
          simpa [hw', hnil] using hword hyes
        obtain ⟨own, hown, hagain⟩ := (hread.1 hend).again hle hw hjoins hfirst hroom (gap.fillAll gs)
        have hnext : t.start + t.raw.length = t.stop := by
          rw [hraw, length_slice hle]
          omega
        rw [hnext, ← hw'] at hagain
        rw [hagain, reads_found hown, ih hrest hread.2 hlexed.2 hle, and_iff_right hword]

theorem stays_drop_runLength (p : CodePoint → Bool) (t : Text) : Stays p (t.drop (runLength p t)) := by
  induction t with
  | nil => nofun
  | cons c t ih =>
    cases hc : p c with
    | true =>
      rw [runLength, List.takeWhile_cons_of_pos hc, List.length_cons, List.drop_succ_cons]
      exact ih
    | false =>
      rw [runLength, List.takeWhile_cons_of_neg (by simp [hc])]
      exact fun d hd => Option.some.inj hd ▸ hc

/-- A word goes as far as it can. -/
theorem Token.ReadAt.word_ends (hread : u.ReadAt source stop) (hword : u.isWord = true) :
    Stays CodePoint.continuesWord (source.drop u.stop) := by
  obtain ⟨before, c, rest, more, hdrop, _, hend, hpiece⟩ := hread
  rw [hend, ← drop_behind hdrop.symm]
  rw [beq_iff_eq.1 hword] at hpiece
  generalize hword' : Piece.token .word more = piece at hpiece
  cases readPiece_begins hpiece with
  | word =>
    cases hword'
    exact stays_drop_runLength _ _
  | block _ _ hblock => exact absurd (hword' ▸ hblock) blockComment_ne_token
  | _ => cases hword'

/-- The white space in a word is such as goes on with it. -/
theorem blank_of_mem_word {raw : Text} (hname : Text.isName raw = true) (hc : c ∈ raw) (hblank : c.isBlank = true) :
    0xA0 ≤ c.val := by
  cases raw with
  | nil => cases hc
  | cons d body =>
    simp only [Text.isName, Bool.and_eq_true, Bool.not_eq_true', List.all_eq_true] at hname
    rcases List.mem_cons.1 hc with rfl | hc
    · rw [hname.1.1.2] at hblank
      cases hblank
    · exact (continuesWord_of_blank hblank).1 (hname.2 c hc)

/-- Spaces between the tokens of a source may be written as any white space, and the
source has the same tokens, if and only if no white space is put directly behind a
word that goes on with the word; such white space is that from U+00A0 on. Words hold
no other white space. -/
theorem tokenize_respaced (h : tokenize source 0 source.length = .ok tokens) (hlength : source'.length = source.length)
    (hspaces : Respaced source source' 0 tokens) :
    ((∃ us, tokenize source' 0 source'.length = .ok us ∧ us.map Token.reading = tokens.map Token.reading) ↔
      ∀ t ∈ tokens, t.isWord = true → ∀ c, source'[t.stop]? = some c → c.isBlank = true → c.val < 0xA0) ∧
    ∀ t ∈ tokens, t.isWord = true → ∀ c ∈ t.raw, c.isBlank = true → 0xA0 ≤ c.val := by
  obtain ⟨first, others, _, rfl, hgoes⟩ := tokensFrom_goesOn (.inl rfl) rfl h
  have haccounts := hgoes.accounts
  have hread := tokensFrom_read rfl h
  have hlexed : ∀ t ∈ first :: others, t.isWord = true → Text.isName t.raw = true :=
    fun t ht hword => (lexed_of_mem h t ht).word (beq_iff_eq.1 hword)
  have hnone (t : Token) (hword : t.isWord = true) : t.isEnd = false := by
    rw [Token.isEnd, beq_iff_eq.1 hword]
    rfl
  refine ⟨?_, fun t ht hword c hc hblank => blank_of_mem_word (hlexed t ht hword) hc hblank⟩
  rw [tokenize, hspaces.reads haccounts hlength hread hlexed (Nat.zero_le _)]
  refine forall₃_congr fun t ht hword => ?_
  -- a word ends before a code point that would go on with it, so only new white space can join it
  have hends := (hread t ht (hnone t hword)).word_ends hword
  constructor
  · intro hstays c hc hblank
    rw [← List.head?_drop] at hc
    have hno := hstays c hc
    refine Nat.lt_of_not_le fun hle => ?_
    rw [(continuesWord_of_blank hblank).2 hle] at hno
    cases hno
  · intro hblanks c hc
    have hwhite := List.forall₂_drop t.stop (hspaces.whitened haccounts hlength)
    rw [List.drop_zero, List.drop_zero] at hwhite
    obtain ⟨behind, hbehind⟩ := List.head?_eq_some_iff.1 hc
    rw [hbehind] at hwhite
    generalize hold : source.drop t.stop = old at hwhite
    cases hwhite with
    | cons hfirst _ =>
      rcases hfirst with rfl | hblank
      · exact hends _ (by rw [hold, List.head?_cons])
      · rw [List.head?_drop] at hc
        refine Bool.eq_false_iff.2 fun hyes => ?_
        exact absurd ((continuesWord_of_blank hblank).1 hyes) (Nat.not_le_of_lt (hblanks c hc hblank))

/-- A tab behind a word, and an ideographic space behind a mark. -/
theorem tokenize_respaced_tab :
    let tokens : List Token :=
      [{ lexeme := .word, raw := "a", start := 0, stop := 1, spaceBefore := false, lineBreak := false, docs := [] },
       { lexeme := .mark, raw := ":", start := 2, stop := 3, spaceBefore := true, lineBreak := false, docs := [] },
       { lexeme := .word, raw := "b", start := 4, stop := 5, spaceBefore := true, lineBreak := false, docs := [] },
       .endAt 5]
    Respaced "a : b" "a\t:\u3000b" 0 tokens ∧
      ∃ us, tokenize "a\t:\u3000b" 0 5 = .ok us ∧ us.map Token.reading = tokens.map Token.reading := by
  intro tokens
  have htokens : tokenize "a : b" 0 5 = .ok tokens := by cbv
  have hnone (isLast : Bool) : Fills isLast [] := trivial
  have hspace : Fills false [.blank ' '] := ⟨show CodePoint.isBlank ' ' = true by decide,
    fun hline => absurd hline (by decide), trivial⟩
  have htab : List.Forall₂ Filler.Respaced [.blank ' '] [.blank '\t'] := .cons (.space (by decide)) .nil
  have hwide : List.Forall₂ Filler.Respaced [.blank ' '] [.blank '\u3000'] := .cons (.space (by decide)) .nil
  have hlength : (Text.ofString "a\t:\u3000b").length = (Text.ofString "a : b").length := rfl
  have hspaces : Respaced "a : b" "a\t:\u3000b" 0 tokens :=
    .cons (hnone false) rfl .nil rfl rfl (.cons hspace rfl htab rfl rfl (.cons hspace rfl hwide rfl rfl
      (.cons (hnone true) rfl .nil rfl rfl .nil)))
  exact ⟨hspaces, (tokenize_respaced htokens hlength hspaces).1.2 (by decide)⟩

set_option maxRecDepth 2000 in
/-- A space that does not break, behind a word: the two words are read as one. -/
theorem tokenize_joined_word :
    tokenize "a b" 0 3 = .ok
      [{ lexeme := .word, raw := "a", start := 0, stop := 1, spaceBefore := false, lineBreak := false, docs := [] },
       { lexeme := .word, raw := "b", start := 2, stop := 3, spaceBefore := true, lineBreak := false, docs := [] },
       .endAt 3] ∧
    (CodePoint.ofChar '\u00a0').isBlank = true ∧
    tokenize "a\u00a0b" 0 3 = .ok
      [{ lexeme := .word, raw := "a\u00a0b", start := 0, stop := 3, spaceBefore := false, lineBreak := false, docs := [] },
       .endAt 3] :=
  ⟨by cbv, by decide, by cbv⟩

end

end WireSchema.Source
