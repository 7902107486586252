import WireSchema.Proofs.Grammar.Spelling
import WireSchema.Proofs.Lexing.Gaps
import WireSchema.Proofs.Lexing.Numbers
import WireSchema.Proofs.Lexing.Strings
import WireSchema.Proofs.Text.Reading
/-!
# Texts that are read as given tokens

A text is put together from chunks: white space, then the text of one token. If
each chunk fits what comes behind it, the lexer reads the text as one token for
each chunk.
-/

namespace WireSchema

namespace Source

/-- White space and the text of the token behind it. -/
structure Chunk where
  gap : Text
  raw : Text
  lexeme : Lexeme

namespace Chunk

/-- The text of the chunk. -/
def text (k : Chunk) : Text := k.gap ++ k.raw

/-- The text of several chunks. -/
def texts (ks : List Chunk) : Text := ks.flatMap text

@[simp] theorem texts_nil : texts [] = [] := rfl

@[simp] theorem texts_cons (k : Chunk) (ks : List Chunk) : texts (k :: ks) = k.text ++ texts ks := rfl

@[simp] theorem texts_append (ks ls : List Chunk) : texts (ks ++ ls) = texts ks ++ texts ls :=
  List.flatMap_append

/-- The token that a chunk at an offset is read as. -/
def token (k : Chunk) (at_ : Nat) : Token where
  lexeme := k.lexeme
  raw := k.raw
  start := at_ + k.gap.length
  stop := at_ + k.text.length
  spaceBefore := !k.gap.isEmpty
  lineBreak := k.gap.contains '\n'
  docs := []

/-- The tokens that chunks from an offset on are read as. -/
def tokens (at_ : Nat) : List Chunk → List Token
  | [] => []
  | k :: ks => k.token at_ :: tokens (at_ + k.text.length) ks

theorem tokens_append (at_ : Nat) (ks ls : List Chunk) :
    tokens at_ (ks ++ ls) = tokens at_ ks ++ tokens (at_ + (texts ks).length) ls := by
  induction ks generalizing at_ with
  | nil => rfl
  | cons k ks ih => simp [tokens, ih, Nat.add_assoc]

/-- The lexer reads the token of the chunk where `rest` comes behind it. -/
def Fits (k : Chunk) (rest : Text) : Prop :=
  ∃ c body, k.raw = c :: body ∧ ∀ stop at_ gap, at_ + k.raw.length ≤ stop →
    readPiece stop at_ gap c (body ++ rest) = .ok (.token k.lexeme body.length)

/-- Each chunk fits what comes behind it, `rest` coming behind them all. -/
def Readable : List Chunk → Text → Prop
  | [], _ => True
  | k :: ks, rest => (∀ c ∈ k.gap, c.isBlank = true) ∧ k.Fits (texts ks ++ rest) ∧ Readable ks rest

theorem readable_append {ks ls : List Chunk} {rest : Text} :
    Readable (ks ++ ls) rest ↔ Readable ks (texts ls ++ rest) ∧ Readable ls rest := by
  induction ks with
  | nil => simp [Readable]
  | cons k ks ih => simp [Readable, ih, and_assoc]

/-! ## Reading the tokens -/

theorem tokensFrom_gap {g : Text} (hg : ∀ c ∈ g, c.isBlank = true) {stop at_ : Nat}
    (h : at_ + g.length ≤ stop) (gap : Gap) (t : Text) :
    tokensFrom stop at_ gap (g ++ t) =
      tokensFrom stop (at_ + g.length)
        { gap with space := gap.space || !g.isEmpty, lineBreak := gap.lineBreak || g.contains '\n' } t := by
  induction g generalizing at_ gap with
  | nil => simp
  | cons c rest ih =>
    have hblank := hg c List.mem_cons_self
    have hlen : ¬ stop ≤ at_ := by simp at h; omega
    have hpiece : readPiece stop at_ gap c (rest ++ t) =
        .ok (.gap { gap with space := true, lineBreak := gap.lineBreak || c == '\n' } 0) := by
      simp [readPiece, hblank]
    rw [List.cons_append, tokensFrom, if_neg hlen]
    simp only [hpiece]
    rw [List.drop_zero, ih (fun d hd => hg d (List.mem_cons_of_mem _ hd)) (by simp at h ⊢; omega)]
    have hbreak : (gap.lineBreak || c == CodePoint.ofChar '\n' || rest.contains (CodePoint.ofChar '\n')) =
        (gap.lineBreak || (c :: rest).contains (CodePoint.ofChar '\n')) := by
      rw [List.contains_cons, Bool.or_assoc, Bool.beq_comm]
    have hat : at_ + 0 + 1 + rest.length = at_ + (c :: rest).length := by
      simp only [List.length_cons]; omega
    rw [hbreak, hat]
    simp

/-- The lexer reads readable chunks as their tokens and goes on behind them. -/
theorem Readable.tokensFrom_eq {ks : List Chunk} {rest : Text} (h : Readable ks rest) {stop at_ : Nat}
    (hstop : at_ + (texts ks).length ≤ stop) :
    tokensFrom stop at_ {} (texts ks ++ rest) =
      (tokensFrom stop (at_ + (texts ks).length) {} rest).map (tokens at_ ks ++ ·) := by
  induction ks generalizing at_ with
  | nil =>
    cases hr : tokensFrom stop at_ {} rest <;> simp [tokens, hr, Except.map]
  | cons k ks ih =>
    obtain ⟨hgap, ⟨c, body, hraw, hread⟩, hks⟩ := h
    have hlen : k.raw.length = body.length + 1 := by rw [hraw]; rfl
    simp only [texts_cons, text, List.length_append] at hstop ⊢
    have hskip := tokensFrom_gap hgap (by omega : at_ + k.gap.length ≤ stop) {}
      (k.raw ++ (texts ks ++ rest))
    have hpiece := hread stop (at_ + k.gap.length)
      { space := !k.gap.isEmpty, lineBreak := k.gap.contains '\n' } (by omega)
    have hbelow : ¬ stop ≤ at_ + k.gap.length := by omega
    have hat : at_ + k.gap.length + body.length + 1 = at_ + k.text.length := by
      rw [text, List.length_append]; omega
    rw [List.append_assoc, List.append_assoc, hskip, hraw, List.cons_append, tokensFrom, if_neg hbelow]
    simp only [Bool.false_or]
    rw [hpiece]
    simp only [List.drop_left, hat]
    rw [ih hks (by rw [text, List.length_append]; omega)]
    have hend : at_ + (k.gap.length + (c :: body).length + (texts ks).length) =
        at_ + k.text.length + (texts ks).length := by
      rw [List.length_cons, ← hlen, text, List.length_append]; omega
    rw [hend]
    cases tokensFrom stop (at_ + k.text.length + (texts ks).length) {} rest with
    | error fault => rfl
    | ok ts => simp [Except.map, tokens, token, hraw]

theorem tokens_length (at_ : Nat) (ks : List Chunk) : (tokens at_ ks).length = ks.length := by
  induction ks generalizing at_ with
  | nil => rfl
  | cons k ks ih => rw [tokens, List.length_cons, List.length_cons, ih]

/-- There are no more chunks than code points. -/
theorem Readable.length_le {ks : List Chunk} {rest : Text} (h : Readable ks rest) :
    ks.length ≤ (texts ks).length := by
  induction ks with
  | nil => exact Nat.le_refl 0
  | cons k ks ih =>
    obtain ⟨_, ⟨c, body, hraw, _⟩, hks⟩ := h
    have := ih hks
    rw [texts_cons, text, hraw, List.length_append, List.length_append, List.length_cons,
      List.length_cons]
    omega

/-- The lexer reads a text of readable chunks as their tokens. -/
theorem Readable.tokenize_eq {ks : List Chunk} (h : Readable ks []) :
    ∃ last : Token, last.isEnd = true ∧
      tokenize (texts ks) 0 (texts ks).length = .ok (tokens 0 ks ++ [last]) := by
  have hread := h.tokensFrom_eq (by omega : 0 + (texts ks).length ≤ (texts ks).length)
  rw [List.append_nil, Nat.zero_add] at hread
  rw [tokenize, List.drop_zero, hread, tokensFrom, if_pos (Nat.le_refl _)]
  exact ⟨_, rfl, rfl⟩

/-! ## What fits -/

section Fits
variable {stop at_ : Nat} {gap : Gap} {c : CodePoint}

/-- The code points that begin a comment, a string, a template or a mark of
several code points. -/
def starters : Text := "/\"'\x60.="

/-- The marks that are one token whatever comes behind them. -/
def plainMarks : Text := "()[]<>,;:?|&-\x7b\x7d"

/-- A number, a word or a mark of its own begins with any other code point. -/
theorem readPiece_other (hblank : c.isBlank = false) (hc : ∀ d ∈ starters, c ≠ d) (rest : Text) :
    readPiece stop at_ gap c rest =
      if c.isDigit then
        match numberLength (c :: rest) with
        | 0 => .error .numeral
        | n + 1 => .ok (.token .number n)
      else if c.beginsWord then .ok (.token .word (runLength CodePoint.continuesWord rest))
      else if c.isPunctuation then .ok (.token .mark 0)
      else .error (.rejected (.unexpectedCharacter c) at_) := by
  have hslash := hc (CodePoint.ofChar '/') (by decide)
  have hdot := hc (CodePoint.ofChar '.') (by decide)
  have hequals := hc (CodePoint.ofChar '=') (by decide)
  have h1 : Text.startsWith (c :: rest) "/*" = false := Text.startsWith_cons hslash rest
  have h2 : Text.startsWith (c :: rest) "//" = false := Text.startsWith_cons hslash rest
  have h3 : Text.startsWith (c :: rest) "..." = false := Text.startsWith_cons hdot rest
  have h4 : Text.startsWith (c :: rest) "=>" = false := Text.startsWith_cons hequals rest
  have h5 := hc (CodePoint.ofChar '"') (by decide)
  have h6 := hc (CodePoint.ofChar '\'') (by decide)
  have h7 := hc (CodePoint.ofChar '\x60') (by decide)
  have hread := readPiece.eq_def stop at_ gap c rest
  simp only [hblank, h1, h2, h3, h4, h5, h6, h7, beq_eq_false_iff_ne.2 hdot, Bool.false_and, Bool.or_false,
    or_self, Bool.false_eq_true, if_false] at hread
  exact hread

theorem fits_mark {m : Text} (hm : m ∈ plainMarks.map fun c => [c]) (gap rest : Text) :
    Fits ⟨gap, m, .mark⟩ rest := by
  obtain ⟨c, hc, rfl⟩ := List.mem_map.1 hm
  have all : ∀ c ∈ plainMarks, c.isBlank = false ∧ (∀ d ∈ starters, c ≠ d) ∧ c.isDigit = false ∧
      c.beginsWord = false ∧ c.isPunctuation = true := by decide
  obtain ⟨hblank, hother, hdigit, hword, hmark⟩ := all c hc
  refine ⟨c, [], rfl, fun stop at_ gap _ => ?_⟩
  rw [readPiece_other hblank hother]
  simp [hdigit, hword, hmark]

theorem fits_word {w : Text} (hw : Text.isName w = true) {rest : Text}
    (hrest : Stays CodePoint.continuesWord rest) (gap : Text) : Fits ⟨gap, w, .word⟩ rest := by
  cases w with
  | nil => cases hw
  | cons c body =>
    simp only [Text.isName, Bool.and_eq_true, Bool.not_eq_true'] at hw
    obtain ⟨⟨⟨hbegin, hblank⟩, hdigit⟩, hbody⟩ := hw
    have all : ∀ d ∈ starters, d.beginsWord = false := by decide
    have hother : ∀ d ∈ starters, c ≠ d := fun d hd e => by
      rw [e, all d hd] at hbegin
      cases hbegin
    refine ⟨c, body, rfl, fun stop at_ gap _ => ?_⟩
    rw [readPiece_other hblank hother, runLength_append hrest, runLength_of_all hbody]
    simp [hdigit, hbegin]

/-- A dot with no digit and no other dot behind it. -/
theorem fits_dot {rest : Text} (hdot : Stays (· == CodePoint.ofChar '.') rest)
    (hdigit : Stays CodePoint.isDigit rest) (gap : Text) :
    Fits ⟨gap, [CodePoint.ofChar '.'], .mark⟩ rest := by
  refine ⟨_, [], rfl, fun stop at_ gap _ => ?_⟩
  have hnumber : (rest.head?.map CodePoint.isDigit).getD false = false := by
    cases rest with
    | nil => rfl
    | cons d more => exact hdigit d rfl
  have hdots : Text.startsWith (CodePoint.ofChar '.' :: rest) "..." = false := by
    have hthree : Text.ofString "..." = CodePoint.ofChar '.' :: Text.ofString ".." := by decide
    cases rest with
    | nil => decide
    | cons d more =>
      have htwo : Text.startsWith (d :: more) (Text.ofString "..") = false :=
        Text.startsWith_cons (beq_eq_false_iff_ne.1 (hdot d rfl)) more
      rw [hthree, Text.startsWith_cons_cons, htwo, Bool.and_false]
  have harrow : Text.startsWith (CodePoint.ofChar '.' :: rest) "=>" = false := Text.startsWith_cons (by decide) rest
  have hends : EndsGap (CodePoint.ofChar '.') rest :=
    ⟨by decide, Text.startsWith_cons (by decide) rest, Text.startsWith_cons (by decide) rest⟩
  have hfirst : (CodePoint.ofChar '.').isDigit = false := by decide
  have hmark : (CodePoint.ofChar '.').isPunctuation = true := by decide
  refine readPiece_eq_token.2 ⟨hends, .mark (by decide) ?_ (by decide) ?_⟩
  · rw [List.nil_append, beginsNumber, hfirst, hnumber, Bool.and_false, Bool.false_or]
  · simp [markRest?, hdots, harrow, hmark]

/-- A string literal. -/
theorem fits_string {t w : Text} (h : Text.Quotes t w) (gap rest : Text) :
    Fits ⟨gap, "\"" ++ w ++ "\"", .string t⟩ rest := by
  refine ⟨CodePoint.ofChar '"', w ++ [CodePoint.ofChar '"'], rfl, fun stop at_ gap hstop => ?_⟩
  have hroom : at_ + (w.length + 2) ≤ stop := by
    have hmark : (Text.ofString "\"").length = 1 := rfl
    simp only [List.length_append, hmark] at hstop
    omega
  have hlen : stop - at_ - 1 = w.length + (stop - at_ - 1 - w.length) := by omega
  have hclose : closingQuote (CodePoint.ofChar '"') (stop - at_ - 1)
      (w ++ [CodePoint.ofChar '"'] ++ rest) = .ok (some w.length) := by
    rw [hlen, List.append_assoc]
    exact h.closingQuote_eq rest (by omega)
  have hends : EndsGap (CodePoint.ofChar '"') (w ++ [CodePoint.ofChar '"'] ++ rest) :=
    ⟨by decide, Text.startsWith_cons (by decide) _, Text.startsWith_cons (by decide) _⟩
  have hvalue : Text.unescape ((w ++ [CodePoint.ofChar '"'] ++ rest).take w.length) = .ok t := by
    rw [List.append_assoc, List.take_left, h.unescape_eq]
  rw [List.length_append, List.length_singleton]
  exact readPiece_eq_token.2 ⟨hends, .string (.inl rfl) hclose hvalue⟩

/-- A number. -/
theorem fits_number {raw : Text} (h : Text.isNumeral raw = true) {rest : Text} (hrest : Breaks rest)
    (gap : Text) : Fits ⟨gap, raw, .number⟩ rest := by
  cases raw with
  | nil => cases h
  | cons c body =>
    simp only [Text.isNumeral, Bool.and_eq_true, Bool.not_eq_true', beq_iff_eq] at h
    obtain ⟨⟨hblank, hbegin⟩, hlength⟩ := h
    refine ⟨c, body, rfl, fun stop at_ gap _ => ?_⟩
    have hlength' : numberLength (c :: (body ++ rest)) = body.length + 1 := by
      rw [← List.cons_append, numberLength_append hrest.ends, hlength]
    have hbegin' : beginsNumber c (body ++ rest) = true := by
      cases body with
      | nil =>
        have hone : c.isDigit = true := by simpa using hbegin
        rw [beginsNumber, hone, Bool.true_or]
      | cons d more => exact hbegin
    have hother : ∀ d ∈ Text.ofString "/\"'\x60", c ≠ d := by
      rintro d hd rfl
      have all : ∀ d ∈ Text.ofString "/\"'\x60", d.isDigit = false ∧ d ≠ CodePoint.ofChar '.' := by
        decide
      simp [all c hd] at hbegin
    have hslash := hother (CodePoint.ofChar '/') (by decide)
    have hends : EndsGap c (body ++ rest) := ⟨hblank, Text.startsWith_cons hslash _, Text.startsWith_cons hslash _⟩
    have hbare : ¬ (c = '"' ∨ c = '\'') ∧ c ≠ '`' :=
      ⟨not_or.2 ⟨hother (CodePoint.ofChar '"') (by decide), hother (CodePoint.ofChar '\'') (by decide)⟩,
        hother (CodePoint.ofChar '\x60') (by decide)⟩
    exact readPiece_eq_token.2 ⟨hends, .number hbare hbegin' hlength'⟩

end Fits

end Chunk

end Source

end WireSchema
