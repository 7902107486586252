import WireSchema.Proofs.Text.Reading
import WireSchema.Source.Lexer
import WireSchema.Text.Quoted
/-!
# Quoted texts are read back

The lexer finds the end of a text that `quote` wrote and reads its escapes back.
-/

namespace WireSchema

open Source

namespace Text

/-! ## What a code point is written as -/

/-- How `quote` writes a code point: as itself, as a backslash and one more code
point, or as `\u` and its number. -/
inductive Written (c : CodePoint) : Text → Prop where
  | plain : c ≠ '"' → c ≠ '\\' → c ≠ '\n' → Written c [c]
  | short {d : CodePoint} :
    d ≠ 'x' → d ≠ 'u' → d ≠ '\n' → simpleEscape? d = some c ∨ simpleEscape? d = none ∧ d = c →
    Written c ['\\', d]
  | numbered : c.val < 0x20 → Written c ("\\u" ++ hex 4 c.val)

theorem quoteCodePoint_written (c : CodePoint) : Written c (quoteCodePoint c) := by
  have val {n : Nat} {d : Char} (h : c.val = n) (hd : d.toNat = n) : c = CodePoint.ofChar d :=
    CodePoint.ext_val (h.trans hd.symm)
  unfold quoteCodePoint
  split
  next h => exact h ▸ .short (by decide) (by decide) (by decide) (.inr ⟨by decide, rfl⟩)
  next hquote =>
    split
    next h => exact h ▸ .short (by decide) (by decide) (by decide) (.inr ⟨by decide, rfl⟩)
    next hslash =>
      split
      next h =>
        rw [val h (d := '\x08') rfl]
        exact .short (d := 'b') (by decide) (by decide) (by decide) (.inl (by decide))
      split
      next h =>
        rw [val h (d := '\x0c') rfl]
        exact .short (d := 'f') (by decide) (by decide) (by decide) (.inl (by decide))
      split
      next h => exact h ▸ .short (d := 'n') (by decide) (by decide) (by decide) (.inl (by decide))
      next hline =>
        split
        next h => exact h ▸ .short (d := 'r') (by decide) (by decide) (by decide) (.inl (by decide))
        split
        next h => exact h ▸ .short (d := 't') (by decide) (by decide) (by decide) (.inl (by decide))
        split
        next h => exact .numbered h
        next => exact .plain hquote hslash hline

/-- The text is written code point by code point. -/
inductive Quotes : Text → Text → Prop where
  | nil : Quotes [] []
  | cons {c : CodePoint} {t piece w : Text} : Written c piece → Quotes t w → Quotes (c :: t) (piece ++ w)

theorem quoteInside_quotes (t : Text) : Quotes t (quoteInside t) := by
  induction t with
  | nil => exact .nil
  | cons c rest ih => exact .cons (quoteCodePoint_written c) ih

/-! ## Reading the escapes -/

section Unescape
variable {c : CodePoint} {piece s : Text}

theorem hex_length (width n : Nat) : (hex width n).length = width := by simp [hex]

theorem integerValue?_hex : ∀ n : Fin 0x20, integerValue? 16 (hex 4 n) = some (n : Int) := by decide

theorem head?_hex : ∀ n : Fin 0x20, (hex 4 n).head? = some (CodePoint.ofChar '0') := by decide

theorem escapedCodePoint_hex (h : c.val < 0x20) : escapedCodePoint (hex 4 c.val) = .ok c := by
  have hvalue := integerValue?_hex ⟨c.val, h⟩
  have hrange : ¬ ((c.val : Int) < -0x80000000 ∨ 0x80000000 ≤ (c.val : Int)) := by omega
  have hsign : ¬ (c.val : Int) < 0 := by omega
  have hc : CodePoint.ofNat? (c.val : Int).toNat = some c := by
    simp [CodePoint.ofNat?, c.isLt]
  simp only at hvalue
  rw [escapedCodePoint, hvalue]
  simp only [hrange, if_false, hsign, hc]

theorem readEscape_hex (h : c.val < 0x20) (s : Text) :
    readEscape 'u' (hex 4 c.val ++ s) = .ok ([c], 4) := by
  have hlen : (hex 4 c.val).length = 4 := hex_length 4 c.val
  have hhead : (hex 4 c.val ++ s).head? ≠ some (CodePoint.ofChar '\x7b') := by
    rw [List.head?_append, head?_hex ⟨c.val, h⟩]
    simp
  have hsimple : simpleEscape? (CodePoint.ofChar 'u') = none := by decide
  have hx : ¬ (CodePoint.ofChar 'u' = CodePoint.ofChar 'x' ∧ 2 ≤ (hex 4 c.val ++ s).length) := by
    simp
  rw [readEscape, hsimple]
  simp only [hx, if_false, hhead, and_false, if_true, List.take_left' hlen, escapedCodePoint_hex h]
  rfl

theorem unescape_skip (piece s : Text) : unescape.go piece.length (piece ++ s) = unescape.go 0 s := by
  induction piece with
  | nil => rfl
  | cons c rest ih => rw [List.length_cons, List.cons_append, unescape.go, ih]

theorem unescape_written (h : Written c piece) :
    unescape.go 0 (piece ++ s) = (unescape.go 0 s).map (c :: ·) := by
  cases h with
  | plain _ hslash _ =>
    rw [List.cons_append, List.nil_append, unescape.go.eq_def]
    simp only [hslash, if_false]
    rfl
  | @short d hx hu hn hd =>
    have hread : readEscape d s = .ok ([c], 0) := by
      rcases hd with hd | ⟨hd, rfl⟩
      · simp [readEscape, hd]
      · simp [readEscape, hd, hx, hu, hn]
    rw [List.cons_append, List.cons_append, List.nil_append, unescape.go]
    simp only [if_true, hread]
    rfl
  | numbered hc =>
    have hlen : (hex 4 c.val).length = 4 := hex_length 4 c.val
    have hskip : unescape.go 5 (CodePoint.ofChar 'u' :: (hex 4 c.val ++ s)) = unescape.go 0 s := by
      have := unescape_skip (CodePoint.ofChar 'u' :: hex 4 c.val) s
      rwa [List.length_cons, hlen] at this
    show unescape.go 0 (CodePoint.ofChar '\\' :: CodePoint.ofChar 'u' :: (hex 4 c.val ++ s)) = _
    rw [unescape.go.eq_def]
    simp only [if_true, readEscape_hex hc]
    rw [← hskip]
    rfl

theorem Quotes.unescape_eq {t w : Text} (h : Quotes t w) : unescape w = .ok t := by
  unfold unescape
  induction h with
  | nil => rfl
  | cons hc _ ih => rw [unescape_written hc, ih]; rfl

end Unescape

/-! ## Finding the closing quote -/

section ClosingQuote
variable {c : CodePoint} {piece s : Text} {room n : Nat}

/-- Code points that mean nothing to the search are passed over. -/
theorem closingQuote_plain {w : Text} (h : closingQuote '"' room s = .ok (some n))
    (hw : ∀ c ∈ w, c ≠ CodePoint.ofChar '"' ∧ c ≠ CodePoint.ofChar '\\' ∧ c ≠ CodePoint.ofChar '\n') :
    closingQuote '"' (w.length + room) (w ++ s) = .ok (some (w.length + n)) := by
  induction w with
  | nil => simpa using h
  | cons c rest ih =>
    obtain ⟨hquote, hslash, hline⟩ := hw c List.mem_cons_self
    have hrest := ih fun d hd => hw d (List.mem_cons_of_mem _ hd)
    rw [List.length_cons, List.cons_append, Nat.add_right_comm, closingQuote.eq_def]
    simp only [hquote, hslash, hline, if_false, hrest]
    rw [Nat.add_right_comm]
    rfl

/-- A backslash and what comes right behind it are passed over. -/
theorem closingQuote_slash {d : CodePoint} (h : closingQuote '"' room s = .ok (some n)) :
    closingQuote '"' (room + 2) ('\\' :: d :: s) = .ok (some (n + 2)) := by
  rw [closingQuote.eq_def]
  simp only [if_true, Nat.add_one_sub_one]
  rw [h]
  rfl

theorem hex_plain : ∀ n : Fin 0x20, ∀ c ∈ hex 4 n,
    c ≠ CodePoint.ofChar '"' ∧ c ≠ CodePoint.ofChar '\\' ∧ c ≠ CodePoint.ofChar '\n' := by
  decide

theorem closingQuote_written (hc : Written c piece) (h : closingQuote '"' room s = .ok (some n)) :
    closingQuote '"' (piece.length + room) (piece ++ s) = .ok (some (piece.length + n)) := by
  cases hc with
  | plain hquote hslash hline =>
    exact closingQuote_plain h fun d hd => List.mem_singleton.1 hd ▸ ⟨hquote, hslash, hline⟩
  | @short d _ _ _ _ =>
    rw [List.length_cons, List.length_singleton, Nat.add_comm _ room, Nat.add_comm _ n]
    exact closingQuote_slash h
  | numbered hc =>
    have hdigits := closingQuote_plain h (hex_plain ⟨c.val, hc⟩)
    have hlen : (Text.ofString "\\u" ++ hex 4 c.val).length = (hex 4 c.val).length + 2 := by
      rw [List.length_append, Nat.add_comm]
      rfl
    rw [hlen, Nat.add_right_comm, Nat.add_right_comm _ 2 n]
    exact closingQuote_slash (d := 'u') hdigits

/-- The search finds the quote behind a text that is quoted. -/
theorem Quotes.closingQuote_eq {t w : Text} (h : Quotes t w) (s : Text) (hroom : 0 < room) :
    closingQuote '"' (w.length + room) (w ++ CodePoint.ofChar '"' :: s) = .ok (some w.length) := by
  induction h with
  | nil =>
    obtain ⟨room, rfl⟩ : ∃ k, room = k + 1 := ⟨room - 1, by omega⟩
    rw [List.length_nil, Nat.zero_add, List.nil_append, closingQuote.eq_def]
    have hslash : ¬ CodePoint.ofChar '"' = CodePoint.ofChar '\\' := by simp
    simp only [hslash, if_false, if_true]
  | @cons c t piece w hc _ ih =>
    have := closingQuote_written hc ih
    rw [List.append_assoc, List.length_append, Nat.add_assoc]
    exact this

/-- A quoted text stands on one line. -/
theorem Quotes.line {t w : Text} (h : Quotes t w) : CodePoint.ofChar '\n' ∉ w := by
  induction h with
  | nil => exact List.not_mem_nil
  | @cons c t piece w hc _ ih =>
    rw [List.mem_append, not_or]
    refine ⟨?_, ih⟩
    cases hc with
    | plain _ _ hline => exact fun hmem => hline (List.mem_singleton.1 hmem).symm
    | short _ _ hline =>
      intro hmem
      rcases List.mem_cons.1 hmem with h | h
      · exact absurd h (by decide)
      · exact hline (List.mem_singleton.1 h).symm
    | numbered hc =>
      intro hmem
      rcases List.mem_append.1 hmem with h | h
      · exact absurd h (by decide)
      · exact (hex_plain ⟨c.val, hc⟩ _ h).2.2 rfl

end ClosingQuote

end Text

end WireSchema

/-!
## Quotes of JSON and of TypeSpec

The two kinds of literals differ just where the text has the start of an
interpolation, which only a TypeSpec literal guards.
-/

namespace WireSchema.Text

theorem guardInterpolation_cons {c : CodePoint} {t : Text} (h : startsWith (c :: t) interpolation = false) :
    guardInterpolation (c :: t) = c :: guardInterpolation t :=
  replace_cons h

theorem startsWith_iff_prefix (t start : Text) : startsWith t start = true ↔ start <+: t := List.isPrefixOf_iff_prefix

/-- Guarding changes a text just where it has something to guard. -/
theorem guardInterpolation_eq_self (t : Text) : guardInterpolation t = t ↔ ¬ interpolation <:+: t := by
  induction t with
  | nil => exact ⟨fun _ h => absurd (List.infix_nil.1 h) (by decide), fun _ => rfl⟩
  | cons c t ih =>
    cases hstart : startsWith (c :: t) interpolation with
    | true =>
      obtain ⟨rest, heq⟩ := eq_append_of_startsWith hstart
      rw [heq]
      have hguarded : guardInterpolation (interpolation ++ rest) = ("\\" ++ interpolation) ++ guardInterpolation rest :=
        replace_append (by decide) rest
      constructor
      · intro hsame
        rw [hguarded] at hsame
        exact absurd (List.cons_eq_cons.1 hsame).1 (by decide)
      · intro hnot
        exact absurd (List.prefix_append _ rest).isInfix hnot
    | false =>
      rw [guardInterpolation_cons hstart, List.cons_inj_right, ih, List.infix_cons_iff, ← startsWith_iff_prefix, hstart]
      simp

/-! ### Quoting -/

section
variable {c d : CodePoint} {piece : Text}

theorem Written.ne_nil (h : Written c piece) : piece ≠ [] := by
  cases h with
  | plain => exact List.cons_ne_nil _ _
  | short => exact List.cons_ne_nil _ _
  | numbered => exact List.cons_ne_nil _ _

/-- A dollar or an opening brace is written only for itself. -/
theorem Written.eq_of_mem (h : Written c piece) (hd : d = '$' ∨ d = '\x7b') (hmem : d ∈ piece) : d = c := by
  cases h with
  | plain => exact List.mem_singleton.1 hmem
  | @short e _ _ _ hread =>
    have hslash : d ≠ '\\' := by rcases hd with rfl | rfl <;> decide
    obtain rfl : d = e := by simpa [hslash] using hmem
    have hescape : simpleEscape? d = none := by rcases hd with rfl | rfl <;> rfl
    rw [hescape] at hread
    rcases hread with hread | ⟨_, heq⟩
    · cases hread
    · exact heq
  | numbered hc =>
    have hhex : ∀ n : Fin 0x20, ∀ x ∈ ("\\u" ++ hex 4 n : Text), x ≠ '$' ∧ x ≠ '\x7b' := by decide
    obtain ⟨hdollar, hbrace⟩ := hhex ⟨c.val, hc⟩ d hmem
    rcases hd with hd | hd
    · exact absurd hd hdollar
    · exact absurd hd hbrace

end

theorem quoteInside_cons (c : CodePoint) (t : Text) : quoteInside (c :: t) = quoteCodePoint c ++ quoteInside t := rfl

theorem startsWith_quoteInside (t : Text) : startsWith (quoteInside t) "\x7b" = startsWith t "\x7b" := by
  cases t with
  | nil => rfl
  | cons c t =>
    by_cases hc : c = '\x7b'
    · subst hc
      rfl
    · have hwritten := quoteCodePoint_written c
      obtain ⟨d, piece, heq⟩ := List.exists_cons_of_ne_nil hwritten.ne_nil
      have hd : d ≠ '\x7b' := fun hd =>
        hc ((hwritten.eq_of_mem (.inr hd) (heq ▸ List.mem_cons_self)).symm.trans hd)
      rw [quoteInside_cons, heq, List.cons_append]
      exact (startsWith_cons hd _).trans (startsWith_cons hc _).symm

/-- An interpolation starts in the quoted text where one starts in the text. -/
theorem interpolation_infix_quoteInside (t : Text) : interpolation <:+: quoteInside t ↔ interpolation <:+: t := by
  induction t with
  | nil => rfl
  | cons c t ih =>
    show CodePoint.ofChar '$' :: "\x7b" <:+: _ ↔ CodePoint.ofChar '$' :: "\x7b" <:+: _
    by_cases hc : c = '$'
    · subst hc
      show _ <:+: CodePoint.ofChar '$' :: quoteInside t ↔ _
      rw [List.infix_cons_iff, List.infix_cons_iff, List.prefix_cons_inj, List.prefix_cons_inj,
        ← startsWith_iff_prefix, ← startsWith_iff_prefix, startsWith_quoteInside]
      exact or_congr_right ih
    · have hnot : CodePoint.ofChar '$' ∉ quoteCodePoint c := fun hmem =>
        hc ((quoteCodePoint_written c).eq_of_mem (.inl rfl) hmem).symm
      rw [quoteInside_cons, infix_append_of_not_mem hnot, infix_cons_of_ne (Ne.symm hc)]
      exact ih

/-- The two kinds of literals are the same but for the texts with the start of
an interpolation. -/
theorem quote_eq_literal (t : Text) : quote t = literal t ↔ ¬ interpolation <:+: t := by
  rw [quote, literal, List.append_left_inj, List.append_right_inj, literalInside, eq_comm, guardInterpolation_eq_self,
    interpolation_infix_quoteInside]

end WireSchema.Text
