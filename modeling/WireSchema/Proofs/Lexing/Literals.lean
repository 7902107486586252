import WireSchema.Proofs.Grammar.Printed
import WireSchema.Proofs.Lexing.Strings
/-!
# Literals are read back

Both kinds of double-quoted literals are read as one string with the text that
was written, so a canonical literal stands for one text only. In a TypeSpec
literal each start of an interpolation has an odd number of backslashes before
it, so none of them begins an interpolation.
-/

namespace WireSchema

open Source

namespace Text

/-! ## Guarding piece by piece -/

section
variable {c : CodePoint} {t w piece : Text}

theorem guardInterpolation_append (h : CodePoint.ofChar '$' ∉ piece) (w : Text) :
    guardInterpolation (piece ++ w) = piece ++ guardInterpolation w := by
  induction piece with
  | nil => rfl
  | cons c piece ih =>
    rw [List.mem_cons, not_or] at h
    rw [List.cons_append, guardInterpolation_cons (startsWith_cons (Ne.symm h.1) _), ih h.2]
    rfl

/-- Guarding neither makes nor breaks a brace at the start. -/
theorem startsWith_guardInterpolation (w : Text) :
    startsWith (guardInterpolation w) "\x7b" = startsWith w "\x7b" := by
  cases w with
  | nil => rfl
  | cons c w =>
    cases hstart : startsWith (c :: w) interpolation with
    | true =>
      obtain ⟨rest, hrest⟩ := eq_append_of_startsWith hstart
      rw [hrest, guardInterpolation, replace_append (by decide)]
      rfl
    | false =>
      rw [guardInterpolation_cons hstart]
      exact (startsWith_cons_cons _ _ _ _).trans (by rfl)

theorem startsWith_literalInside (t : Text) : startsWith (literalInside t) "\x7b" = startsWith t "\x7b" :=
  (startsWith_guardInterpolation _).trans (startsWith_quoteInside t)

theorem literalInside_interpolation (t : Text) :
    literalInside (interpolation ++ t) = "\\" ++ interpolation ++ literalInside t := by
  have hquoted : quoteInside (interpolation ++ t) = interpolation ++ quoteInside t := rfl
  rw [literalInside, hquoted, guardInterpolation, replace_append (by decide)]
  rfl

/-- Elsewhere a code point is written as `quote` writes it. -/
theorem literalInside_cons (h : startsWith (c :: t) interpolation = false) :
    literalInside (c :: t) = quoteCodePoint c ++ literalInside t := by
  rw [literalInside, quoteInside_cons]
  by_cases hdollar : CodePoint.ofChar '$' ∈ quoteCodePoint c
  · obtain rfl := (quoteCodePoint_written c).eq_of_mem (.inl rfl) hdollar
    have hbrace : startsWith (quoteInside t) "\x7b" = false := by
      rw [startsWith_quoteInside]
      exact h
    exact guardInterpolation_cons (c := '$') hbrace
  · exact guardInterpolation_append hdollar _

/-- How the inside of a TypeSpec literal is written: the start of an
interpolation behind a backslash, any other code point as `quote` writes it. -/
inductive Guarded : Text → Text → Prop where
  | nil : Guarded [] []
  | hole {t w : Text} : Guarded t w → Guarded ('$' :: '\x7b' :: t) ('\\' :: '$' :: '\x7b' :: w)
  | plain {c : CodePoint} {t w : Text} : startsWith (c :: t) interpolation = false →
    startsWith w "\x7b" = startsWith t "\x7b" → Guarded t w → Guarded (c :: t) (quoteCodePoint c ++ w)

theorem literalInside_guarded (t : Text) : Guarded t (literalInside t) := by
  -- the start of an interpolation is two code points long
  induction hlength : t.length using Nat.strongRecOn generalizing t with
  | ind n ih =>
  subst hlength
  cases t with
  | nil => exact .nil
  | cons c t =>
    cases hstart : startsWith (c :: t) interpolation with
    | true =>
      obtain ⟨rest, hrest⟩ := eq_append_of_startsWith hstart
      have hshorter : rest.length < (c :: t).length := by
        rw [hrest, List.length_append]
        exact Nat.lt_add_of_pos_left (by decide)
      rw [hrest, literalInside_interpolation]
      exact .hole (ih _ hshorter rest rfl)
    | false =>
      rw [literalInside_cons hstart]
      exact .plain hstart (startsWith_literalInside t) (ih _ (by simp) t rfl)

/-- The escapes stand for the text. -/
theorem Guarded.quotes (h : Guarded t w) : Quotes t w := by
  induction h with
  | nil => exact .nil
  | hole _ ih =>
    have hdollar : Written '$' "\\$" :=
      .short (d := '$') (by decide) (by decide) (by decide) (.inr ⟨by decide, rfl⟩)
    exact .cons hdollar (.cons (quoteCodePoint_written '\x7b') ih)
  | plain _ _ _ ih => exact .cons (quoteCodePoint_written _) ih

end

/-! ## Backslashes before an interpolation -/

/-- How many backslashes a text ends with. -/
def slashes (t : Text) : Nat := (t.reverse.takeWhile (· == CodePoint.ofChar '\\')).length

/-- Each start of an interpolation has an odd number of backslashes before it. -/
def HolesGuarded (t : Text) : Prop :=
  ∀ before after : Text, t = before ++ interpolation ++ after → slashes before % 2 = 1

section
variable {c : CodePoint} {t w piece before after : Text}

/-- A piece that ends with an even number of backslashes does not matter. -/
theorem slashes_append (h : slashes piece % 2 = 0) (t : Text) : slashes (piece ++ t) % 2 = slashes t % 2 := by
  unfold slashes at *
  rw [List.reverse_append, List.takeWhile_append]
  split
  next hall =>
    rw [List.length_append, hall]
    omega
  · rfl

theorem slashes_written (h : Written c piece) : slashes piece % 2 = 0 := by
  cases h with
  | plain _ hslash _ => simp [slashes, hslash]
  | @short d _ _ _ _ =>
    by_cases hd : d = '\\'
    · subst hd
      rfl
    · simp [slashes, hd]
  | numbered hc =>
    have hall : ∀ n : Fin 0x20, slashes ("\\u" ++ hex 4 n) % 2 = 0 := by decide
    exact hall ⟨c.val, hc⟩

/-- The closing quote comes behind the inside, so that an interpolation does not
begin with its last code point. -/
theorem Guarded.odd (h : Guarded t w) (hw : w ++ "\"" = before ++ interpolation ++ after) :
    slashes before % 2 = 1 := by
  rw [List.append_assoc] at hw
  induction h generalizing before with
  | nil =>
    have hdollar : CodePoint.ofChar '$' ∈ ("\"" : Text) := by
      rw [List.nil_append] at hw
      rw [hw]
      exact List.mem_append_right _ List.mem_cons_self
    exact absurd hdollar (by decide)
  | @hole t w _ ih =>
    rcases before with _ | ⟨b, _ | ⟨d, _ | ⟨e, before⟩⟩⟩
    · exact absurd (List.cons.inj hw).1 (by decide)
    · rw [← (List.cons.inj hw).1]
      decide
    · exact absurd (List.cons.inj (List.cons.inj (List.cons.inj hw).2).2).1 (by decide)
    · obtain ⟨hb, hw⟩ := List.cons.inj hw
      obtain ⟨hd, hw⟩ := List.cons.inj hw
      obtain ⟨he, hw⟩ := List.cons.inj hw
      have heven : slashes ("\\$\x7b" : Text) % 2 = 0 := by decide
      rw [← hb, ← hd, ← he]
      exact (slashes_append heven before).trans (ih hw)
  | @plain c t w hstart hbrace hguarded ih =>
    have hwritten := quoteCodePoint_written c
    rw [List.append_assoc] at hw
    rcases List.append_eq_append_iff.1 hw with ⟨inner, rfl, hrest⟩ | ⟨inner, hpiece, hrest⟩
    · rw [slashes_append (slashes_written hwritten)]
      exact ih hrest
    · cases inner with
      | nil =>
        rw [List.append_nil] at hpiece
        rw [← hpiece, ← List.append_nil (quoteCodePoint c), slashes_append (slashes_written hwritten)]
        exact @ih [] hrest.symm
      | cons d inner =>
        -- the dollar sign would be written for itself, and no brace comes behind it
        obtain ⟨rfl, hbehind⟩ := List.cons.inj hrest
        obtain rfl := hwritten.eq_of_mem (.inl rfl) (hpiece ▸ List.mem_append_right _ List.mem_cons_self)
        have hinner : inner = [] := by
          have := congrArg List.length hpiece
          rw [List.length_append, List.length_cons, show (quoteCodePoint '$').length = 1 from rfl] at this
          exact List.eq_nil_of_length_eq_zero (by omega)
        subst hinner
        have hopens : startsWith (w ++ "\"") "\x7b" = true := by
          have hbehind : "\x7b" ++ after = w ++ "\"" := hbehind
          rw [← hbehind]
          exact startsWith_append _ _
        cases w with
        | nil => exact absurd hopens (by decide)
        | cons e w =>
          have hclosed : startsWith (e :: w) "\x7b" = false := hbrace.trans hstart
          have hsame : startsWith (e :: w ++ "\"") "\x7b" = startsWith (e :: w) "\x7b" := rfl
          rw [hsame, hclosed] at hopens
          exact absurd hopens Bool.false_ne_true

theorem holesGuarded_literal (t : Text) : HolesGuarded (literal t) := by
  intro before after hliteral
  cases before with
  | nil => exact absurd (List.cons.inj hliteral).1 (by decide)
  | cons b before =>
    obtain ⟨rfl, hinside⟩ := List.cons.inj hliteral
    have heven : slashes ("\"" : Text) % 2 = 0 := by decide
    exact (slashes_append heven before).trans ((literalInside_guarded t).odd hinside)

end

/-- A text is all that its quoted form stands for. -/
theorem quote_inj {s t : Text} : quote s = quote t ↔ s = t := by
  refine ⟨fun h => ?_, fun h => congrArg quote h⟩
  have hinside : quoteInside s = quoteInside t := by simpa [quote] using h
  have hs := (quoteInside_quotes s).unescape_eq
  rw [hinside, (quoteInside_quotes t).unescape_eq] at hs
  exact (Except.ok.inj hs).symm

end Text

namespace Source

/-- The tokens of a text that is one string literal. -/
def soleString (raw value : Text) : List Token :=
  [{ lexeme := .string value, raw, start := 0, stop := raw.length, spaceBefore := false, lineBreak := false
     docs := [] },
   { lexeme := .endOfInput, raw := [], start := raw.length, stop := raw.length, spaceBefore := false
     lineBreak := true, docs := [] }]

/-- Between quotes the lexer reads what was written. -/
theorem tokenize_quotes {t w : Text} (h : Text.Quotes t w) :
    tokenize ("\"" ++ w ++ "\"") 0 ("\"" ++ w ++ "\"" : Text).length = .ok (soleString ("\"" ++ w ++ "\"") t) := by
  have hreadable : Chunk.Readable [⟨[], "\"" ++ w ++ "\"", .string t⟩] [] :=
    ⟨fun c hc => absurd hc List.not_mem_nil, Chunk.fits_string h [] _, trivial⟩
  have htext : Chunk.texts [⟨[], "\"" ++ w ++ "\"", .string t⟩] = "\"" ++ w ++ "\"" := by
    simp [Chunk.text]
  have hread := hreadable.tokensFrom_eq (Nat.le_of_eq (Nat.zero_add _))
  rw [htext, List.append_nil, Nat.zero_add] at hread
  rw [tokenize, List.drop_zero, hread, tokensFrom, if_pos (Nat.le_refl _)]
  simp [Except.map, Chunk.tokens, Chunk.token, Chunk.text, soleString]

end Source

namespace TypeExpr

/-- Quoted text is the type of its own literal. -/
theorem parse_quote (t : Text) : parse (Text.quote t) = .ok (.literal (Text.quote t)) := by
  have hprinted := TypeGrammar.printed_string (Text.quoteInside_quotes t)
  obtain ⟨found, hparse, hbare⟩ := (TypeGrammar.Printed.to_union hprinted).parse
  rw [show Text.quote t = "\"" ++ Text.quoteInside t ++ "\"" from rfl, hparse]
  cases found with
  | literal text => exact congrArg Except.ok hbare
  | _ => simp [bare] at hbare

end TypeExpr

/-- A text that is written as a literal of either kind is read back: the literal
is one string token with this text, and nothing else but the end of the input.
As a type the canonical literal is itself, so two of them are the same just if
their texts are, and a TypeSpec literal begins no interpolation. -/
theorem literals_read_back (t : Text) :
    tokenize (Text.quote t) 0 (Text.quote t).length = .ok (soleString (Text.quote t) t) ∧
      tokenize (Text.literal t) 0 (Text.literal t).length = .ok (soleString (Text.literal t) t) ∧
      TypeExpr.parse (Text.quote t) = .ok (.literal (Text.quote t)) ∧
      (∀ u : Text, Text.quote t = Text.quote u ↔ t = u) ∧
      Text.HolesGuarded (Text.literal t) :=
  ⟨tokenize_quotes (Text.quoteInside_quotes t), tokenize_quotes (Text.literalInside_guarded t).quotes,
    TypeExpr.parse_quote t, fun _ => Text.quote_inj, Text.holesGuarded_literal t⟩

/-- Three backslashes stand before the interpolation of this literal: the text's
own one is doubled. -/
example : Text.literal "\\$\x7b" = "\"\\\\\\$\x7b\"" := by decide

end WireSchema
