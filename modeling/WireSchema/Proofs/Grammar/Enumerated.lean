import WireSchema.Proofs.Grammar.Enumerations
import WireSchema.Proofs.Project.Legible
/-!
# Enumerations of a source

Each enumeration that is read from a source stands among its tokens as
`Enumerates` has it, and what stands there so is read.
-/

namespace WireSchema

open Source Source.Cursor Source.Parser

namespace DeclarationGrammar

section
variable {source : Text} {limit : Nat} {rules : Rules} {start c : Cursor} {docs : DocComment}

/-- The declaration, if it is an enumeration, is written in the tokens. -/
def WrittenIn (tokens : List Token) (d : Declaration) : Prop :=
  ∀ members, d.body = .enumeration members → ∃ front ts back, tokens = front ++ ts ++ back ∧ Enumerates ts d

/-- The cursor has come from `start` and stands before tokens of the lexer. -/
def ReadingFrom (source : Text) (limit : Nat) (start c : Cursor) : Prop := c.Reading source limit ∧ start.Reaches c

theorem ReadingFrom.on {d : Cursor} (h : ReadingFrom source limit start c) (hd : On source limit c d) :
    ReadingFrom source limit start d := ⟨h.1.on hd, h.2.trans hd.reaches⟩

theorem written_interface : Answers (interface rules docs) c fun d _ => WrittenIn start.rest d := by
  refine .next fun _ _ => .next fun _ _ => .next fun _ _ => .next fun _ _ => .next fun _ _ => .pure fun members h => ?_
  cases h

theorem written_typeAlias : Answers (typeAlias rules docs) c fun d _ => WrittenIn start.rest d := by
  refine .next fun _ _ => .next fun _ _ => .next fun _ _ => .next fun _ _ => .next fun _ _ => .next fun _ _ =>
    .pure fun members h => ?_
  cases h

theorem written_enumeration (h : ReadingFrom source limit start c) :
    Answers (enumeration docs) c fun d _ => WrittenIn start.rest d := by
  intro d after hd members hmembers
  obtain ⟨ts, rfl, hts, _⟩ := enumeration_ok h.1.2 hd
  obtain ⟨front, rfl⟩ := h.2
  exact ⟨front, ts, after.rest, by simp, hts⟩

end

end DeclarationGrammar

open DeclarationGrammar

/-- Each enumeration of a source stands among its tokens with its members, which
are counted as their values say, and an enumeration that stands so before a
cursor is read. What stands behind a `=`, with its brackets nested, is passed
over to the first comma or closing bracket that is not inside of them. Numerals of
any length are read as numbers. -/
theorem Declaration.enumerations_counted :
    (∀ source declarations, parse source = .ok declarations → ∃ tokens, tokenize source 0 source.length = .ok tokens ∧
      ∀ d ∈ declarations, WrittenIn tokens d) ∧
    (∀ (c c' : Cursor) (docs : DocComment) (d : Declaration), c.Lexed →
      (enumeration docs c = .ok (d, c') ↔ ∃ ts, c = c'.before ts ∧ Enumerates ts d ∧ d.docs = docs)) ∧
    ∀ (c : Cursor) (us : List Token), Nested us → (∀ t ∈ us, t.isEnd = false) →
      (∀ front t back, us = front ++ t :: back → Nested front → t.isOneOf [","] = false) →
      c.peek.isOneOf [",", ")", "]", "\x7d"] = true → Takes skipValue us c () := by
  refine ⟨fun source declarations h => ?_, fun c c' docs d hc => ⟨enumeration_ok hc, ?_⟩,
    fun c us hnested hend hcomma hstop => skipValue_takes (enclosed_of_nested hnested hend hcomma) hstop⟩
  · obtain ⟨tokens, htokens, h⟩ := Except.bind_eq_ok.1 h
    obtain ⟨⟨found, after⟩, hfound, heq⟩ := Except.bind_eq_ok.1 h
    cases heq
    have hreading : ReadingFrom source (source.length + 2) (ofTokens tokens) (ofTokens tokens) :=
      ⟨reading_ofTokens htokens, .refl _⟩
    have hall := answers_statements (fun h => h.1.1) ReadingFrom.on (fun _ => written_interface)
      (fun _ => written_typeAlias) written_enumeration (Rules.end_upTo source _) hreading _ after hfound
    obtain ⟨ts, last, rfl, _⟩ := tokenize_lexed htokens
    refine ⟨ts ++ [last], htokens, fun d hd members hmembers => ?_⟩
    obtain ⟨front, us, back, heq, hus⟩ := hall d hd members hmembers
    refine ⟨front, us, back ++ [last], ?_, hus⟩
    rw [← List.append_assoc, ← heq]
    simp [ofTokens]
  · rintro ⟨ts, rfl, hts, rfl⟩
    exact hts.takes hc

/-- The value of the last member holds a comma in brackets. -/
def countedSource : Text := "enum E \x7b A = 7, B, C = f(1, 2) \x7d"

def countedEnum : Declaration where
  name := "E"
  docs := {}
  body := .enumeration [⟨"A", some "7"⟩, ⟨"B", some "8"⟩, ⟨"C", none⟩]

/-- The tokens of the value. -/
def callTokens : List Token :=
  let token (lexeme : Lexeme) (raw : Text) (start stop : Nat) (spaceBefore : Bool) : Token :=
    { lexeme, raw, start, stop, spaceBefore, lineBreak := false, docs := [] }
  [token .word "f" 23 24 true, token .mark "(" 24 25 false, token .number "1" 25 26 false, token .mark "," 26 27 false,
    token .number "2" 28 29 true, token .mark ")" 29 30 false]

/-- The tokens of the source before the end of the input. -/
def countedTokens : List Token :=
  let token (lexeme : Lexeme) (raw : Text) (start stop : Nat) (spaceBefore : Bool) : Token :=
    { lexeme, raw, start, stop, spaceBefore, lineBreak := false, docs := [] }
  [token .word "enum" 0 4 false, token .word "E" 5 6 true, token .mark "\x7b" 7 8 true, token .word "A" 9 10 true,
    token .mark "=" 11 12 true, token .number "7" 13 14 true, token .mark "," 14 15 false, token .word "B" 16 17 true,
    token .mark "," 17 18 false, token .word "C" 19 20 true, token .mark "=" 21 22 true] ++ callTokens ++
    [token .mark "\x7d" 31 32 true]

def countedEnd : Token :=
  { lexeme := .endOfInput, raw := [], start := 32, stop := 32, spaceBefore := false, lineBreak := true, docs := [] }

theorem tokenize_counted : tokenize countedSource 0 countedSource.length = .ok (countedTokens ++ [countedEnd]) := by
  rw [countedSource, countedTokens, callTokens, countedEnd]
  cbv

/-- One member says what it stands for, the next one counts on, and the last one has a call for its value. -/
theorem Declaration.enumerations_counted_call :
    Declaration.parse countedSource = .ok [countedEnum] ∧ WrittenIn (countedTokens ++ [countedEnd]) countedEnum ∧
      (∃ ts, Cursor.mk countedTokens countedEnd = (Cursor.mk [] countedEnd).before ts ∧ Enumerates ts countedEnum) ∧
      Takes skipValue callTokens ⟨countedTokens.drop 17, countedEnd⟩ () := by
  obtain ⟨hsource, henumeration, hvalue⟩ := Declaration.enumerations_counted
  have hparse : Declaration.parse countedSource = .ok [countedEnum] := by
    rw [Declaration.parse]
    exact (congrArg (· >>= _) tokenize_counted).trans rfl
  have hwritten : WrittenIn (countedTokens ++ [countedEnd]) countedEnum := by
    obtain ⟨tokens, htokens, hall⟩ := hsource _ _ hparse
    cases tokenize_counted.symm.trans htokens
    exact hall _ List.mem_cons_self
  have hlexed : (Cursor.mk countedTokens countedEnd).Lexed := by
    have hreading := (reading_ofTokens tokenize_counted).2
    rwa [ofTokens, List.dropLast_concat, List.getLastD_concat] at hreading
  have hread : enumeration {} ⟨countedTokens, countedEnd⟩ = .ok (countedEnum, ⟨[], countedEnd⟩) := by rfl
  obtain ⟨ts, hts, henumerates, -⟩ := (henumeration _ _ _ _ hlexed).1 hread
  -- the comma of the value is inside of its brackets
  have hcommas : ∀ i : Fin callTokens.length, Nested (callTokens.take i) → callTokens[i].isOneOf [","] = false := by decide
  have hinside (front : List Token) (t : Token) (back : List Token) (hsplit : callTokens = front ++ t :: back)
      (hfront : Nested front) : t.isOneOf [","] = false := by
    have hlt : front.length < callTokens.length := by
      rw [hsplit]
      simp
    have hcomma := hcommas ⟨front.length, hlt⟩
    simp only [hsplit, List.take_left, Fin.getElem_fin, List.getElem_append_right (Nat.le_refl _)] at hcomma
    simpa using hcomma hfront
  refine ⟨hparse, hwritten, ⟨ts, hts, henumerates⟩, ?_⟩
  exact hvalue _ callTokens (by decide) (by decide) hinside (by decide)

end WireSchema
