import Mathlib
import WireSchema.Proofs.Grammar.Ground
import WireSchema.Proofs.Grammar.Walk
import WireSchema.Project.Basic
/-!
# Every source is read or blamed

Each rule of the grammar ends, for any source: it answers behind at least one
token, or finds a fault that the source gives rise to. The whole library is here for
the evaluation of sources by `cbv`.
-/

namespace WireSchema

open Source Source.Cursor Source.Parser

/-- The rules end at all cursors that fit. -/
structure Rules.End (source : Text) (limit : Nat) (rules : Rules) : Prop where
  type : ∀ {start c}, On source limit start c → Ends source rules.type c fun _ => Past source limit start
  operand : ∀ {start c}, On source limit start c → Ends source rules.operand c fun _ => Past source limit start
  hole : ∀ {a b}, EndsWindow source b → a ≤ b → b - a < limit →
    ∀ fault, rules.hole a b = .error fault → Blames source fault

section
variable {source : Text} {at_ stop limit : Nat} {tokens : List Token} {rules : Rules}

/-- The cursor before the tokens of a window stands in the source. -/
theorem Cursor.fits_ofTokens (hends : EndsWindow source stop) (hat : at_ ≤ stop)
    (h : tokenize source at_ stop = .ok tokens) : (ofTokens tokens).Fits source (stop - at_ + 1) := by
  have hroom := (tokenize_accounts hends h).length_raw_le hends.le hat
  obtain ⟨ts, last, rfl, hplaced, hlast, hstart⟩ := tokensFrom_placed hends.le rfl h
  rw [List.map_append, List.sum_append] at hroom
  refine ⟨?_, ?_, ?_, ?_⟩
  · simpa [ofTokens] using hplaced
  · simpa [ofTokens] using hlast
  · simpa [ofTokens, hstart] using hends.le
  · simp only [room, ofTokens, List.dropLast_concat]
    omega

theorem Rules.end_iff : rules.End source limit ↔ (Ground.placed source).Admits limit rules where
  mp h :=
    { type := fun hc => (ends_iff.1 (h.type (on_iff.2 hc))).mono fun _ _ => past_iff.1
      operand := fun hc => (ends_iff.1 (h.operand (on_iff.2 hc))).mono fun _ _ => past_iff.1
      hole := fun hhole => h.hole hhole.1 hhole.2.1 hhole.2.2 _ }
  mpr h :=
    { type := fun hc => .past (h.type (on_iff.1 hc))
      operand := fun hc => .past (h.operand (on_iff.1 hc))
      hole := fun hends hab hlt _ => h.hole ⟨hends, hab, hlt⟩ }

/-- Where fewer than no code points are left there is no cursor. -/
theorem covers_placed (source : Text) : (Ground.placed source).Covers source where
  empty h := absurd h.room (Nat.not_lt_zero _)
  emptyHole h := absurd h.2.2 (Nat.not_lt_zero _)
  tokens h htokens := (Cursor.fits_ofTokens h.1 h.2.1 htokens).mono h.2.2
  fault h := tokenize_blames h.1.le

theorem Rules.end_upTo (source : Text) (limit : Nat) : (Rules.upTo source limit).End source limit :=
  Rules.end_iff.2 ((covers_placed source).admits limit)

end

/-! ## The rules, one by one -/

section
variable {source : Text} {limit : Nat} {rules : Rules} {start c : Cursor}

namespace TypeGrammar

theorem ends_qualifiedName (h : On source limit start c) :
    Ends source qualifiedName c fun _ => Past source limit start := .past (Ground.ends_qualifiedName (on_iff.1 h))

theorem ends_readonly (h : On source limit start c) :
    Ends source (loop readonlyRound ()) c fun _ => On source limit start := .on (Ground.ends_readonly (on_iff.1 h))

theorem ends_separators (h : On source limit start c) :
    Ends source (loop separatorRound ()) c fun _ => On source limit start := .on (Ground.ends_separators (on_iff.1 h))

theorem ends_elementName (h : On source limit start c) :
    Ends source elementName c fun _ => On source limit start := .on (Ground.ends_elementName (on_iff.1 h))

theorem ends_chain {mark : Text} {item : Parser TypeExpr} {build : List TypeExpr → Text → TypeExpr}
    (h : On source limit start c)
    (hitem : ∀ c, On source limit c c → Ends source item c fun _ => Past source limit c) :
    Ends source (chain mark item build) c fun _ => Past source limit start :=
  .past (Ground.ends_chain (on_iff.1 h) fun d hd => (ends_iff.1 (hitem d (on_iff.2 hd))).mono fun _ _ => past_iff.1)

variable (hr : rules.End source limit)
include hr

theorem ends_functionType (h : On source (limit + 1) start c) :
    Ends source (functionType rules) c fun _ => Past source (limit + 1) start :=
  .past (Ground.ends_functionType (Rules.end_iff.1 hr) (on_iff.1 h))

theorem ends_member (h : On source limit start c) :
    Ends source (member rules) c fun _ => Past source limit start :=
  .past (Ground.ends_member (Rules.end_iff.1 hr) (on_iff.1 h))

theorem ends_tuple (h : On source (limit + 1) start c) :
    Ends source (tuple rules) c fun _ => Past source (limit + 1) start :=
  .past (Ground.ends_tuple (Rules.end_iff.1 hr) (on_iff.1 h))

theorem ends_reference (h : On source (limit + 1) start c) :
    Ends source (reference rules) c fun _ => Past source (limit + 1) start :=
  .past (Ground.ends_reference (Rules.end_iff.1 hr) (on_iff.1 h))

theorem ends_wordType {word : Text} (h : On source (limit + 1) start c) (hword : c.peek.isWord = true) :
    Ends source (wordType rules word) c fun _ => Past source (limit + 1) start :=
  .past (Ground.ends_wordType (Rules.end_iff.1 hr) (on_iff.1 h) hword)

theorem ends_markType (h : On source (limit + 1) start c) (hmark : c.peek.isMark = true) :
    Ends source (markType rules c.peek) c fun _ => Past source (limit + 1) start :=
  .past (Ground.ends_markType (Rules.end_iff.1 hr) (on_iff.1 h) hmark)

theorem ends_primary (h : On source (limit + 1) start c) :
    Ends source (primary rules) c fun _ => Past source (limit + 1) start :=
  .past (Ground.ends_primary (Rules.end_iff.1 hr) (on_iff.1 h))

theorem ends_operand (h : On source (limit + 1) start c) :
    Ends source (operand rules) c fun _ => Past source (limit + 1) start :=
  .past (Ground.ends_operand (Rules.end_iff.1 hr) (on_iff.1 h))

theorem ends_type (h : On source (limit + 1) start c) :
    Ends source (TypeGrammar.type rules) c fun _ => Past source (limit + 1) start :=
  .past (Ground.ends_type (Rules.end_iff.1 hr) (on_iff.1 h))

end TypeGrammar

namespace DeclarationGrammar

theorem ends_value (h : On source limit start c) : Ends source value c fun _ => On source limit start :=
  .on (Ground.ends_value (on_iff.1 h))

variable (hr : rules.End source limit)
include hr

theorem ends_parameters (h : On source limit start c) :
    Ends source (parameters rules) c fun _ => On source limit start :=
  .on (Ground.ends_parameters (Rules.end_iff.1 hr) (on_iff.1 h))

theorem ends_bases (h : On source limit start c) : Ends source (bases rules) c fun _ => On source limit start :=
  .on (Ground.ends_bases (Rules.end_iff.1 hr) (on_iff.1 h))

theorem ends_statement (h : On source limit start c) (hend : c.peek.isEnd = false) :
    Ends source (statement rules) c fun _ => Past source limit start :=
  .past (Ground.ends_statement (Rules.end_iff.1 hr) (on_iff.1 h) hend)

end DeclarationGrammar

end

/-- A source is read, or it gives rise to the fault that is found. -/
theorem Declaration.parse_blames {source : Text} {fault : Fault} (h : parse source = .error fault) :
    Blames source fault :=
  (covers_placed source).parse_blames ⟨.inl rfl, Nat.zero_le _, by omega⟩ h

namespace Project

/-- What comes of reading a unit. A unit that is not read is rejected at a
position of its source, unless the source has a literal with an escape that
cannot be read or a digit that is not decimal. -/
inductive Reads (name source : Text) : Except UnitError SourceUnit → Prop where
  | unit (declarations : List Declaration) : Declaration.parse source = .ok declarations →
    Reads name source (.ok { name, declarations })
  | rejected {cause : Rejection} {offset : Nat} : offset ≤ source.length →
    Reads name source (.error (.rejected (.at_ name source cause offset)))
  | escape {front inside back : Text} {mark : CodePoint} {error : EscapeError} :
    source = front ++ mark :: (inside ++ back) → mark ∈ literalMarks → Text.unescape inside = .error error →
    Reads name source (.error (.unreadable (.escape error)))
  | numeral {c : CodePoint} : c ∈ source → c.isDigit = true → c.isDecimal = false →
    Reads name source (.error (.unreadable .numeral))

/-- However a source is written, its unit is read or reported. -/
theorem readUnit_reported (name source : Text) : Reads name source (readUnit name source) := by
  unfold readUnit
  cases h : Declaration.parse source with
  | ok declarations => exact .unit declarations h
  | error fault =>
    cases Declaration.parse_blames h with
    | rejected hoffset => exact .rejected hoffset
    | escape hsource hmark hread => exact .escape hsource hmark hread
    | numeral hmem hdigit hdecimal => exact .numeral hmem hdigit hdecimal

/-- Literals that are not reported as what is wrong with a source: digits that
are no numeral, a brace that is not closed, a number above the last code point
and one beyond thirty-two bits, and a digit that no number begins with. -/
theorem readUnit_unreadable :
    readUnit "u" "type X = \"\\xzz\";" = .error (.unreadable (.escape .digits)) ∧
    readUnit "u" "type X = \"\\u\x7b\";" = .error (.unreadable (.escape .unclosed)) ∧
    readUnit "u" "type X = \"\\u\x7b110000\x7d\";" = .error (.unreadable (.escape .range)) ∧
    readUnit "u" "type X = \"\\u\x7b100000000\x7d\";" = .error (.unreadable (.escape .overflow)) ∧
    readUnit "u" "type X = ²;" = .error (.unreadable .numeral) ∧
    ¬ ∀ name source, (∃ unit, readUnit name source = .ok unit) ∨
      ∃ error, readUnit name source = .error (.rejected error) := by
  have hdigits : readUnit "u" "type X = \"\\xzz\";" = .error (.unreadable (.escape .digits)) := by cbv
  refine ⟨hdigits, by cbv, by cbv, by cbv, by cbv, fun hall => ?_⟩
  rcases hall "u" "type X = \"\\xzz\";" with ⟨unit, hunit⟩ | ⟨error, herror⟩
  · rw [hdigits] at hunit
    cases hunit
  · rw [hdigits] at herror
    cases herror

end Project

end WireSchema
