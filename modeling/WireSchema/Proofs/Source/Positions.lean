import WireSchema.Proofs.Grammar.Members
import WireSchema.Proofs.Grammar.Reported
import WireSchema.Proofs.Grammar.Statements
/-!
# Positions

The offset of a position is found again from its line and column, and the line
table finds the same position as counting does. What a unit is rejected at is
a position of its own source, also where a hole of a template is at fault.
-/

namespace WireSchema

section
variable {source s : Text} {offset : Nat} {n place : Int}

namespace LineTable

/-! ## Where lines start -/

theorem startsFrom_append (offset : Nat) (s t : Text) :
    startsFrom offset (s ++ t) = startsFrom offset s ++ startsFrom (offset + s.length) t := by
  induction s generalizing offset with
  | nil => rfl
  | cons c s ih =>
    have hlength : offset + (c :: s).length = offset + 1 + s.length := by
      rw [List.length_cons]
      omega
    rw [List.cons_append, startsFrom, startsFrom, ih, hlength]
    split <;> rfl

theorem length_startsFrom (offset : Nat) (s : Text) :
    (startsFrom offset s).length = s.count (CodePoint.ofChar '\n') := by
  induction s generalizing offset with
  | nil => rfl
  | cons c s ih =>
    rw [startsFrom]
    split
    next hfeed => rw [List.length_cons, ih, hfeed, List.count_cons_self]
    next hother => rw [ih, List.count_cons_of_ne hother]

theorem mem_startsFrom (h : n ∈ startsFrom offset s) : (offset : Int) < n ∧ n ≤ offset + s.length := by
  induction s generalizing offset with
  | nil => cases h
  | cons c s ih =>
    have hlater (h : n ∈ startsFrom (offset + 1) s) : (offset : Int) < n ∧ n ≤ offset + (c :: s).length := by
      have := ih h
      push_cast [List.length_cons] at this ⊢
      omega
    rw [startsFrom] at h
    split at h
    · rcases List.mem_cons.1 h with rfl | h
      · push_cast [List.length_cons]
        omega
      · exact hlater h
    · exact hlater h

/-- The last line of a text starts behind its last line feed. -/
theorem getLast?_startsFrom (offset : Nat) (s : Text) :
    ((offset : Int) :: startsFrom offset s).getLast? =
      some ((offset + s.length : Int) - (s.reverse.takeWhile (· ≠ CodePoint.ofChar '\n')).length) := by
  induction s using List.reverseRecOn with
  | nil => simp [startsFrom]
  | append_singleton s c ih =>
    rw [startsFrom_append, List.reverse_append, List.reverse_singleton, List.singleton_append, ← List.cons_append,
      startsFrom, startsFrom]
    by_cases hfeed : c = CodePoint.ofChar '\n'
    · rw [if_pos hfeed, List.getLast?_concat, List.takeWhile_cons_of_neg (by simpa using hfeed)]
      simp [Int.add_assoc]
    · rw [if_neg hfeed, List.append_nil, ih, List.takeWhile_cons_of_pos (by simpa using hfeed)]
      push_cast [List.length_append, List.length_cons, List.length_nil]
      congr 1
      omega

/-! ## Searching -/

/-- The search finds where the entries above the offset begin, if those before
are not above it. -/
theorem search_eq {starts : LineTable} {below low high : Nat}
    (hbelow : ∀ i < below, starts.getD i 0 ≤ place) (habove : ∀ i, below ≤ i → i < high → place < starts.getD i 0)
    (hlow : low ≤ below) (hhigh : below ≤ high) : search starts place low high = below := by
  fun_induction search starts place low high with
  | case1 low high hlt middle hbefore ih =>
    have hmiddle : below ≤ middle := by
      refine Nat.le_of_not_lt fun hlt => ?_
      have := hbelow middle hlt
      omega
    exact ih (fun i hi hlt => habove i hi (by omega)) hlow hmiddle
  | case2 low high hlt middle hbehind ih =>
    have hmiddle : middle < below := by
      refine Nat.lt_of_not_le fun hle => ?_
      have := habove middle hle (by omega)
      omega
    exact ih habove hmiddle hhigh
  | case3 low high hdone => omega

/-- A table in two parts, of which the first is not above the offset and the
second is: the line is the number of entries of the first. -/
theorem locate_eq {before after : List Int} {start : Int} (hplace : 0 ≤ place)
    (hbefore : ∀ n ∈ before, n ≤ place) (hafter : ∀ n ∈ after, place < n) (hlast : before.getLast? = some start) :
    locate (before ++ after).toArray place = .ok (before.length, place - start + 1) := by
  have hne : before.length ≠ 0 := by
    rintro hzero
    rw [List.eq_nil_of_length_eq_zero hzero] at hlast
    cases hlast
  have hsearch : search (before ++ after).toArray place 0 (before ++ after).toArray.size = before.length := by
    refine search_eq (fun i hi => ?_) (fun i hi hlt => ?_) (Nat.zero_le _) ?_
    · have hget : (before ++ after).toArray.getD i 0 = before[i] := by
        simp [Array.getD, List.getElem_append_left hi, Nat.lt_add_right after.length hi]
      rw [hget]
      exact hbefore _ (List.getElem_mem hi)
    · have hlt' : i < before.length + after.length := by simpa using hlt
      have hindex : i - before.length < after.length := by omega
      have hget : (before ++ after).toArray.getD i 0 = after[i - before.length] := by
        simp [Array.getD, hlt', List.getElem_append_right hi]
      rw [hget]
      exact hafter _ (List.getElem_mem _)
    · simp
  have hstart : (before ++ after).toArray[before.length - 1]? = some start := by
    rw [List.getElem?_toArray, List.getElem?_append_left (by omega), ← List.getLast?_eq_getElem?, hlast]
  rw [locate, if_neg (by omega)]
  simp only [hsearch, hne, if_false, hstart]

/-- The table of a text, cut where the lines begin that start behind an offset. -/
theorem ofText_eq (h : offset ≤ source.length) : ofText source =
    ((0 :: startsFrom 0 (source.take offset)) ++ startsFrom offset (source.drop offset)).toArray := by
  have hcut := startsFrom_append 0 (source.take offset) (source.drop offset)
  rw [List.take_append_drop, List.length_take, Nat.min_eq_left h, Nat.zero_add] at hcut
  rw [ofText, hcut, List.cons_append]

end LineTable

namespace Position

open LineTable

/-! ## Positions of offsets -/

/-- Where the line of an offset starts, which the offset is measured from. -/
theorem exists_start (h : offset ≤ source.length) :
    ∃ start : Int, (0 :: startsFrom 0 (source.take offset)).getLast? = some start ∧
      start + (ofOffset source offset).column - 1 = offset := by
  have hlength : (source.take offset).length = offset := by rw [List.length_take, Nat.min_eq_left h]
  have hsince : ((source.take offset).reverse.takeWhile (· ≠ CodePoint.ofChar '\n')).length ≤ offset := by
    have hprefix := (List.takeWhile_prefix (l := (source.take offset).reverse) (· ≠ CodePoint.ofChar '\n')).length_le
    rwa [List.length_reverse, hlength] at hprefix
  refine ⟨_, getLast?_startsFrom 0 (source.take offset), ?_⟩
  simp only [ofOffset, hlength]
  push_cast
  omega

/-- Searching in the line table finds what counting line feeds finds. -/
theorem locate_ofOffset (h : offset ≤ source.length) :
    (LineTable.ofText source).locate offset = .ok ((ofOffset source offset).line, ((ofOffset source offset).column : Int)) := by
  obtain ⟨start, hlast, hcolumn⟩ := exists_start h
  have hbefore : ∀ n ∈ 0 :: startsFrom 0 (source.take offset), n ≤ (offset : Int) := by
    refine List.forall_mem_cons.2 ⟨by omega, fun n hn => ?_⟩
    have := (mem_startsFrom hn).2
    rw [List.length_take, Nat.min_eq_left h] at this
    omega
  have hafter : ∀ n ∈ startsFrom offset (source.drop offset), (offset : Int) < n := fun n hn => (mem_startsFrom hn).1
  have hline : (0 :: startsFrom 0 (source.take offset)).length = (ofOffset source offset).line := by
    rw [List.length_cons, length_startsFrom]
    rfl
  have hmeasured : (offset : Int) - start + 1 = (ofOffset source offset).column := by omega
  rw [ofText_eq h, locate_eq (by omega) hbefore hafter hlast, hline, hmeasured]

/-- The line and the column of an offset lead back to it: the column counts
from the start of the line, which stands in the line table. -/
theorem ofOffset_start (h : offset ≤ source.length) :
    ∃ start, (LineTable.ofText source)[(ofOffset source offset).line - 1]? = some start ∧
      start + (ofOffset source offset).column - 1 = offset := by
  obtain ⟨start, hlast, hcolumn⟩ := exists_start h
  refine ⟨start, ?_, hcolumn⟩
  have hline : (ofOffset source offset).line - 1 = (0 :: startsFrom 0 (source.take offset)).length - 1 := by
    rw [List.length_cons, length_startsFrom]
    rfl
  rw [ofText_eq h, hline, List.getElem?_toArray, List.getElem?_append_left (by simp), ← List.getLast?_eq_getElem?, hlast]

end Position

/-- What a unit is rejected at is the position of an offset of its source. -/
theorem Project.readUnit_position {name : Text} {error : Source.SourceError}
    (h : readUnit name source = .error (.rejected error)) :
    error.unit = name ∧ ∃ offset ≤ source.length, error.position = Position.ofOffset source offset := by
  rw [readUnit] at h
  cases hread : Declaration.parse source with
  | ok declarations =>
    rw [hread] at h
    cases h
  | error fault =>
    rw [hread] at h
    cases Declaration.parse_blames hread with
    | rejected hoffset =>
      cases h
      exact ⟨rfl, _, hoffset, rfl⟩
    | escape => cases h
    | numeral => cases h

end

namespace NestedHole

/-! ## A hole in a hole -/

open Source Source.Cursor Source.Parser DeclarationGrammar

/-- A unit with a template in a template, whose hole holds no type. -/
def source : Text := "\ntype A = `$\x7b`$\x7b)\x7d`\x7d`;"

/-- The tokens of the unit: the word `type`, those behind it and the end. -/
def keyword : Token :=
  { lexeme := .word, raw := "type", start := 1, stop := 5, spaceBefore := true, lineBreak := true, docs := [] }

def others : List Token :=
  [{ lexeme := .word, raw := "A", start := 6, stop := 7, spaceBefore := true, lineBreak := false, docs := [] },
   { lexeme := .mark, raw := "=", start := 8, stop := 9, spaceBefore := true, lineBreak := false, docs := [] },
   { lexeme := .template [.chunk [], .hole 13 19, .chunk []], raw := "`$\x7b`$\x7b)\x7d`\x7d`", start := 10, stop := 21,
     spaceBefore := true, lineBreak := false, docs := [] },
   { lexeme := .mark, raw := ";", start := 21, stop := 22, spaceBefore := false, lineBreak := false, docs := [] }]

def last : Token :=
  { lexeme := .endOfInput, raw := [], start := 22, stop := 22, spaceBefore := false, lineBreak := true, docs := [] }

/-- A unit that begins with an alias which cannot be read cannot be read. -/
theorem statements_error {rules : Rules} {c : Cursor} {t : Token} {fault : Fault} (ht : t.is "type" = true)
    (hname : c.peek.isWord = true) (h : typeAlias rules (DocComment.ofBlocks t.docs) (c.before [t]) = .error fault) :
    statements rules (c.before [t]) = .error fault := by
  have hnot {w : Text} (hne : Text.ofString "type" ≠ w) : (c.before [t]).sees w = false := Token.is_ne ht hne
  have hmodifiers : loop (fun () => do
      if ← acceptEither "export" "declare" then return .again () else return .done () : Unit → Parser (Turn Unit Unit)) ()
        (c.before [t]) = .ok ((), c.before [t]) :=
    loop_done (by simp [acceptEither_of_not_sees (hnot (w := "export") (by decide)) (hnot (w := "declare") (by decide))])
  have hbegins : ((c.before [t]).sees "type" && ((c.before [t]).peek 1).isWord) = true := Bool.and_eq_true_iff.2 ⟨ht, hname⟩
  have hstatement : statement rules (c.before [t]) = .error fault := by
    simp only [statement, bind_apply, peek_apply, ok_bind, accept_of_not_sees (hnot (w := ";") (by decide)),
      sees_apply, hnot (w := "export") (by decide), Bool.false_and, Bool.false_eq_true, if_false, hmodifiers, get_apply,
      hnot (w := "interface") (by decide), hbegins, if_true, peek_before, h]
    rfl
  simp only [statements_eq, loop_apply, rounds, statementsRound, bind_apply, peek_apply, ok_bind, peek_before,
    Token.not_isEnd_of_is ht, Bool.false_eq_true, if_false, hstatement]
  rfl

set_option maxRecDepth 1000 in
/-- The parenthesis in the inner hole is what is wrong. -/
theorem parse_source : Declaration.parse source = .error (.rejected (.unexpectedInType ")") 16) := by
  have htokens : tokenize source 0 source.length = .ok (keyword :: others ++ [last]) := by cbv
  have halias : typeAlias (Rules.of source) (DocComment.ofBlocks keyword.docs) (Cursor.before ⟨others, last⟩ [keyword]) =
      .error (.rejected (.unexpectedInType ")") 16) := by cbv
  have hstatements := statements_error (by decide) (by decide) halias
  rw [Declaration.parse, htokens]
  change ((statements (Rules.of source) (Cursor.before ⟨others, last⟩ [keyword])).bind _) = _
  rw [hstatements]
  rfl

end NestedHole

/-- Positions are exact. The line table finds for every offset of a text what
counting finds, and the position determines the offset. What a unit is rejected
at, also inside the holes of its templates, is the position of an offset of the
whole source. -/
theorem positions_exact (source : Text) :
    (∀ offset ≤ source.length,
      (LineTable.ofText source).locate offset =
        .ok ((Position.ofOffset source offset).line, ((Position.ofOffset source offset).column : Int)) ∧
      ∃ start, (LineTable.ofText source)[(Position.ofOffset source offset).line - 1]? = some start ∧
        start + (Position.ofOffset source offset).column - 1 = offset) ∧
    ∀ name error, Project.readUnit name source = .error (.rejected error) →
      error.unit = name ∧ ∃ offset ≤ source.length, error.position = Position.ofOffset source offset :=
  ⟨fun _ h => ⟨Position.locate_ofOffset h, Position.ofOffset_start h⟩, fun _ _ => Project.readUnit_position⟩

theorem positions_exact_hole :
    (LineTable.ofText NestedHole.source).locate 16 = .ok (2, 16) ∧
    Project.readUnit "u" NestedHole.source = .error (.rejected
      { unit := "u", position := { line := 2, column := 16 }, cause := .unexpectedInType ")" }) ∧
    ∃ offset ≤ NestedHole.source.length,
      ({ line := 2, column := 16 } : Position) = Position.ofOffset NestedHole.source offset := by
  have hplace : Position.ofOffset NestedHole.source 16 = { line := 2, column := 16 } := by cbv
  have hread : Project.readUnit "u" NestedHole.source = .error (.rejected
      { unit := "u", position := { line := 2, column := 16 }, cause := .unexpectedInType ")" }) := by
    rw [Project.readUnit, NestedHole.parse_source, ← hplace]
    rfl
  have hlocate := ((positions_exact NestedHole.source).1 16 (by decide)).1
  rw [hplace] at hlocate
  exact ⟨hlocate, hread, ((positions_exact NestedHole.source).2 _ _ hread).2⟩

end WireSchema
