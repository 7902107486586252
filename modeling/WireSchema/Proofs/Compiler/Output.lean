import WireSchema.Compiler.Diagnostic
import WireSchema.Compiler.Run
import WireSchema.Proofs.Datum.ReadBack
/-!
# Diagnostics are read back

A row holds a diagnostic if it has one of two forms, with a place or without
one. Printed on rows of their own between other rows, diagnostics with a place
come back in order, and two outputs one under the other hold the diagnostics of
the one and then those of the other.
-/

namespace WireSchema

namespace Text

section
variable {c : CodePoint} {t : Text}

/-- Decimal digits and nothing else. -/
structure IsNumeral (t : Text) : Prop where
  ne_nil : t ≠ []
  digits : ∀ c ∈ t, c.isDecimal = true

theorem decimal?_of_isDigit (h : Datum.Json.isDigit c = true) : c.decimal? = some (c.val - 0x30) := by
  rw [Datum.Json.isDigit, CodePoint.isBetween, Bool.and_eq_true, decide_eq_true_iff, decide_eq_true_iff] at h
  have hfirst : (0x30 ≤ c.val && c.val < 0x30 + 10) = true := by
    rw [Bool.and_eq_true, decide_eq_true_iff, decide_eq_true_iff]
    exact ⟨h.1, Nat.lt_succ_of_le h.2⟩
  have hzero : decimalZeros.find? (fun z => z ≤ c.val && c.val < z + 10) = some 0x30 := List.find?_cons_of_pos hfirst
  rw [CodePoint.decimal?, hzero]
  rfl

theorem isNumeral_ofNat (n : Nat) : IsNumeral (ofNat n) where
  ne_nil := Datum.Json.ofNat_ne_nil n
  digits c hc := by rw [CodePoint.isDecimal, decimal?_of_isDigit (Datum.Json.isDigit_ofNat n c hc), Option.isSome_some]

/-- A number in decimal is read back. -/
theorem decimalValue?_ofNat (n : Nat) : decimalValue? (ofNat n) = some n := by
  have hfold (t : Text) (h : ∀ c ∈ t, Datum.Json.isDigit c = true) (value : Nat) :
      t.foldlM (fun value c => c.decimal?.map (value * 10 + ·)) value =
        some (t.foldl (fun value c => value * 10 + (c.val - 0x30)) value) := by
    induction t generalizing value with
    | nil => rfl
    | cons c t ih =>
      rw [List.forall_mem_cons] at h
      rw [List.foldlM_cons, decimal?_of_isDigit h.1, List.foldl_cons]
      exact ih h.2 _
  rw [decimalValue?, if_neg (by simpa using Datum.Json.ofNat_ne_nil n), hfold _ (Datum.Json.isDigit_ofNat n)]
  exact congrArg some (Datum.Json.digitsValue_ofNat n)

/-- A numeral has a value. -/
theorem IsNumeral.exists_value (h : IsNumeral t) : ∃ n, decimalValue? t = some n := by
  have hfold (t : Text) (h : ∀ c ∈ t, c.isDecimal = true) (value : Nat) :
      ∃ n, t.foldlM (fun value c => c.decimal?.map (value * 10 + ·)) value = some n := by
    induction t generalizing value with
    | nil => exact ⟨value, rfl⟩
    | cons c t ih =>
      rw [List.forall_mem_cons] at h
      obtain ⟨digit, hdigit⟩ := Option.isSome_iff_exists.1 h.1
      obtain ⟨n, hn⟩ := ih h.2 (value * 10 + digit)
      exact ⟨n, by rw [List.foldlM_cons, hdigit]; exact hn⟩
  rw [decimalValue?, if_neg (by simpa using h.ne_nil)]
  exact hfold t h.digits 0

end

end Text

namespace Diagnostic

open Text

section
variable {d : Diagnostic} {t rest file line column row start : Text} {c : CodePoint}

/-! ## The forms of a row -/

/-- The words a diagnostic begins with. -/
def severities : List Text := ["error", "warning"]

/-- The severity and the code of a diagnostic are such as can be read. -/
structure Worded (d : Diagnostic) : Prop where
  severity : d.severity ∈ severities
  code_ne_nil : d.code ≠ []
  code : ∀ c ∈ d.code, isCodePart c = true

/-- Severity, code and message. -/
def wording (d : Diagnostic) : Text := d.severity ++ (" " ++ (d.code ++ (": " ++ d.message)))

/-- The form `severity code: message`. -/
def IsWording (t : Text) : Prop := ∃ d : Diagnostic, d.Worded ∧ t = d.wording

/-- What stands behind the name of a file. -/
def placed (line column body : Text) : Text := ":" ++ (line ++ (":" ++ (column ++ (" - " ++ body))))

/-- The form `file:line:column - severity code: message`. -/
def IsLocated (t : Text) : Prop :=
  ∃ file line column body, file ≠ [] ∧ IsNumeral line ∧ IsNumeral column ∧ IsWording body ∧
    t = file ++ placed line column body

theorem after?_eq_some_iff : after? start t = some rest ↔ t = start ++ rest := by
  rw [after?]
  constructor
  · intro h
    split at h
    next hstart =>
      obtain ⟨u, rfl⟩ := eq_append_of_startsWith hstart
      rw [List.drop_left] at h
      cases h
      rfl
    · cases h
  · rintro rfl
    rw [if_pos (startsWith_append start rest), List.drop_left]

theorem after?_append (start rest : Text) : after? start (start ++ rest) = some rest := after?_eq_some_iff.2 rfl

theorem after?_of_ne {d : CodePoint} (h : c ≠ d) (start t : Text) : after? (d :: start) (c :: t) = none := by
  rw [after?, startsWith_cons h, if_neg Bool.false_ne_true]

theorem leadingNumber?_append {n : Nat} (h : IsNumeral line) (hvalue : decimalValue? line = some n)
    (hrest : ∀ c ∈ rest.head?, c.isDecimal = false) : leadingNumber? (line ++ rest) = some (n, rest) := by
  rw [leadingNumber?, takeWhile_of_stop h.digits hrest, dropWhile_of_stop h.digits hrest, hvalue]
  rfl

theorem leadingNumber?_eq_some {n : Nat} (h : leadingNumber? t = some (n, rest)) :
    ∃ numeral, IsNumeral numeral ∧ decimalValue? numeral = some n ∧ t = numeral ++ rest := by
  obtain ⟨m, hvalue, h⟩ := Option.bind_eq_some_iff.1 h
  cases h
  refine ⟨t.takeWhile CodePoint.isDecimal, ⟨?_, fun c hc => List.mem_takeWhile_imp hc⟩, hvalue, ?_⟩
  · intro hnil
    rw [hnil] at hvalue
    cases hvalue
  · exact List.takeWhile_append_dropWhile.symm

/-- What is read behind the severity. -/
def readBehind? (severity t : Text) : Option Diagnostic := do
  let code := t.takeWhile isCodePart
  guard (!code.isEmpty)
  let message ← after? ": " (t.dropWhile isCodePart)
  return { severity, code, message }

theorem readBody?_eq (t : Text) : readBody? t =
    match after? "error " t with
    | some rest => readBehind? "error" rest
    | none => (after? "warning " t).bind (readBehind? "warning") := by
  rw [readBody?]
  cases after? "error " t with
  | some rest => rfl
  | none => cases after? "warning " t <;> rfl

theorem readBehind?_eq_some_iff {severity : Text} : readBehind? severity t = some d ↔
    d.severity = severity ∧ d.place = none ∧ d.code ≠ [] ∧ (∀ c ∈ d.code, isCodePart c = true) ∧
      t = d.code ++ (": " ++ d.message) := by
  constructor
  · intro h
    obtain ⟨_, hguard, h⟩ := Option.bind_eq_some_iff.1 h
    obtain ⟨message, hmessage, h⟩ := Option.bind_eq_some_iff.1 h
    cases h
    refine ⟨rfl, rfl, ?_, fun c hc => List.mem_takeWhile_imp hc, ?_⟩
    · rintro (hnil : t.takeWhile isCodePart = [])
      simp [hnil, guard] at hguard
    · rw [← after?_eq_some_iff.1 hmessage, List.takeWhile_append_dropWhile]
  · rintro ⟨rfl, hplace, hne, hcode, rfl⟩
    have hstop : ∀ c ∈ ((": " : Text) ++ d.message).head?, isCodePart c = false := by
      rintro c ⟨⟩
      decide
    have hguard : (!d.code.isEmpty) = true := by simpa using hne
    rw [readBehind?, takeWhile_of_stop hcode hstop, dropWhile_of_stop hcode hstop, after?_append, hguard]
    cases d
    cases hplace
    rfl

/-- Severity, code and message are read back. -/
theorem readBody?_eq_some_iff : readBody? t = some d ↔ d.Worded ∧ d.place = none ∧ t = d.wording := by
  have herror : ("error " : Text) = "error" ++ " " := rfl
  have hwarning : ("warning " : Text) = "warning" ++ " " := rfl
  rw [readBody?_eq]
  constructor
  · intro h
    split at h
    next rest hrest =>
      obtain ⟨hseverity, hplace, hne, hcode, hbehind⟩ := readBehind?_eq_some_iff.1 h
      refine ⟨⟨by rw [hseverity]; decide, hne, hcode⟩, hplace, ?_⟩
      rw [after?_eq_some_iff.1 hrest, hbehind, wording, hseverity, herror, List.append_assoc]
    next =>
      obtain ⟨rest, hrest, h⟩ := Option.bind_eq_some_iff.1 h
      obtain ⟨hseverity, hplace, hne, hcode, hbehind⟩ := readBehind?_eq_some_iff.1 h
      refine ⟨⟨by rw [hseverity]; decide, hne, hcode⟩, hplace, ?_⟩
      rw [after?_eq_some_iff.1 hrest, hbehind, wording, hseverity, hwarning, List.append_assoc]
  · rintro ⟨⟨hseverity, hne, hcode⟩, hplace, rfl⟩
    have hbehind : readBehind? d.severity (d.code ++ (": " ++ d.message)) = some d :=
      readBehind?_eq_some_iff.2 ⟨rfl, hplace, hne, hcode, rfl⟩
    rw [severities, List.mem_cons, List.mem_singleton] at hseverity
    rcases hseverity with hseverity | hseverity
    · rw [hseverity] at hbehind
      rw [wording, hseverity, ← List.append_assoc, ← herror, after?_append]
      exact hbehind
    · rw [hseverity] at hbehind
      have hother : after? "error " d.wording = none := by
        rw [wording, hseverity]
        exact after?_of_ne (by decide) _ _
      rw [hother, wording, hseverity, ← List.append_assoc, ← hwarning, after?_append]
      exact hbehind

/-! ## Places -/

/-- What stands behind the name of a file is read back. -/
theorem readPlaced?_eq_some_iff : readPlaced? file t = some d ↔
    ∃ line column m n, IsNumeral line ∧ decimalValue? line = some m ∧ IsNumeral column ∧ decimalValue? column = some n ∧
      d.Worded ∧ d.place = some { file, line := m, column := n } ∧ t = placed line column d.wording := by
  constructor
  · intro h
    obtain ⟨t₁, ht₁, h⟩ := Option.bind_eq_some_iff.1 h
    obtain ⟨⟨m, t₂⟩, hm, h⟩ := Option.bind_eq_some_iff.1 h
    obtain ⟨t₃, ht₃, h⟩ := Option.bind_eq_some_iff.1 h
    obtain ⟨⟨n, t₄⟩, hn, h⟩ := Option.bind_eq_some_iff.1 h
    obtain ⟨t₅, ht₅, h⟩ := Option.bind_eq_some_iff.1 h
    obtain ⟨body, hbody, h⟩ := Option.bind_eq_some_iff.1 h
    cases h
    obtain ⟨line, hline, hlineValue, rfl⟩ := leadingNumber?_eq_some hm
    obtain ⟨column, hcolumn, hcolumnValue, rfl⟩ := leadingNumber?_eq_some hn
    obtain ⟨⟨hseverity, hne, hcode⟩, _, rfl⟩ := readBody?_eq_some_iff.1 hbody
    refine ⟨line, column, m, n, hline, hlineValue, hcolumn, hcolumnValue, ⟨hseverity, hne, hcode⟩, rfl, ?_⟩
    rw [after?_eq_some_iff.1 ht₁, after?_eq_some_iff.1 ht₃, after?_eq_some_iff.1 ht₅]
    rfl
  · rintro ⟨line, column, m, n, hline, hm, hcolumn, hn, hd, hplace, rfl⟩
    have hbody : readBody? d.wording = some { d with place := none } :=
      readBody?_eq_some_iff.2 ⟨⟨hd.severity, hd.code_ne_nil, hd.code⟩, rfl, rfl⟩
    have hcolon (u : Text) : ∀ c ∈ ((":" : Text) ++ u).head?, c.isDecimal = false := by
      rintro c ⟨⟩
      decide
    have hdash (u : Text) : ∀ c ∈ ((" - " : Text) ++ u).head?, c.isDecimal = false := by
      rintro c ⟨⟩
      decide
    simp only [readPlaced?, placed, after?_append, leadingNumber?_append hline hm (hcolon _),
      leadingNumber?_append hcolumn hn (hdash _), hbody, bind, Option.bind, pure]
    cases d
    cases hplace
    rfl

theorem readPlaced?_of_ne (h : c ≠ ':') (file t : Text) : readPlaced? file (c :: t) = none := by
  rw [readPlaced?, show after? ":" (c :: t) = none from after?_of_ne h [] t]
  rfl

/-- No place is read where none of the ends of the text has the form of one. -/
theorem readLocated?_eq_none_iff (front t : Text) : readLocated? front t = none ↔
    ∀ s u, t = s ++ u → front.reverse ++ s ≠ [] → readPlaced? (front.reverse ++ s) u = none := by
  -- by induction on what is left of the line: the place is looked for here, or behind one more code point
  induction t generalizing front with
  | nil =>
    refine ⟨fun _ s u hcut _ => ?_, fun _ => rfl⟩
    rw [(List.append_eq_nil_iff.1 hcut.symm).2]
    rfl
  | cons c t ih =>
    have hhere : (if front.isEmpty then none else readPlaced? front.reverse (c :: t)) = none ↔
        (front ≠ [] → readPlaced? front.reverse (c :: t) = none) := by
      cases front <;> simp
    have hreverse (s : Text) : (c :: front).reverse ++ s = front.reverse ++ c :: s := by simp
    rw [readLocated?]
    constructor
    · intro h s u hcut hne
      split at h
      · cases h
      next hnone =>
        cases s with
        | nil =>
          rw [List.nil_append] at hcut
          rw [List.append_nil] at hne ⊢
          rw [← hcut]
          exact hhere.1 hnone (by simpa using hne)
        | cons c' s =>
          cases hcut
          rw [← hreverse]
          exact (ih (c :: front)).1 h s u rfl (by simp)
    · intro h
      have hnone := hhere.2 fun hne => by
        have := h [] (c :: t) rfl (by simpa using hne)
        rwa [List.append_nil] at this
      rw [hnone]
      refine (ih (c :: front)).2 fun s u hcut hne => ?_
      rw [hreverse]
      exact h (c :: s) u (by rw [hcut, List.cons_append]) (by simp)

/-- The name of a file ends at its first colon, if what comes behind can be read. -/
theorem readLocated?_append (hfile : CodePoint.ofChar ':' ∉ file) (front : Text) (hne : front.reverse ++ file ≠ [])
    (h : readPlaced? (front.reverse ++ file) t = some d) : readLocated? front (file ++ t) = some d := by
  induction file generalizing front with
  | nil =>
    rw [List.append_nil] at h hne
    cases t with
    | nil => cases h
    | cons c t =>
      have hfront : front.isEmpty = false := by simpa using hne
      rw [List.nil_append, readLocated?, hfront, if_neg Bool.false_ne_true, h]
  | cons c file ih =>
    rw [List.mem_cons, not_or] at hfile
    have hreverse : (c :: front).reverse ++ file = front.reverse ++ c :: file := by simp
    have hhere : (if front.isEmpty then none else readPlaced? front.reverse (c :: (file ++ t))) = none := by
      rw [readPlaced?_of_ne (Ne.symm hfile.1), ite_self]
    rw [List.cons_append, readLocated?, hhere]
    exact ih hfile.2 (c :: front) (hreverse ▸ hne) (hreverse ▸ h)

theorem exists_of_readLocated? {front : Text} (h : readLocated? front t = some d) :
    ∃ file u, readPlaced? file u = some d := by
  induction t generalizing front with
  | nil => cases h
  | cons c t ih =>
    rw [readLocated?] at h
    split at h
    next found hfound =>
      cases h
      split at hfound
      · cases hfound
      · exact ⟨_, _, hfound⟩
    next => exact ih h

/-! ## Rows -/

theorem isWording_iff : IsWording t ↔ ∃ d, readBody? t = some d := by
  constructor
  · rintro ⟨d, hd, rfl⟩
    exact ⟨{ d with place := none }, readBody?_eq_some_iff.2 ⟨⟨hd.severity, hd.code_ne_nil, hd.code⟩, rfl, rfl⟩⟩
  · rintro ⟨d, hd⟩
    obtain ⟨hworded, _, rfl⟩ := readBody?_eq_some_iff.1 hd
    exact ⟨d, hworded, rfl⟩

theorem isLocated_iff : IsLocated t ↔ ∃ file u d, file ≠ [] ∧ t = file ++ u ∧ readPlaced? file u = some d := by
  constructor
  · rintro ⟨file, line, column, body, hfile, hline, hcolumn, ⟨d, hd, rfl⟩, rfl⟩
    obtain ⟨m, hm⟩ := hline.exists_value
    obtain ⟨n, hn⟩ := hcolumn.exists_value
    refine ⟨file, _, { d with place := some { file, line := m, column := n } }, hfile, rfl, ?_⟩
    exact readPlaced?_eq_some_iff.2 ⟨line, column, m, n, hline, hm, hcolumn, hn, ⟨hd.severity, hd.code_ne_nil, hd.code⟩, rfl, rfl⟩
  · rintro ⟨file, u, d, hfile, rfl, hread⟩
    obtain ⟨line, column, m, n, hline, _, hcolumn, _, hd, _, rfl⟩ := readPlaced?_eq_some_iff.1 hread
    exact ⟨file, line, column, d.wording, hfile, hline, hcolumn, ⟨d, hd, rfl⟩, rfl⟩

/-- What is read of a row is an error or a warning, with a code. -/
theorem worded_of_readRow? (h : readRow? row = some d) : d.Worded := by
  rw [readRow?] at h
  split at h
  next found hfound =>
    cases h
    obtain ⟨file, u, hread⟩ := exists_of_readLocated? hfound
    obtain ⟨_, _, _, _, _, _, _, _, hworded, _⟩ := readPlaced?_eq_some_iff.1 hread
    exact hworded
  next => exact (readBody?_eq_some_iff.1 h).1

/-- A row holds no diagnostic if it has neither form. -/
theorem readRow?_eq_none_iff (row : Text) :
    readRow? row = none ↔ ¬IsLocated (trim row) ∧ ¬IsWording (trim row) := by
  have hlocated : readLocated? [] (trim row) = none ↔ ¬IsLocated (trim row) := by
    rw [readLocated?_eq_none_iff, isLocated_iff]
    constructor
    · rintro h ⟨file, u, d, hfile, hcut, hread⟩
      have hnone : readPlaced? file u = none := h file u hcut hfile
      rw [hnone] at hread
      cases hread
    · intro h s u hcut hne
      refine Option.eq_none_iff_forall_ne_some.2 fun d hread => h ⟨s, u, d, ?_, hcut, ?_⟩
      · simpa using hne
      · simpa using hread
  have hwording : readBody? (trim row) = none ↔ ¬IsWording (trim row) := by
    rw [isWording_iff, Option.eq_none_iff_forall_ne_some, not_exists]
  rw [← hlocated, ← hwording, readRow?]
  cases readLocated? [] (trim row) <;> simp

/-! ## Lines -/

/-- What is read of an output whose present line began with `line`, the last
code point first. -/
def readFrom (line t : Text) : List Diagnostic := (outputLines.go line t).filterMap readRow?

theorem readFrom_nil (line : Text) : readFrom line [] = (readRow? line.reverse).toList := by
  cases line with
  | nil => rfl
  | cons c line =>
    rw [readFrom, outputLines.go, if_neg (by simp), List.filterMap_cons]
    cases readRow? (c :: line).reverse <;> rfl

/-- An empty row holds nothing. -/
theorem readFrom_feed (t : Text) : readFrom [] (CodePoint.ofChar '\n' :: t) = readFrom [] t := by
  cases t with
  | nil => rfl
  | cons c t =>
    have hreturn : ¬(CodePoint.ofChar '\n' = CodePoint.ofChar '\r' ∧ c = CodePoint.ofChar '\n') := fun h => absurd h.1 (by decide)
    rw [readFrom, outputLines.go, if_neg hreturn, if_pos (by decide)]
    rfl

/-- A line break ends the line. One that is half of another ends an empty line more. -/
theorem readFrom_break (hc : c.isLineBreak = true) (line t : Text) :
    readFrom line (c :: t) = (readRow? line.reverse).toList ++ readFrom [] t := by
  have hrow (rows : List Text) : (line.reverse :: rows).filterMap readRow? =
      (readRow? line.reverse).toList ++ rows.filterMap readRow? := by
    rw [List.filterMap_cons]
    cases readRow? line.reverse <;> rfl
  cases t with
  | nil =>
    rw [readFrom, outputLines.go, if_pos hc, hrow]
    rfl
  | cons d t =>
    rw [readFrom, outputLines.go]
    split
    next hpair => rw [hrow, hpair.2, readFrom_feed, readFrom]
    next => rw [hrow, readFrom]

theorem readFrom_cons (hc : c.isLineBreak = false) (line t : Text) : readFrom line (c :: t) = readFrom (c :: line) t := by
  cases t with
  | nil => rw [readFrom, outputLines.go, if_neg (by simp [hc]), readFrom, outputLines.go, if_neg (by simp)]
  | cons d t =>
    have hreturn : ¬(c = CodePoint.ofChar '\r' ∧ d = CodePoint.ofChar '\n') := by
      rintro ⟨rfl, _⟩
      exact absurd hc (by decide)
    rw [readFrom, outputLines.go, if_neg hreturn, if_neg (by simp [hc]), readFrom]

theorem readFrom_append (hc : c.isLineBreak = true) (line s t : Text) :
    readFrom line (s ++ c :: t) = readFrom line s ++ readFrom [] t := by
  induction s generalizing line with
  | nil => rw [List.nil_append, readFrom_break hc, readFrom_nil]
  | cons d s ih =>
    cases hd : d.isLineBreak with
    | true => rw [List.cons_append, readFrom_break hd, readFrom_break hd, ih, List.append_assoc]
    | false => rw [List.cons_append, readFrom_cons hd, readFrom_cons hd, ih]

/-- Any line break between two outputs keeps their diagnostics apart. -/
theorem readOutput_append (hc : c.isLineBreak = true) (s t : Text) :
    readOutput (s ++ c :: t) = readOutput s ++ readOutput t := readFrom_append hc [] s t

/-- A text without line breaks is one row. -/
theorem readOutput_of_line (h : ∀ c ∈ t, c.isLineBreak = false) : readOutput t = (readRow? t).toList := by
  have hfrom (line t : Text) (h : ∀ c ∈ t, c.isLineBreak = false) :
      readFrom line t = (readRow? (line.reverse ++ t)).toList := by
    induction t generalizing line with
    | nil => rw [readFrom_nil, List.append_nil]
    | cons c t ih =>
      rw [List.forall_mem_cons] at h
      rw [readFrom_cons h.1, ih (c :: line) h.2, List.reverse_cons, List.append_assoc, List.singleton_append]
  exact hfrom [] t h

/-- Rows one under the other are read one by one. -/
theorem readOutput_unrows {rows : List Text} (h : ∀ row ∈ rows, ∀ c ∈ row, c.isLineBreak = false) :
    readOutput (unrows rows) = rows.filterMap readRow? := by
  induction rows with
  | nil => rfl
  | cons row rows ih =>
    rw [List.forall_mem_cons] at h
    have hcons : (row :: rows).filterMap readRow? = (readRow? row).toList ++ rows.filterMap readRow? := by
      rw [List.filterMap_cons]
      cases readRow? row <;> rfl
    rw [hcons]
    cases rows with
    | nil => rw [unrows, join, readOutput_of_line h.1, List.filterMap_nil, List.append_nil]
    | cons next rows =>
      have hcut : unrows (row :: next :: rows) = row ++ CodePoint.ofChar '\n' :: unrows (next :: rows) := by
        rw [unrows, join, unrows, List.append_assoc]
        rfl
      rw [hcut, readOutput_append (by decide), readOutput_of_line h.1, ih h.2]

/-! ## Printing -/

/-- A place that can be printed: the name of its file has no colon and no line
break and does not begin with white space. -/
structure Place.Printable (p : Place) : Prop where
  file_ne_nil : p.file ≠ []
  file_colon : CodePoint.ofChar ':' ∉ p.file
  file_line : ∀ c ∈ p.file, c.isLineBreak = false
  file_start : ∀ c ∈ p.file.head?, c.isBlank = false
  column : 0 ≤ p.column

/-- A diagnostic that can be printed with its place: the message has no line
break, is not empty and does not end with white space. -/
structure Printable (d : Diagnostic) : Prop extends d.Worded where
  message_ne_nil : d.message ≠ []
  message_line : ∀ c ∈ d.message, c.isLineBreak = false
  message_end : trimEnd d.message = d.message
  place : ∃ p, d.place = some p ∧ p.Printable

/-- The diagnostic in the form of its row. -/
def printed (d : Diagnostic) : Text :=
  match d.place with
  | none => d.wording
  | some p => p.file ++ placed (ofNat p.line) (ofInt p.column) d.wording

theorem printed_eq {p : Place} (h : d.place = some p) :
    d.printed = p.file ++ placed (ofNat p.line) (ofInt p.column) d.wording := by
  rw [printed, h]

theorem isLineBreak_of_isDigit (h : Datum.Json.isDigit c = true) : c.isLineBreak = false := by
  simp only [Datum.Json.isDigit, CodePoint.isBetween, Bool.and_eq_true, decide_eq_true_iff] at h
  have hlow : 48 ≤ c.val := h.1
  have hhigh : c.val ≤ 57 := h.2
  simp only [CodePoint.isLineBreak, Bool.or_eq_false_iff, Bool.and_eq_false_iff, decide_eq_false_iff_not, beq_eq_false_iff_ne]
  omega

/-- The code of a diagnostic has no line break. -/
theorem isLineBreak_of_isCodePart (h : isCodePart c = true) : c.isLineBreak = false := by
  have hbreaks : ∀ c ∈ ofString "\n\x0b\x0c\r\x1c\x1d\x1e\u0085\u2028\u2029", isCodePart c = false := by decide +kernel
  refine Bool.eq_false_iff.2 fun hbreak => ?_
  have hmem : c ∈ ofString "\n\x0b\x0c\r\x1c\x1d\x1e\u0085\u2028\u2029" := by
    obtain ⟨v, hv⟩ := c
    simp only [CodePoint.isLineBreak, Bool.or_eq_true, Bool.and_eq_true, decide_eq_true_iff, beq_iff_eq] at hbreak
    simp [ofString, CodePoint.ofChar]
    omega
  rw [hbreaks c hmem] at h
  cases h

theorem wording_line (h : d.Worded) (hmessage : ∀ c ∈ d.message, c.isLineBreak = false) :
    ∀ c ∈ d.wording, c.isLineBreak = false := by
  have hseverity : ∀ c ∈ d.severity, c.isLineBreak = false := by
    have hall : ∀ s ∈ severities, ∀ c ∈ s, c.isLineBreak = false := by decide
    exact hall _ h.severity
  simp only [wording, List.forall_mem_append]
  exact ⟨hseverity, by decide, fun c hc => isLineBreak_of_isCodePart (h.code c hc), by decide, hmessage⟩

theorem printed_line (h : d.Printable) : ∀ c ∈ d.printed, c.isLineBreak = false := by
  obtain ⟨p, hplace, hp⟩ := h.place
  have hnumber (n : Nat) : ∀ c ∈ ofNat n, c.isLineBreak = false :=
    fun c hc => isLineBreak_of_isDigit (Datum.Json.isDigit_ofNat n c hc)
  obtain ⟨n, hn⟩ := Int.eq_ofNat_of_zero_le hp.column
  rw [printed_eq hplace, hn]
  simp only [placed, List.forall_mem_append]
  exact ⟨hp.file_line, by decide, hnumber _, by decide, hnumber n, by decide, wording_line h.toWorded h.message_line⟩

theorem trim_printed (h : d.Printable) : trim d.printed = d.printed := by
  obtain ⟨p, hplace, hp⟩ := h.place
  obtain ⟨c, file, hfile⟩ := List.exists_cons_of_ne_nil hp.file_ne_nil
  have hmessage : isBlank d.message = false := not_isBlank_of_trimEnd h.message_end h.message_ne_nil
  have hback (s : Text) : trimEnd (s ++ d.message) = s ++ d.message := by rw [trimEnd_append s hmessage, h.message_end]
  have hcut : d.printed = c :: (file ++ (":" ++ (ofNat p.line ++ (":" ++ (ofInt p.column ++ (" - " ++ (d.severity ++
      (" " ++ (d.code ++ ": "))))))))) ++ d.message := by
    simp [printed_eq hplace, hfile, placed, wording, List.append_assoc]
  rw [hcut, List.cons_append, trim_cons (hp.file_start c (by rw [hfile]; rfl)), hback]

/-- A printed diagnostic is read back. -/
theorem readRow?_printed (h : d.Printable) : readRow? d.printed = some d := by
  obtain ⟨p, hplace, hp⟩ := h.place
  obtain ⟨n, hn⟩ := Int.eq_ofNat_of_zero_le hp.column
  have hcolumn : ofInt p.column = ofNat n := by rw [hn]; rfl
  have hread : readPlaced? p.file (placed (ofNat p.line) (ofNat n) d.wording) = some d :=
    readPlaced?_eq_some_iff.2 ⟨_, _, p.line, n, isNumeral_ofNat _, decimalValue?_ofNat _, isNumeral_ofNat n,
      decimalValue?_ofNat n, h.toWorded, by rw [hplace, ← hn], rfl⟩
  have hlocated : readLocated? [] d.printed = some d := by
    rw [printed_eq hplace, hcolumn]
    exact readLocated?_append hp.file_colon [] hp.file_ne_nil hread
  rw [readRow?, trim_printed h, hlocated]

end

/-- A row of the compiler's output: a diagnostic, or something else. -/
inductive OutputRow where
  | diagnostic (d : Diagnostic)
  | other (t : Text)

namespace OutputRow

/-- The text of the row. -/
def text : OutputRow → Text
  | diagnostic d => d.printed
  | other t => t

/-- The diagnostic of the row, if it is one. -/
def diagnostic? : OutputRow → Option Diagnostic
  | diagnostic d => some d
  | other _ => none

/-- The diagnostic can be printed; anything else is on one line and has neither
form of a diagnostic. -/
def Fits : OutputRow → Prop
  | diagnostic d => d.Printable
  | other t => (∀ c ∈ t, c.isLineBreak = false) ∧ ¬IsLocated (trim t) ∧ ¬IsWording (trim t)

theorem Fits.line {row : OutputRow} (h : row.Fits) : ∀ c ∈ row.text, c.isLineBreak = false := by
  cases row with
  | diagnostic d => exact printed_line h
  | other t => exact h.1

theorem Fits.readRow? {row : OutputRow} (h : row.Fits) : Diagnostic.readRow? row.text = row.diagnostic? := by
  cases row with
  | diagnostic d => exact readRow?_printed h
  | other t => exact (readRow?_eq_none_iff t).2 h.2

end OutputRow

/-- Diagnostics are read back. Printed with their places on rows of their own,
between any rows of neither form, they come back in order; and outputs one under
the other hold the diagnostics of the one, then those of the other. Lines and columns
are read in numerals of any length. -/
theorem read_back :
    (∀ rows : List OutputRow, (∀ row ∈ rows, row.Fits) →
      readOutput (unrows (rows.map (·.text))) = rows.filterMap (·.diagnostic?)) ∧
    ∀ s t : Text, readOutput (s ++ "\n" ++ t) = readOutput s ++ readOutput t := by
  refine ⟨fun rows h => ?_, fun s t => ?_⟩
  · have hlines : ∀ t ∈ rows.map (·.text), ∀ c ∈ t, c.isLineBreak = false :=
      List.forall_mem_map.2 fun row hrow => (h row hrow).line
    rw [readOutput_unrows hlines, List.filterMap_map]
    exact List.filterMap_congr fun row hrow => (h row hrow).readRow?
  · rw [List.append_assoc]
    exact readOutput_append (by decide) s t

/-- A message that quotes another diagnostic, a line that ends a run and an empty one. -/
theorem read_back_quoting :
    let found : Diagnostic :=
      { severity := "error", code := "@typespec/http/x", message := "see b.tsp:1:2 - error y: z",
        place := some { file := "main.tsp", line := 30, column := 5 } }
    let rows : List OutputRow := [.diagnostic found, .other "Found 1 error.", .other []]
    (∀ row ∈ rows, row.Fits) ∧
      readOutput "main.tsp:30:5 - error @typespec/http/x: see b.tsp:1:2 - error y: z\nFound 1 error.\n" = [found] ∧
      readOutput ("Found 1 error." ++ "\n" ++ found.printed) = [found] := by
  intro found rows
  have hfound : found.Printable :=
    { severity := by decide
      code_ne_nil := by decide
      code := by decide
      message_ne_nil := by decide
      message_line := by decide
      message_end := rfl
      place := ⟨_, rfl, by decide, by decide, by decide, by rintro c ⟨⟩; decide, by decide⟩ }
  have hother (t : Text) (hline : ∀ c ∈ t, c.isLineBreak = false) (hnone : readRow? t = none) : (OutputRow.other t).Fits :=
    ⟨hline, (readRow?_eq_none_iff t).1 hnone⟩
  have hfits : ∀ row ∈ rows, row.Fits := by
    simp only [rows, List.forall_mem_cons, List.not_mem_nil, false_implies, implies_true, and_true]
    exact ⟨hfound, hother _ (by decide) (by cbv), hother _ (by decide) rfl⟩
  have htext : unrows (rows.map (·.text)) =
      ofString "main.tsp:30:5 - error @typespec/http/x: see b.tsp:1:2 - error y: z\nFound 1 error.\n" := by cbv
  refine ⟨hfits, ?_, ?_⟩
  · rw [← htext]
    exact read_back.1 rows hfits
  · have hempty : readOutput "Found 1 error." = [] := by cbv
    rw [read_back.2, hempty]
    exact read_back.1 [.diagnostic found] (List.forall_mem_singleton.2 hfound)

end Diagnostic

end WireSchema

/-!
## The verdict on a run

A document passes only if the compiler ended well and neither of its outputs
has an error. What is reported of a run that fails are the errors of both
outputs in order, or, if it printed none, one message of its own.
-/

namespace WireSchema.Compiler

open Diagnostic

/-- The rows of the output, then those of the error output. -/
def Outcome.rows (o : Outcome) : List Text := Text.outputLines o.output ++ Text.outputLines o.errors

/-- The diagnostics of the rows, in order. -/
def Outcome.found (o : Outcome) : List Diagnostic := o.rows.filterMap readRow?

/-- Some row is an error. -/
def Outcome.HasError (o : Outcome) : Prop := ∃ row ∈ o.rows, ∃ d, readRow? row = some d ∧ d.severity = "error"

section
variable {o : Outcome} {d : Diagnostic}

theorem readOutput_found (o : Outcome) : readOutput (o.output ++ "\n" ++ o.errors) = o.found := by
  rw [List.append_assoc]
  refine (readOutput_append (c := '\n') (by decide) o.output o.errors).trans ?_
  rw [readOutput, readOutput, ← List.filterMap_append, Outcome.found, Outcome.rows]

theorem isError_iff : d.isError = true ↔ d.severity = "error" := beq_iff_eq

theorem hasError_iff : o.HasError ↔ o.found.any (·.isError) = true := by
  rw [List.any_eq_true]
  constructor
  · rintro ⟨row, hrow, d, hread, hseverity⟩
    exact ⟨d, List.mem_filterMap.2 ⟨row, hrow, hread⟩, isError_iff.2 hseverity⟩
  · rintro ⟨d, hd, herror⟩
    obtain ⟨row, hrow, hread⟩ := List.mem_filterMap.1 hd
    exact ⟨row, hrow, d, hread, isError_iff.1 herror⟩

/-- What is found and is no error is a warning. -/
theorem warning_of_found (h : ¬o.HasError) (hd : d ∈ o.found) : d.severity = "warning" := by
  obtain ⟨row, hrow, hread⟩ := List.mem_filterMap.1 hd
  have hseverity := (worded_of_readRow? hread).severity
  rw [severities, List.mem_cons, List.mem_singleton] at hseverity
  exact hseverity.resolve_left fun herror => h ⟨row, hrow, d, hread, herror⟩

theorem filter_isError (h : ¬o.HasError) : o.found.filter (·.isError) = [] := by
  refine List.filter_eq_nil_iff.2 fun d hd herror => h ?_
  exact hasError_iff.2 (List.any_eq_true.2 ⟨d, hd, herror⟩)

end

/-- The verdicts on a run: its errors, its failure without one, or its warnings. -/
inductive Judged (o : Outcome) : Except (List Text) (List Diagnostic) → Prop where
  | errors : o.HasError → Judged o (.error ((o.found.filter (·.isError)).map Diagnostic.format))
  | failed : ¬o.HasError → o.status ≠ 0 → Judged o (.error [failureMessage o])
  | passed : ¬o.HasError → o.status = 0 → (∀ d ∈ o.found, d.severity = "warning") → Judged o (.ok o.found)

theorem validate_judged (o : Outcome) : Judged o (validate o) := by
  by_cases herror : o.HasError
  · have hany := hasError_iff.1 herror
    have hdiagnostics : diagnostics o = o.found := by
      rw [diagnostics, readOutput_found, if_neg (by simp [hany])]
    obtain ⟨d, hd, hisError⟩ := List.any_eq_true.1 hany
    have hmem : d.format ∈ (o.found.filter (·.isError)).map Diagnostic.format :=
      List.mem_map_of_mem (List.mem_filter.2 ⟨hd, hisError⟩)
    have hvalidate : validate o = .error ((o.found.filter (·.isError)).map Diagnostic.format) := by
      rw [validate, hdiagnostics]
      split
      next hnil => rw [hnil] at hmem; cases hmem
      next => rfl
    exact hvalidate ▸ .errors herror
  · have hnone : o.found.any (·.isError) = false := Bool.eq_false_iff.2 fun h => herror (hasError_iff.2 h)
    by_cases hstatus : o.status = 0
    · have hdiagnostics : diagnostics o = o.found := by
        rw [diagnostics, readOutput_found, if_neg (by simp [hstatus])]
      have hvalidate : validate o = .ok o.found := by
        rw [validate, hdiagnostics, filter_isError herror]
        rfl
      exact hvalidate ▸ .passed herror hstatus fun _ => warning_of_found herror
    · have hdiagnostics : diagnostics o = o.found ++
          [{ severity := "error", code := "compiler-failure", message := failureMessage o }] := by
        rw [diagnostics, readOutput_found, if_pos ⟨hstatus, by simp [hnone]⟩]
      have hvalidate : validate o = .error [failureMessage o] := by
        rw [validate, hdiagnostics, List.filter_append, filter_isError herror]
        rfl
      exact hvalidate ▸ .failed herror hstatus

/-- No failure of the compiler passes unnoticed: a run is rejected exactly if it
ended with another status than zero or some row of its outputs is an error. The
errors are then reported in the order of the rows, or else the failure; and of a
run that passes all diagnostics are returned, which are warnings. Numerals of any
length are read. -/
theorem failures_noticed (o : Outcome) :
    ((∃ messages, validate o = .error messages) ↔ o.status ≠ 0 ∨ o.HasError) ∧ Judged o (validate o) := by
  have hjudged := validate_judged o
  refine ⟨?_, hjudged⟩
  generalize validate o = verdict at hjudged ⊢
  cases hjudged with
  | errors herror => exact iff_of_true ⟨_, rfl⟩ (.inr herror)
  | failed _ hstatus => exact iff_of_true ⟨_, rfl⟩ (.inl hstatus)
  | passed herror hstatus _ =>
    refine iff_of_false (fun ⟨_, h⟩ => ?_) (not_or.2 ⟨not_not.2 hstatus, herror⟩)
    cases h

end WireSchema.Compiler
