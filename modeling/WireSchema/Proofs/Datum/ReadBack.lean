import WireSchema.Datum.JsonReader
import WireSchema.Datum.JsonWriter
import WireSchema.Proofs.Lexing.Strings
import WireSchema.Proofs.Text.Reading
import WireSchema.Proofs.Text.Trimming
/-!
# JSON is read back

The reader of JSON gives back what the writer wrote of a record of texts and whole numbers.
Code points are escaped one by one, so two halves side by side come back as the one code
point of their pair: texts have to be without such pairs.
-/

namespace WireSchema.Datum.Json

open Text

/-! ## Strings -/

/-- How a string has a code point: as itself, as a backslash and a letter, by its number, or
by the numbers of its two halves. -/
inductive Escaped (c : CodePoint) : Text → Prop where
  | plain : c ≠ '"' → c ≠ '\\' → c.val ≠ 0 → Escaped c [c]
  | short {d : CodePoint} : d ≠ 'u' → simpleEscape? d = some c → Escaped c ['\\', d]
  | numbered : c.val < 0x10000 → Escaped c ("\\u" ++ hex 4 c.val)
  | paired : 0x10000 ≤ c.val →
    Escaped c ("\\u" ++ hex 4 (0xD800 + (c.val - 0x10000) / 0x400) ++ "\\u" ++ hex 4 (0xDC00 + (c.val - 0x10000) % 0x400))

/-- No two halves side by side are those of a pair. -/
def Unpaired : Text → Prop
  | [] => True
  | c :: rest => (c.isHighHalf = true → ∀ d ∈ rest.head?, d.isLowHalf = false) ∧ Unpaired rest

section
variable {c d : CodePoint} {piece rest t : Text} {n : Nat}

theorem unpaired_of_forall (h : ∀ c ∈ t, c.isHighHalf = false) : Unpaired t := by
  induction t with
  | nil => trivial
  | cons c t ih =>
    rw [List.forall_mem_cons] at h
    refine ⟨fun hhigh => ?_, ih h.2⟩
    rw [h.1] at hhigh
    cases hhigh

theorem quoteCodePoint_escaped (hc : c.val < 0x80) : Escaped c (quoteCodePoint c) := by
  have val {n : Nat} {d : Char} (h : c.val = n) (hd : d.toNat = n) : c = CodePoint.ofChar d :=
    CodePoint.ext_val (h.trans hd.symm)
  unfold quoteCodePoint
  split
  next h => exact h ▸ .short (by decide) (by decide)
  next hquote =>
    split
    next h => exact h ▸ .short (by decide) (by decide)
    next hslash =>
      split
      next h =>
        rw [val h (d := '\x08') rfl]
        exact .short (d := 'b') (by decide) (by decide)
      split
      next h =>
        rw [val h (d := '\x0c') rfl]
        exact .short (d := 'f') (by decide) (by decide)
      split
      next h => exact h ▸ .short (d := 'n') (by decide) (by decide)
      split
      next h => exact h ▸ .short (d := 'r') (by decide) (by decide)
      split
      next h => exact h ▸ .short (d := 't') (by decide) (by decide)
      split
      next => exact .numbered (by omega)
      next h => exact .plain hquote hslash (by omega)

theorem escape_escaped (c : CodePoint) : Escaped c (escape c) := by
  unfold escape
  split
  next h => exact h ▸ .short (by decide) (by decide)
  split
  next h => exact quoteCodePoint_escaped h
  split
  next h => exact .numbered h
  next h => exact .paired (by omega)

theorem digit_hexDigit : ∀ k : Fin 16, (CodePoint.ofChar (Nat.digitChar k)).val < 0x80 ∧
    digitValue? 16 (CodePoint.ofChar (Nat.digitChar k)) = some (k : Nat) := by decide

theorem hexValue?_hex (h : n < 0x10000) : hexValue? (hex 4 n) = some n := by
  have hdigit (k : Nat) : (CodePoint.ofChar (hexDigit k)).val < 0x80 ∧
      digitValue? 16 (CodePoint.ofChar (hexDigit k)) = some (k % 16) :=
    digit_hexDigit ⟨k % 16, Nat.mod_lt k (by decide)⟩
  have hhex : hex 4 n = [CodePoint.ofChar (hexDigit (n / 4096)), CodePoint.ofChar (hexDigit (n / 256)),
      CodePoint.ofChar (hexDigit (n / 16)), CodePoint.ofChar (hexDigit (n / 1))] := rfl
  have hlength : (hex 4 n).length = 4 := hex_length 4 n
  rw [hexValue?, if_pos hlength, hhex]
  simp only [List.foldlM_cons, List.foldlM_nil, (hdigit _).1, (hdigit _).2, if_true, Option.map_some, Option.bind_eq_bind,
    Option.bind_some, Option.pure_def, Option.some.injEq]
  omega

theorem stringBody_skip (piece rest : Text) : stringBody piece.length (piece ++ rest) = stringBody 0 rest := by
  induction piece with
  | nil => rfl
  | cons c piece ih => rw [List.length_cons, List.cons_append, stringBody, ih]

/-- The second half of a pair that is escaped next. -/
def lowAhead? (rest : Text) : Option CodePoint :=
  if startsWith rest "\\u" then
    ((hexValue? ((rest.drop 2).take 4)).bind CodePoint.ofNat?).filter CodePoint.isLowHalf
  else none

theorem ofNat?_val (c : CodePoint) : CodePoint.ofNat? c.val = some c := dif_pos c.isLt

/-- The code point of two halves. -/
def ofHalves? (c d : CodePoint) : Option CodePoint :=
  CodePoint.ofNat? (0x10000 + (c.val - 0xD800) * 0x400 + (d.val - 0xDC00))

theorem ofHalves?_eq (c d : CodePoint) :
    CodePoint.ofNat? (0x10000 + (c.val - 0xD800) * 0x400 + (d.val - 0xDC00)) = ofHalves? c d := rfl

theorem unicodeEscape_hex (hc : c.val < 0x10000) (rest : Text) : unicodeEscape (hex 4 c.val ++ rest) =
    some (((if c.isHighHalf then lowAhead? rest else none).bind (ofHalves? c)).elim (c, 4) (·, 10)) := by
  have hlength : (hex 4 c.val).length = 4 := hex_length 4 c.val
  have hdrop (k : Nat) : (hex 4 c.val ++ rest).drop (4 + k) = rest.drop k := by
    rw [List.drop_append, List.drop_eq_nil_of_le (by omega), hlength, Nat.add_sub_cancel_left, List.nil_append]
  have hfour := hdrop 0
  have hsix := hdrop 2
  rw [Nat.add_zero, List.drop_zero] at hfour
  have hnone {α : Type} : (failure : Option α) = none := rfl
  rw [unicodeEscape, List.take_left' hlength, hexValue?_hex hc]
  simp only [Option.bind_eq_bind, Option.bind_some, ofNat?_val, hfour, hsix, guard, hnone, lowAhead?,
    ofHalves?_eq]
  cases c.isHighHalf with
  | false => simp
  | true =>
    cases startsWith rest "\\u" with
    | false => simp
    | true =>
      simp only [Bool.and_self, if_true]
      cases hexValue? ((rest.drop 2).take 4) with
      | none => simp
      | some n =>
        simp only [Option.pure_def, Option.bind_some]
        cases CodePoint.ofNat? n with
        | none => simp
        | some d =>
          cases hlow : d.isLowHalf with
          | false => simp [hlow, Option.filter_some]
          | true =>
            rw [Option.filter_some, if_pos hlow, Option.bind_some, Option.bind_some, if_pos hlow, Option.bind_some]
            rcases Option.eq_none_or_eq_some (ofHalves? c d) with hpair | ⟨p, hpair⟩ <;> rw [hpair] <;> rfl

/-- A half by itself, or any other code point with four digits. -/
theorem unicodeEscape_single (hc : c.val < 0x10000) (h : c.isHighHalf = true → lowAhead? rest = none) :
    unicodeEscape (hex 4 c.val ++ rest) = some (c, 4) := by
  rw [unicodeEscape_hex hc]
  cases hhigh : c.isHighHalf with
  | false => rfl
  | true => rw [if_pos rfl, h hhigh]; rfl

theorem lowAhead?_hex (hd : d.isLowHalf = true) (rest : Text) : lowAhead? ("\\u" ++ hex 4 d.val ++ rest) = some d := by
  have hlt : d.val < 0x10000 := by
    rw [CodePoint.isLowHalf, Bool.and_eq_true, decide_eq_true_iff] at hd
    have := of_decide_eq_true hd.2
    omega
  have hstart : startsWith (Text.ofString "\\u" ++ (hex 4 d.val ++ rest)) "\\u" = true := startsWith_append _ _
  have htwo : (Text.ofString "\\u" ++ (hex 4 d.val ++ rest)).drop 2 = hex 4 d.val ++ rest := rfl
  rw [List.append_assoc, lowAhead?, if_pos hstart, htwo, List.take_left' (hex_length 4 d.val), hexValue?_hex hlt, Option.bind_some,
    ofNat?_val]
  simp [Option.filter, hd]

theorem unicodeEscape_pair (hc : 0x10000 ≤ c.val) (rest : Text) :
    unicodeEscape (hex 4 (0xD800 + (c.val - 0x10000) / 0x400) ++
      ("\\u" ++ hex 4 (0xDC00 + (c.val - 0x10000) % 0x400) ++ rest)) = some (c, 10) := by
  have hlt := c.isLt
  have hhalves : 0xD800 + (c.val - 0x10000) / 0x400 < 0xDC00 ∧ 0xDC00 + (c.val - 0x10000) % 0x400 < 0xE000 := by omega
  let high : CodePoint := ⟨0xD800 + (c.val - 0x10000) / 0x400, by omega⟩
  let low : CodePoint := ⟨0xDC00 + (c.val - 0x10000) % 0x400, by omega⟩
  have hhigh : high.isHighHalf = true := by
    simp only [CodePoint.isHighHalf, Bool.and_eq_true, decide_eq_true_iff, high]
    omega
  have hlow : low.isLowHalf = true := by
    simp only [CodePoint.isLowHalf, Bool.and_eq_true, decide_eq_true_iff, low]
    omega
  have hpair : 0x10000 + (high.val - 0xD800) * 0x400 + (low.val - 0xDC00) = c.val := by
    simp only [high, low]
    omega
  have hread := unicodeEscape_hex (c := high) (by simp only [high]; omega) ("\\u" ++ hex 4 low.val ++ rest)
  rw [hhigh, if_pos rfl, lowAhead?_hex hlow, Option.bind_some, ofHalves?, hpair, ofNat?_val] at hread
  exact hread

theorem lowAhead?_of_ne (h : startsWith rest "\\u" = false) : lowAhead? rest = none := by
  rw [lowAhead?, h]
  rfl

/-- Only the escape of a second half is taken for one. -/
theorem lowAhead?_escaped (h : Escaped d piece) (hd : d.isLowHalf = false) (rest : Text) : lowAhead? (piece ++ rest) = none := by
  have hnumber {n : Nat} (hn : n < 0x10000) (hlow : ∀ e ∈ CodePoint.ofNat? n, e.isLowHalf = false) (behind : Text) :
      lowAhead? ("\\u" ++ (hex 4 n ++ behind)) = none := by
    have hstart : startsWith (Text.ofString "\\u" ++ (hex 4 n ++ behind)) "\\u" = true := startsWith_append _ _
    have htwo : (Text.ofString "\\u" ++ (hex 4 n ++ behind)).drop 2 = hex 4 n ++ behind := rfl
    rw [lowAhead?, if_pos hstart, htwo, List.take_left' (hex_length 4 n), hexValue?_hex hn, Option.bind_some]
    cases hvalue : CodePoint.ofNat? n with
    | none => rfl
    | some e => simp [Option.filter, hlow e hvalue]
  cases h with
  | plain _ hslash _ => exact lowAhead?_of_ne (startsWith_cons hslash _)
  | @short e hu _ =>
    refine lowAhead?_of_ne ?_
    show startsWith (CodePoint.ofChar '\\' :: e :: rest) (CodePoint.ofChar '\\' :: "u") = false
    rw [startsWith_cons_cons, beq_self_eq_true, Bool.true_and]
    exact startsWith_cons hu rest
  | numbered hc =>
    rw [List.append_assoc]
    refine hnumber hc (fun e he => ?_) rest
    rw [ofNat?_val] at he
    cases he
    exact hd
  | paired hc =>
    have hlt := d.isLt
    rw [List.append_assoc, List.append_assoc, List.append_assoc]
    refine hnumber (by omega) (fun e he => ?_) _
    rw [CodePoint.ofNat?, dif_pos (by omega)] at he
    cases he
    simp only [CodePoint.isLowHalf, Bool.and_eq_false_iff, decide_eq_false_iff_not]
    omega

theorem stringBody_unicode (h : unicodeEscape (piece ++ rest) = some (c, piece.length)) :
    stringBody 0 ("\\u" ++ (piece ++ rest)) = (stringBody 0 rest).map fun body => (c :: body.1, body.2) := by
  have hskip : stringBody (piece.length + 1) (CodePoint.ofChar 'u' :: (piece ++ rest)) = stringBody 0 rest := by
    rw [stringBody, stringBody_skip]
  show stringBody 0 (CodePoint.ofChar '\\' :: CodePoint.ofChar 'u' :: (piece ++ rest)) = _
  rw [stringBody, if_neg (by decide), if_pos rfl]
  dsimp only
  rw [if_pos rfl, h]
  simp only [Option.bind_eq_bind, Option.bind_some, hskip]
  cases stringBody 0 rest <;> rfl

/-- A code point is read back off the front of a string. -/
theorem stringBody_escaped (h : Escaped c piece) (hlow : c.isHighHalf = true → lowAhead? rest = none) :
    stringBody 0 (piece ++ rest) = (stringBody 0 rest).map fun body => (c :: body.1, body.2) := by
  cases h with
  | plain hquote hslash hval =>
    show stringBody 0 (c :: rest) = _
    rw [stringBody.eq_def]
    simp only [hquote, hslash, hval, if_false]
    cases stringBody 0 rest <;> rfl
  | @short d hu hread =>
    have hskip : stringBody 1 (d :: rest) = stringBody 0 rest := stringBody_skip [d] rest
    show stringBody 0 (CodePoint.ofChar '\\' :: d :: rest) = _
    rw [stringBody, if_neg (by decide), if_pos rfl]
    dsimp only
    rw [if_neg hu, hread]
    simp only [Option.bind_eq_bind, Option.bind_some, hskip]
    cases stringBody 0 rest <;> rfl
  | numbered hc =>
    have hescape := unicodeEscape_single hc hlow
    rw [List.append_assoc]
    exact stringBody_unicode (by rw [hescape, hex_length])
  | paired hc =>
    have hescape := unicodeEscape_pair hc rest
    have hten : (hex 4 (0xD800 + (c.val - 0x10000) / 0x400) ++
        ("\\u" ++ hex 4 (0xDC00 + (c.val - 0x10000) % 0x400))).length = 10 := by
      rw [List.length_append, List.length_append, hex_length, hex_length]
      rfl
    rw [← List.append_assoc, ← hten] at hescape
    have hread := stringBody_unicode hescape
    simp only [List.append_assoc] at hread ⊢
    exact hread

/-- A text without pairs is read back. -/
theorem stringBody_string (h : Unpaired t) (rest : Text) :
    stringBody 0 (t.flatMap escape ++ CodePoint.ofChar '"' :: rest) = some (t, rest) := by
  induction t with
  | nil =>
    show stringBody 0 (CodePoint.ofChar '"' :: rest) = _
    rw [stringBody.eq_def]
    rfl
  | cons c t ih =>
    have hlow (hhigh : c.isHighHalf = true) : lowAhead? (t.flatMap escape ++ CodePoint.ofChar '"' :: rest) = none := by
      cases t with
      | nil => exact lowAhead?_of_ne (startsWith_cons (by decide) rest)
      | cons d t =>
        rw [List.flatMap_cons, List.append_assoc]
        exact lowAhead?_escaped (escape_escaped d) (h.1 hhigh d rfl) _
    rw [List.flatMap_cons, List.append_assoc, stringBody_escaped (escape_escaped c) hlow, ih h.2]
    rfl

end

/-! ## Numbers -/

/-- What stands behind a value in a record: a comma or a line feed. -/
def EndsValue (rest : Text) : Prop := ∀ c ∈ rest.head?, c = ',' ∨ c = '\n'

section
variable {rest w : Text} {n : Nat}

theorem isDigit_ofNat (n : Nat) : ∀ c ∈ ofNat n, isDigit c = true := by
  refine List.forall_mem_map.2 fun c hc => ?_
  have hdigit : c.isDigit = true := Nat.isDigit_of_mem_toDigits (by decide) (by decide) hc
  rw [Char.isDigit, Bool.and_eq_true, decide_eq_true_iff, decide_eq_true_iff] at hdigit
  simp only [isDigit, CodePoint.isBetween, Bool.and_eq_true, decide_eq_true_iff]
  exact hdigit

theorem ofNat_ne_nil (n : Nat) : ofNat n ≠ [] := fun h => Nat.toDigits_ne_nil (List.map_eq_nil_iff.1 h)

theorem digitsValue_ofNat (n : Nat) : digitsValue (ofNat n) = n := by
  rw [digitsValue, ofNat, List.foldl_map]
  refine Eq.trans ?_ (Nat.ofDigitChars_toDigits (b := 10) (n := n) (by decide) (by decide))
  rw [Nat.ofDigitChars]
  congr 1
  funext value c
  rw [Nat.mul_comm]
  rfl

theorem unsigned_ofNat (isNegative : Bool) (n : Nat) (h : EndsValue rest) :
    unsigned isNegative (ofNat n ++ rest) = some (.int (if isNegative then -(n : Int) else n), rest) := by
  have hstop : ∀ c ∈ rest.head?, isDigit c = false := by
    intro c hc
    rcases h c hc with rfl | rfl <;> decide
  have hplain {d : CodePoint} (hcomma : d ≠ ',') (hfeed : d ≠ '\n') : startsWith rest [d] = false := by
    cases rest with
    | nil => rfl
    | cons c rest =>
      refine startsWith_cons ?_ rest
      rintro rfl
      rcases h c rfl with rfl | rfl <;> contradiction
  have hempty : (ofNat n).isEmpty = false := List.isEmpty_eq_false_iff.2 (ofNat_ne_nil n)
  have hpoint : startsWith rest "." = false := hplain (by decide) (by decide)
  have hsmall : startsWith rest "e" = false := hplain (by decide) (by decide)
  have hlarge : startsWith rest "E" = false := hplain (by decide) (by decide)
  simp only [unsigned, takeWhile_of_stop (isDigit_ofNat n) hstop, dropWhile_of_stop (isDigit_ofNat n) hstop, hpoint, hsmall, hlarge,
    hempty, digitsValue_ofNat, Bool.or_self, Bool.false_eq_true, if_false]

end

/-! ## Records -/

/-- A text without pairs, or a whole number. -/
inductive Scalar : Datum → Prop
  | text {t : Text} : Unpaired t → Scalar (.text t)
  | int (n : Int) : Scalar (.int n)

/-- A field on the line of a record. -/
def fieldText (field : Text × Datum) : Text := string field.1 ++ ": " ++ write 1 field.2

/-- Entries with more fields put to them. -/
def putAll (found : List (Datum × Datum)) (fields : List (Text × Datum)) : List (Datum × Datum) :=
  fields.foldl (fun found field => Datum.put found field.1 field.2) found

section
variable {rest t key : Text} {d : Datum} {depth : Nat} {fields : List (Text × Datum)}

theorem skipSpace_cons {c : CodePoint} (h : isSpace c = true) (rest : Text) : skipSpace (c :: rest) = skipSpace rest :=
  List.dropWhile_cons_of_pos h

theorem skipSpace_of_stop {c : CodePoint} (h : isSpace c = false) (rest : Text) : skipSpace (c :: rest) = c :: rest :=
  List.dropWhile_cons_of_neg (by simp [h])

/-- A scalar is read back behind a space. -/
theorem value_scalar (hd : Scalar d) (h : EndsValue rest) (depth level : Nat) :
    value (depth + 1) (CodePoint.ofChar ' ' :: (write level d ++ rest)) = some (d, rest) := by
  rw [value, skipSpace_cons (by decide)]
  cases hd with
  | @text t ht =>
    have hstring : write level (.text t) ++ rest = CodePoint.ofChar '"' :: (t.flatMap escape ++ CodePoint.ofChar '"' :: rest) := by
      show (CodePoint.ofChar '"' :: (t.flatMap escape ++ [CodePoint.ofChar '"'])) ++ rest = _
      rw [List.cons_append, List.append_assoc]
      rfl
    rw [hstring, skipSpace_of_stop (by decide)]
    dsimp only
    rw [if_pos rfl, stringBody_string ht]
    rfl
  | int n =>
    cases n with
    | ofNat n =>
      obtain ⟨c, digits, hdigits⟩ := List.exists_cons_of_ne_nil (ofNat_ne_nil n)
      have hc : isDigit c = true := isDigit_ofNat n c (hdigits ▸ List.mem_cons_self)
      -- a digit is none of the marks that other values begin with
      have hne {d : Char} (hd : isDigit (CodePoint.ofChar d) = false) : c ≠ d := by
        rintro rfl
        rw [hd] at hc
        cases hc
      have hspace : isSpace c = false := by
        simp only [isSpace, Bool.or_eq_false_iff, beq_eq_false_iff_ne]
        exact ⟨⟨⟨hne (by decide), hne (by decide)⟩, hne (by decide)⟩, hne (by decide)⟩
      have hread := unsigned_ofNat false n h
      have hwrite : write level (.int (.ofNat n)) ++ rest = c :: (digits ++ rest) := by
        show ofNat n ++ rest = _
        rw [hdigits, List.cons_append]
      rw [hdigits, List.cons_append] at hread
      rw [hwrite, skipSpace_of_stop hspace]
      dsimp only
      rw [if_neg (hne (by decide)), if_neg (hne (by decide)), if_neg (hne (by decide)), if_neg (hne (by decide)),
        if_pos (.inl hc), hread]
      rfl
    | negSucc n =>
      have hminus : write level (.int (.negSucc n)) ++ rest = CodePoint.ofChar '-' :: (ofNat (n + 1) ++ rest) := rfl
      rw [hminus, skipSpace_of_stop (by decide)]
      dsimp only
      rw [if_neg (by decide), if_neg (by decide), if_neg (by decide), if_pos rfl, unsigned_ofNat true _ h]
      rfl

theorem fieldText_append (key : Text) (d : Datum) (rest : Text) : fieldText (key, d) ++ rest =
    CodePoint.ofChar '"' :: (key.flatMap escape ++ CodePoint.ofChar '"' :: CodePoint.ofChar ':' :: CodePoint.ofChar ' ' ::
      (write 1 d ++ rest)) := by
  show ((CodePoint.ofChar '"' :: (key.flatMap escape ++ [CodePoint.ofChar '"'])) ++
    [CodePoint.ofChar ':', CodePoint.ofChar ' '] ++ write 1 d) ++ rest = _
  simp only [List.cons_append, List.append_assoc, List.nil_append]

theorem skipSpace_fieldText (field : Text × Datum) (rest : Text) :
    skipSpace (Text.ofString "\n  " ++ (fieldText field ++ rest)) = fieldText field ++ rest := by
  rw [fieldText_append field.1 field.2]
  rfl

/-- A field is read back off its line. -/
theorem entries_field (found : List (Datum × Datum)) (hkey : Unpaired key) (hd : Scalar d) (h : EndsValue rest) (depth : Nat) :
    entries (depth + 2) found (Text.ofString "\n  " ++ (fieldText (key, d) ++ rest)) =
      (afterItem '\x7d' rest).bind fun next =>
        if next.1 then entries (depth + 1) (Datum.put found key d) next.2
        else some (.mapping (Datum.put found key d), next.2) := by
  rw [entries, skipSpace_fieldText, fieldText_append]
  dsimp only
  rw [if_pos rfl, stringBody_string hkey]
  simp only [Option.bind_eq_bind, Option.bind_some]
  rw [skipSpace_of_stop (by decide)]
  dsimp only
  rw [if_pos rfl, value_scalar hd h]
  simp only [Option.bind_some]
  congr 1
  funext next
  obtain ⟨isMore, rest⟩ := next
  cases isMore <;> rfl

/-- The fields are read back one after the other. -/
theorem entries_fields (found : List (Datum × Datum)) (hne : fields ≠ [])
    (h : ∀ field ∈ fields, Unpaired field.1 ∧ Scalar field.2) (hdepth : fields.length + 1 ≤ depth) :
    entries depth found (Text.ofString "\n  " ++ (join ",\n  " (fields.map fieldText) ++ "\n\x7d")) =
      some (.mapping (putAll found fields), []) := by
  induction fields generalizing found depth with
  | nil => exact absurd rfl hne
  | cons field fields ih =>
    obtain ⟨depth, rfl⟩ : ∃ k, depth = k + 2 := ⟨depth - 2, by rw [List.length_cons] at hdepth; omega⟩
    obtain ⟨key, d⟩ := field
    obtain ⟨hkey, hd⟩ := h _ List.mem_cons_self
    cases fields with
    | nil =>
      have hends : EndsValue "\n\x7d" := by
        rintro c ⟨⟩
        exact .inr rfl
      exact entries_field found hkey hd hends depth
    | cons next fields =>
      let behind : Text := Text.ofString "\n  " ++ (join ",\n  " ((next :: fields).map fieldText) ++ "\n\x7d")
      have hends : EndsValue (CodePoint.ofChar ',' :: behind) := by
        rintro c ⟨⟩
        exact .inl rfl
      have hroom : (next :: fields).length + 1 ≤ depth + 1 := by simpa using hdepth
      have hrest := ih (Datum.put found key d) (List.cons_ne_nil next fields)
        (fun field hfield => h field (List.mem_cons_of_mem _ hfield)) hroom
      have hjoin : join ",\n  " (((key, d) :: next :: fields).map fieldText) ++ Text.ofString "\n\x7d" =
          fieldText (key, d) ++ CodePoint.ofChar ',' :: behind := by
        rw [List.map_cons, List.map_cons, join, List.append_assoc, List.append_assoc]
        rfl
      rw [hjoin, entries_field found hkey hd hends]
      exact hrest

theorem writeEntries_record (fields : List (Text × Datum)) :
    writeEntries 1 (fields.map fun field => (.text field.1, field.2)) = fields.map fieldText := by
  induction fields with
  | nil => rfl
  | cons field fields ih =>
    rw [List.map_cons, writeEntries, ih, List.map_cons]
    rfl

theorem length_le_join (separator : Text) {parts : List Text} (h : ∀ part ∈ parts, part ≠ []) :
    parts.length ≤ (join separator parts).length := by
  induction parts with
  | nil => exact Nat.zero_le _
  | cons part parts ih =>
    have hpart : 1 ≤ part.length := List.length_pos_iff.2 (h part List.mem_cons_self)
    cases parts with
    | nil => exact hpart
    | cons next parts =>
      have hrest := ih fun part hpart => h part (List.mem_cons_of_mem _ hpart)
      rw [join, List.length_append, List.length_append, List.length_cons]
      omega

theorem exists_join_cons (separator part : Text) (parts : List Text) : ∃ t, join separator (part :: parts) = part ++ t := by
  cases parts with
  | nil => exact ⟨[], (List.append_nil part).symm⟩
  | cons next parts => exact ⟨_, List.append_assoc part separator _⟩

/-- Fields stand on lines of their own. -/
theorem render_record (hne : fields ≠ []) : render (Datum.record fields) =
    CodePoint.ofChar '\x7b' :: (Text.ofString "\n  " ++ (join ",\n  " (fields.map fieldText) ++ "\n\x7d")) := by
  have hparts : (fields.map fieldText).isEmpty = false := by simpa using hne
  show block "\x7b" "\x7d" 0 (writeEntries 1 (fields.map fun field => (.text field.1, field.2))) = _
  rw [writeEntries_record, block, if_neg (by rw [hparts]; exact Bool.false_ne_true)]
  dsimp only
  simp only [List.append_assoc]
  rfl

/-- A record of scalars is read back, each field in the place its key first has. -/
theorem parse?_record (h : ∀ field ∈ fields, Unpaired field.1 ∧ Scalar field.2) :
    parse? (render (Datum.record fields)) = some (.mapping (putAll [] fields)) := by
  cases fields with
  | nil => rfl
  | cons field fields =>
    have hne : field :: fields ≠ [] := List.cons_ne_nil field fields
    let inside : Text := Text.ofString "\n  " ++ (join ",\n  " ((field :: fields).map fieldText) ++ "\n\x7d")
    obtain ⟨first, hfirst⟩ : ∃ rest, skipSpace inside = CodePoint.ofChar '"' :: rest := by
      obtain ⟨behind, hjoin⟩ := exists_join_cons ",\n  " (fieldText field) (fields.map fieldText)
      simp only [inside, List.map_cons]
      rw [hjoin, List.append_assoc, skipSpace_fieldText]
      exact ⟨_, fieldText_append field.1 field.2 _⟩
    have hlength : (field :: fields).length ≤ inside.length := by
      have hparts : ∀ part ∈ (field :: fields).map fieldText, part ≠ [] :=
        List.forall_mem_map.2 fun field _ => List.cons_ne_nil _ _
      have hjoin := length_le_join ",\n  " hparts
      rw [List.length_map] at hjoin
      simp only [inside, List.length_append]
      omega
    have hroom : (field :: fields).length + 1 ≤ 2 * (inside.length + 1) + 1 := by omega
    have hread := entries_fields [] hne h hroom
    have hvalue : value (2 * (CodePoint.ofChar '\x7b' :: inside).length + 2) (CodePoint.ofChar '\x7b' :: inside) =
        some (.mapping (putAll [] (field :: fields)), []) := by
      show value (2 * (inside.length + 1) + 1 + 1) (CodePoint.ofChar '\x7b' :: inside) = _
      rw [value, skipSpace_of_stop (by decide)]
      dsimp only
      rw [if_neg (by decide), if_neg (by decide), if_pos rfl, hfirst]
      dsimp only
      rw [if_neg (by decide), hread]
    rw [parse?, render_record hne, hvalue]
    rfl

end

end WireSchema.Datum.Json
