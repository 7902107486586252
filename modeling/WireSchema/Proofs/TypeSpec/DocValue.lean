import WireSchema.Proofs.Lexing.Strings
import WireSchema.TypeSpec.Decorator
/-!
# Literals for documentation

A description is one literal: on one line, or over several rows between three
quotes. Between three quotes the escapes stand for the description, and no
interpolation begins there. Three quotes that close the literal too early are
left exactly where a run of quotes is longer than three but does not come in
threes.
-/

namespace WireSchema.TypeSpec

open Text

/-! ## Escaping piece by piece -/

/-- The inside of a literal of several rows before interpolations are guarded. -/
def guardQuotes (t : Text) : Text := replace tripleQuote ("\\" ++ tripleQuote) (replace "\\" "\\\\" t)

/-- A text with the escapes for the inside of a literal of several rows. -/
def escaped (t : Text) : Text := guardInterpolation (guardQuotes t)

section
variable {t : Text} {c : CodePoint}

/-- Doubling backslashes keeps the quotes that a text begins with. -/
theorem startsWith_doubled (n : Nat) (t : Text) :
    startsWith (replace "\\" "\\\\" t) (List.replicate n '"') = startsWith t (List.replicate n '"') := by
  induction n generalizing t with
  | zero => rfl
  | succ n ih =>
    cases t with
    | nil => rfl
    | cons c t =>
      by_cases hc : c = '\\'
      · subst hc
        have hslash : replace "\\" "\\\\" ('\\' :: t) = "\\\\" ++ replace "\\" "\\\\" t :=
          replace_append (List.cons_ne_nil _ []) t
        rw [hslash]
        rfl
      · have hkept : replace "\\" "\\\\" (c :: t) = c :: replace "\\" "\\\\" t := replace_cons (startsWith_cons hc t)
        rw [hkept, List.replicate_succ, startsWith_cons_cons, startsWith_cons_cons, ih]

theorem guardQuotes_slash (t : Text) : guardQuotes ('\\' :: t) = "\\\\" ++ guardQuotes t := by
  have hslash : replace "\\" "\\\\" ('\\' :: t) = "\\\\" ++ replace "\\" "\\\\" t :=
    replace_append (List.cons_ne_nil _ []) t
  have hnone (s : Text) : startsWith ('\\' :: s) tripleQuote = false := rfl
  rw [guardQuotes, hslash]
  show replace tripleQuote _ ('\\' :: '\\' :: _) = _
  rw [replace_cons (hnone _), replace_cons (hnone _)]
  rfl

theorem guardQuotes_quotes (t : Text) : guardQuotes (tripleQuote ++ t) = "\\\"\"\"" ++ guardQuotes t := by
  have hdoubled : replace "\\" "\\\\" (tripleQuote ++ t) = tripleQuote ++ replace "\\" "\\\\" t := by
    have hnone (s : Text) : startsWith ('"' :: s) "\\" = false := rfl
    show replace "\\" "\\\\" ('"' :: '"' :: '"' :: t) = _
    rw [replace_cons (hnone _), replace_cons (hnone _), replace_cons (hnone _)]
    rfl
  rw [guardQuotes, hdoubled, replace_append (by decide)]
  rfl

theorem guardQuotes_cons (hc : c ≠ '\\') (h : startsWith (c :: t) tripleQuote = false) :
    guardQuotes (c :: t) = c :: guardQuotes t := by
  have hdoubled : replace "\\" "\\\\" (c :: t) = c :: replace "\\" "\\\\" t := replace_cons (startsWith_cons hc t)
  -- The search for three quotes runs on the doubled text, so the condition is carried over to it.
  have hquotes : startsWith (c :: replace "\\" "\\\\" t) tripleQuote = false := by
    rw [← hdoubled]
    exact (startsWith_doubled 3 _).trans h
  rw [guardQuotes, hdoubled, replace_cons hquotes]
  rfl

/-- Escaping neither makes nor breaks a brace at the start. -/
theorem startsWith_guardQuotes (t : Text) : startsWith (guardQuotes t) "\x7b" = startsWith t "\x7b" := by
  cases t with
  | nil => rfl
  | cons c t =>
    by_cases hc : c = '\\'
    · subst hc
      rw [guardQuotes_slash]
      rfl
    cases h : startsWith (c :: t) tripleQuote with
    | true =>
      obtain ⟨rest, hrest⟩ := eq_append_of_startsWith h
      rw [hrest, guardQuotes_quotes]
      rfl
    | false =>
      rw [guardQuotes_cons hc h]
      exact (startsWith_cons_cons _ _ _ _).trans (by rfl)

theorem escaped_slash (t : Text) : escaped ('\\' :: t) = "\\\\" ++ escaped t := by
  have hnone (s : Text) : startsWith ('\\' :: s) interpolation = false := rfl
  rw [escaped, guardQuotes_slash]
  show guardInterpolation ('\\' :: '\\' :: guardQuotes t) = _
  rw [guardInterpolation_cons (hnone _), guardInterpolation_cons (hnone _)]
  rfl

theorem escaped_quotes (t : Text) : escaped (tripleQuote ++ t) = "\\\"\"\"" ++ escaped t := by
  have hslash (s : Text) : startsWith ('\\' :: s) interpolation = false := rfl
  have hquote (s : Text) : startsWith ('"' :: s) interpolation = false := rfl
  rw [escaped, guardQuotes_quotes]
  show guardInterpolation ('\\' :: '"' :: '"' :: '"' :: guardQuotes t) = _
  rw [guardInterpolation_cons (hslash _), guardInterpolation_cons (hquote _), guardInterpolation_cons (hquote _),
    guardInterpolation_cons (hquote _)]
  rfl

theorem escaped_interpolation (t : Text) : escaped (interpolation ++ t) = "\\$\x7b" ++ escaped t := by
  have hquotes : guardQuotes (interpolation ++ t) = interpolation ++ guardQuotes t := by
    show guardQuotes ('$' :: '\x7b' :: t) = _
    rw [guardQuotes_cons (by simp) rfl, guardQuotes_cons (by simp) rfl]
    rfl
  rw [escaped, hquotes, guardInterpolation, replace_append (by decide)]
  rfl

theorem escaped_cons (hc : c ≠ '\\') (hquotes : startsWith (c :: t) tripleQuote = false)
    (hhole : startsWith (c :: t) interpolation = false) : escaped (c :: t) = c :: escaped t := by
  have hguarded : startsWith (c :: guardQuotes t) interpolation = false := by
    have hhead := startsWith_guardQuotes t
    have hleft := startsWith_cons_cons c '$' "\x7b" (guardQuotes t)
    have hright := startsWith_cons_cons c '$' "\x7b" t
    rw [hhead, ← hright] at hleft
    exact hleft.trans hhole
  rw [escaped, guardQuotes_cons hc hquotes, guardInterpolation_cons hguarded, escaped]

end

/-! ## What the escapes read as -/

/-- How the code points of a text read once they are escaped: backslashes, the
first of three quotes and the dollar sign of an interpolation are taken along by
a backslash. -/
inductive Marked : Text → List (CodePoint × Bool) → Prop where
  | nil : Marked [] []
  | slash {t : Text} {m : List (CodePoint × Bool)} : Marked t m → Marked ('\\' :: t) (('\\', true) :: m)
  | quotes {t : Text} {m : List (CodePoint × Bool)} :
    Marked t m → Marked (tripleQuote ++ t) (('"', true) :: ('"', false) :: ('"', false) :: m)
  | hole {t : Text} {m : List (CodePoint × Bool)} :
    Marked t m → Marked (interpolation ++ t) (('$', true) :: ('\x7b', false) :: m)
  | plain {c : CodePoint} {t : Text} {m : List (CodePoint × Bool)} :
    c ≠ '\\' → startsWith (c :: t) tripleQuote = false → startsWith (c :: t) interpolation = false →
    Marked t m → Marked (c :: t) ((c, false) :: m)

/-- Escaping leaves the code points as they are and marks them. -/
theorem readings_escaped (t : Text) : Marked t (readings (escaped t)) := by
  -- An escaped piece may be three code points long, so the induction is on the length.
  induction hlength : t.length using Nat.strongRecOn generalizing t with
  | ind n ih =>
  subst hlength
  cases t with
  | nil => exact .nil
  | cons c t =>
    by_cases hc : c = '\\'
    · subst hc
      rw [escaped_slash]
      show Marked _ (readings ('\\' :: '\\' :: escaped t))
      rw [readings_slash]
      exact .slash (ih _ (by simp) t rfl)
    cases hquotes : startsWith (c :: t) tripleQuote with
    | true =>
      obtain ⟨rest, hrest⟩ := eq_append_of_startsWith hquotes
      have hshorter : rest.length < (c :: t).length := by
        rw [hrest, List.length_append]
        exact Nat.lt_add_of_pos_left (by decide)
      rw [hrest, escaped_quotes]
      show Marked _ (readings ('\\' :: '"' :: '"' :: '"' :: escaped rest))
      rw [readings_slash, readings_cons (by simp), readings_cons (by simp)]
      exact .quotes (ih _ hshorter rest rfl)
    | false =>
      cases hhole : startsWith (c :: t) interpolation with
      | true =>
        obtain ⟨rest, hrest⟩ := eq_append_of_startsWith hhole
        have hshorter : rest.length < (c :: t).length := by
          rw [hrest, List.length_append]
          exact Nat.lt_add_of_pos_left (by decide)
        rw [hrest, escaped_interpolation]
        show Marked _ (readings ('\\' :: '$' :: '\x7b' :: escaped rest))
        rw [readings_slash, readings_cons (by simp)]
        exact .hole (ih _ hshorter rest rfl)
      | false =>
        rw [escaped_cons hc hquotes hhole, readings_cons hc]
        exact .plain hc hquotes hhole (ih _ (by simp) t rfl)

section
variable {t : Text} {m : List (CodePoint × Bool)}

/-- Without their backslashes the escapes stand for the text. -/
theorem Marked.map_fst (h : Marked t m) : m.map (·.1) = t := by
  induction h with
  | nil => rfl
  | slash _ ih => rw [List.map_cons, ih]
  | quotes _ ih => rw [List.map_cons, List.map_cons, List.map_cons, ih]; rfl
  | hole _ ih => rw [List.map_cons, List.map_cons, ih]; rfl
  | plain _ _ _ _ ih => rw [List.map_cons, ih]

/-- A text whose first code points read as bare begins with them. -/
theorem Marked.startsWith_of_isPrefix (h : Marked t m) (pattern : Text) (hpattern : pattern.map (·, false) <+: m) :
    startsWith t pattern = true := by
  obtain ⟨rest, hrest⟩ := hpattern
  have ht := h.map_fst
  rw [← hrest, List.map_append, List.map_map] at ht
  have hsame : pattern.map ((·.1) ∘ (·, false)) = pattern := List.map_id pattern
  rw [hsame] at ht
  rw [← ht]
  exact startsWith_append _ _

/-- The mark that a bare code point has. -/
abbrev bare (c : Char) : CodePoint × Bool := (CodePoint.ofChar c, false)

/-- No interpolation begins. -/
theorem Marked.not_interpolation (h : Marked t m) : ¬ [bare '$', bare '\x7b'] <:+: m := by
  induction h with
  | nil => simp
  | slash _ ih => rwa [infix_cons_of_ne (by simp)]
  | quotes _ ih => rwa [infix_cons_of_ne (by simp), infix_cons_of_ne (by simp), infix_cons_of_ne (by simp)]
  | hole _ ih => rwa [infix_cons_of_ne (by simp), infix_cons_of_ne (by simp)]
  | plain hc hquotes hhole hm ih =>
    rw [List.infix_cons_iff, not_or]
    refine ⟨fun hstart => ?_, ih⟩
    -- A bare interpolation at this place would be one of the text, which the constructor excludes.
    have := (Marked.plain hc hquotes hhole hm).startsWith_of_isPrefix interpolation hstart
    rw [hhole] at this
    exact Bool.false_ne_true this

end

/-! ## Runs of quotes -/

/-- How many quotes stand side by side, from each place that is not inside a run:
a code point that is no quote ends one run and begins the next. -/
def quoteRuns : Text → List Nat
  | [] => [0]
  | c :: t => if c = '"' then (quoteRuns t).modifyHead (· + 1) else 0 :: quoteRuns t

/-- A run of quotes that the escapes do not keep from closing the literal. -/
def Closes (run : Nat) : Prop := 3 < run ∧ run % 3 ≠ 0

section
variable {t : Text} {m : List (CodePoint × Bool)} {c : CodePoint}

theorem quoteRuns_cons_of_ne (h : c ≠ '"') (t : Text) : quoteRuns (c :: t) = 0 :: quoteRuns t := by
  rw [quoteRuns, if_neg h]

theorem quoteRuns_quote (t : Text) : quoteRuns ('"' :: t) = (quoteRuns t).modifyHead (· + 1) := by
  rw [quoteRuns, if_pos rfl]

/-- Three quotes make the first run longer by three. -/
theorem quoteRuns_quotes (t : Text) : quoteRuns (tripleQuote ++ t) = (quoteRuns t).modifyHead (· + 3) := by
  show quoteRuns ('"' :: '"' :: '"' :: t) = _
  rw [quoteRuns_quote, quoteRuns_quote, quoteRuns_quote, List.modifyHead_modifyHead, List.modifyHead_modifyHead]
  rfl

theorem quoteRuns_ne_nil (t : Text) : ∃ run runs, quoteRuns t = run :: runs := by
  induction t with
  | nil => exact ⟨0, [], rfl⟩
  | cons c t ih =>
    obtain ⟨run, runs, h⟩ := ih
    by_cases hc : c = '"'
    · exact ⟨run + 1, runs, by rw [hc, quoteRuns_quote, h]; rfl⟩
    · exact ⟨0, run :: runs, by rw [quoteRuns_cons_of_ne hc, h]⟩

/-- The first run is as long as the run of quotes that the text begins with. -/
theorem startsWith_quotes_iff {run : Nat} {runs : List Nat} (h : quoteRuns t = run :: runs) (n : Nat) :
    startsWith t (List.replicate n '"') = true ↔ n ≤ run := by
  induction t generalizing run runs n with
  | nil =>
    obtain ⟨rfl, rfl⟩ := List.cons.inj h
    cases n <;> simp [startsWith, List.replicate_succ]
  | cons c t ih =>
    cases n with
    | zero => simp [startsWith]
    | succ n =>
      rw [List.replicate_succ, startsWith_cons_cons]
      by_cases hc : c = '"'
      · obtain ⟨rest, more, hrest⟩ := quoteRuns_ne_nil t
        rw [hc, quoteRuns_quote, hrest] at h
        obtain ⟨rfl, rfl⟩ := List.cons.inj h
        simp [hc, ih hrest]
      · rw [quoteRuns_cons_of_ne hc] at h
        obtain ⟨rfl, rfl⟩ := List.cons.inj h
        simp [Ne.symm hc]

/-- A quote at which no three quotes begin is the first of a run of one or two. -/
theorem quoteRuns_short (h : startsWith ('"' :: t) tripleQuote = false) :
    ∃ run runs, run ≤ 1 ∧ quoteRuns t = run :: runs := by
  obtain ⟨run, runs, hruns⟩ := quoteRuns_ne_nil t
  have hfirst : quoteRuns ('"' :: t) = (run + 1) :: runs := by
    rw [quoteRuns_quote, hruns]
    rfl
  refine ⟨run, runs, Nat.le_of_not_lt fun hlong => ?_, hruns⟩
  have : startsWith ('"' :: t) tripleQuote = true := (startsWith_quotes_iff hfirst 3).2 (by omega)
  rw [h] at this
  exact Bool.false_ne_true this

/-- A bare quote comes first where the first run has one quote or two. -/
theorem Marked.head?_quote (h : Marked t m) {run : Nat} {runs : List Nat} (hruns : quoteRuns t = run :: runs) :
    m.head? = some (bare '"') ↔ run = 1 ∨ run = 2 := by
  cases h with
  | nil =>
    obtain ⟨rfl, rfl⟩ := List.cons.inj hruns
    simp
  | slash _ =>
    rw [quoteRuns_cons_of_ne (by simp)] at hruns
    obtain ⟨rfl, rfl⟩ := List.cons.inj hruns
    simp
  | @quotes t m _ =>
    obtain ⟨rest, more, hrest⟩ := quoteRuns_ne_nil t
    rw [quoteRuns_quotes, hrest] at hruns
    obtain ⟨rfl, rfl⟩ := List.cons.inj hruns
    simp
  | @hole t m _ =>
    have hzero : quoteRuns (interpolation ++ t) = 0 :: quoteRuns ('\x7b' :: t) :=
      quoteRuns_cons_of_ne (c := '$') (by simp) _
    obtain ⟨rfl, rfl⟩ := List.cons.inj (hruns.symm.trans hzero)
    simp
  | @plain c t m hc hquotes _ hm =>
    by_cases hquote : c = '"'
    · subst hquote
      obtain ⟨rest, more, hshort, hrest⟩ := quoteRuns_short hquotes
      rw [quoteRuns_quote, hrest] at hruns
      obtain ⟨rfl, rfl⟩ := List.cons.inj hruns
      simp
      omega
    · rw [quoteRuns_cons_of_ne hquote] at hruns
      obtain ⟨rfl, rfl⟩ := List.cons.inj hruns
      simp [hquote]

theorem exists_closes_zero (runs : List Nat) :
    (∃ run ∈ 0 :: runs, Closes run) ↔ ∃ run ∈ runs, Closes run := by
  simp [Closes]

/-- Three quotes before a run leave it as it is, or let one or two bare quotes follow them. -/
theorem closes_add_three (run : Nat) : Closes (run + 3) ↔ Closes run ∨ run = 1 ∨ run = 2 := by
  unfold Closes
  omega

/-- Three bare quotes stand where a run of quotes is longer than three and does
not come in threes. -/
theorem Marked.tripleQuote_iff (h : Marked t m) :
    [bare '"', bare '"', bare '"'] <:+: m ↔ ∃ run ∈ quoteRuns t, Closes run := by
  induction h with
  | nil => simp [quoteRuns, Closes]
  | slash _ ih => rw [infix_cons_of_ne (by simp), ih, quoteRuns_cons_of_ne (by simp), exists_closes_zero]
  | @quotes t m hm ih =>
    -- only the first of three quotes is escaped, so the two others run on into what follows
    obtain ⟨run, runs, hruns⟩ := quoteRuns_ne_nil t
    have hhead := hm.head?_quote hruns
    have hfirst : [bare '"', bare '"', bare '"'] <:+: bare '"' :: bare '"' :: m ↔
        m.head? = some (bare '"') ∨ [bare '"', bare '"', bare '"'] <:+: m := by
      rw [List.infix_cons_iff, List.infix_cons_iff]
      cases m <;> simp [List.cons_prefix_cons]
      grind
    rw [infix_cons_of_ne (by simp), hfirst, ih, hhead, quoteRuns_quotes, hruns]
    simp only [List.modifyHead_cons, List.mem_cons, exists_eq_or_imp, closes_add_three]
    grind
  | @hole t m _ ih =>
    have hzero : quoteRuns (interpolation ++ t) = 0 :: 0 :: quoteRuns t := by
      show quoteRuns ('$' :: '\x7b' :: t) = _
      rw [quoteRuns_cons_of_ne (by simp), quoteRuns_cons_of_ne (by simp)]
    rw [infix_cons_of_ne (by simp), infix_cons_of_ne (by simp), ih, hzero, exists_closes_zero, exists_closes_zero]
  | @plain c t m hc hquotes hhole hm ih =>
    by_cases hquote : c = '"'
    · subst hquote
      have hnone : ¬ [bare '"', bare '"', bare '"'] <+: bare '"' :: m := by
        intro hstart
        have := (Marked.plain hc hquotes hhole hm).startsWith_of_isPrefix tripleQuote hstart
        rw [hquotes] at this
        exact Bool.false_ne_true this
      obtain ⟨run, runs, hshort, hruns⟩ := quoteRuns_short hquotes
      rw [List.infix_cons_iff, or_iff_right hnone, ih, quoteRuns_quote, hruns]
      have hrun : ¬ Closes run := by unfold Closes; omega
      have hlonger : ¬ Closes (run + 1) := by unfold Closes; omega
      simp [hrun, hlonger]
    · rw [infix_cons_of_ne (by simp [Ne.symm hquote]), ih, quoteRuns_cons_of_ne hquote, exists_closes_zero]

end

/-! ## The literal of a description -/

/-- The literal stands on one line and keeps to the limit. -/
def FitsOneLine (config : Config) (description : Text) : Prop :=
  CodePoint.ofChar '\n' ∉ description ∧ (literal description).length ≤ config.docLineLimit

theorem literal_line (t : Text) : CodePoint.ofChar '\n' ∉ literal t := by
  intro hmem
  rcases List.mem_append.1 hmem with hmem | hmem
  · rcases List.mem_append.1 hmem with hmem | hmem
    · exact absurd hmem (by decide)
    · rcases mem_replace hmem with hnew | hinside
      · exact absurd hnew (by decide)
      · exact (quoteInside_quotes t).line hinside
  · exact absurd hmem (by decide)

/-- A description that fits is its literal on one line. Otherwise the escapes
between the three quotes stand for the description without its indentation, no
interpolation begins there, and three quotes close the literal too early just
where a run of quotes is longer than three and does not come in threes. -/
theorem docValue_literal (config : Config) (description : Text) :
    (FitsOneLine config description ∧ docValue config description = literal description ∧
      CodePoint.ofChar '\n' ∉ docValue config description) ∨
    (¬ FitsOneLine config description ∧ ∃ inside,
      docValue config description = tripleQuote ++ "\n" ++ inside ++ "\n" ++ tripleQuote ∧
      withoutEscapes inside = dedent description ∧ ¬ Bare interpolation inside ∧
      (Bare tripleQuote inside ↔ ∃ run ∈ quoteRuns (dedent description), Closes run)) := by
  by_cases hfits : FitsOneLine config description
  · have hvalue : docValue config description = literal description := by
      obtain ⟨hline, hlength⟩ := hfits
      simp [docValue, hline, hlength]
    refine .inl ⟨hfits, hvalue, ?_⟩
    rw [hvalue]
    exact literal_line description
  · have hvalue : docValue config description =
        tripleQuote ++ "\n" ++ blockInside description ++ "\n" ++ tripleQuote := by
      have : (!description.contains '\n' && decide ((literal description).length ≤ config.docLineLimit)) = false := by
        simpa [FitsOneLine] using hfits
      simp only [docValue, this, Bool.false_eq_true, if_false]
    have hmarked : Marked (dedent description) (readings (blockInside description)) := readings_escaped _
    exact .inr ⟨hfits, _, hvalue, hmarked.map_fst, hmarked.not_interpolation, hmarked.tripleQuote_iff⟩

/-- Of four quotes in a row the first is escaped, and the other three close the
literal before its end. -/
theorem docValue_closes_early :
    docValue {} "a\n\"\"\"\"" = "\"\"\"\na\n\\\"\"\"\"\n\"\"\"" ∧ Bare tripleQuote "a\n\\\"\"\"\"" := by
  constructor
  · decide +kernel
  · exact ⟨[bare 'a', bare '\n', ('"', true)], [], by decide⟩

end WireSchema.TypeSpec
