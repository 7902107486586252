import WireSchema.Proofs.Lexing.Holes
/-!
# Tokens apart from where they stand

The lexer goes by the text of a token and, where the text does not tell its own
end, by one code point behind it. So a token is read as the same one in any
other text, before what cannot go on with it: only the offsets of its holes are
counted from where it stands.
-/

namespace WireSchema.Source

open Text

/-- The part so many code points later. -/
def TemplatePart.later (k : Nat) : TemplatePart → TemplatePart
  | chunk text => chunk text
  | hole start stop => hole (start + k) (stop + k)

/-- The lexeme so many code points later. -/
def Lexeme.later (k : Nat) : Lexeme → Lexeme
  | template parts => template (parts.map (·.later k))
  | lexeme => lexeme

/-- May go on with a number or with a mark of several code points. -/
def runsOn (c : CodePoint) : Bool := c.continuesNumber || (Text.ofString "/*=>").contains c

section
variable {t w r r' chunk pattern : Text} {stop at_ room room' n opened skip last more : Nat} {c mark : CodePoint}
  {parts : List TemplatePart} {gap : Gap} {lexeme : Lexeme}

theorem not_continuesNumber (h : Stays runsOn r) : Stays CodePoint.continuesNumber r :=
  h.mono fun c hc => by rw [runsOn, hc, Bool.true_or]

theorem startsWith_within (hr : Stays runsOn r) (hpattern : ∀ d ∈ pattern, runsOn d = true) (t : Text) :
    startsWith (t ++ r) pattern = startsWith t pattern := by
  induction pattern generalizing t with
  | nil => cases t <;> cases r <;> rfl
  | cons d pattern ih =>
    have hd := hpattern d List.mem_cons_self
    cases t with
    | nil =>
      cases r with
      | nil => rfl
      | cons c r =>
        have hne : d ≠ c := fun heq => Bool.eq_false_iff.1 (hr c rfl) (heq ▸ hd)
        simp [startsWith, List.isPrefixOf, hne]
    | cons c t =>
      have := ih (fun d hd => hpattern d (List.mem_cons_of_mem _ hd)) t
      simp only [startsWith, List.cons_append, List.isPrefixOf] at this ⊢
      rw [this]

theorem startsWith_of_length_le (hle : pattern.length ≤ t.length) (r : Text) :
    startsWith (t ++ r) pattern = startsWith t pattern := by
  induction pattern generalizing t with
  | nil => cases t <;> cases r <;> rfl
  | cons d pattern ih =>
    cases t with
    | nil => cases hle
    | cons c t =>
      have := ih (Nat.le_of_succ_le_succ hle)
      simp only [startsWith, List.cons_append, List.isPrefixOf] at this ⊢
      rw [this]

/-! ## Literals -/

@[simp] theorem TemplatePart.later_later (j k : Nat) (part : TemplatePart) : (part.later j).later k = part.later (j + k) := by
  cases part with
  | chunk text => rfl
  | hole start stop => simp only [TemplatePart.later, Nat.add_assoc]

@[simp] theorem Lexeme.later_later (j k : Nat) (lexeme : Lexeme) : (lexeme.later j).later k = lexeme.later (j + k) := by
  cases lexeme with
  | template parts => simp only [Lexeme.later, List.map_map, Function.comp_def, TemplatePart.later_later]
  | _ => rfl

/-- The quote that closes a string is found in whatever text and room the string stands. -/
theorem closingQuote_apart (hlt : n < w.length) (hroom : n < room')
    (h : closingQuote mark room (w ++ r) = .ok (some n)) : closingQuote mark room' (w ++ r') = .ok (some n) := by
  induction hlength : w.length using Nat.strongRecOn generalizing w room room' n with
  | ind length ih =>
  subst hlength
  cases w with
  | nil => cases hlt
  | cons c w =>
    obtain ⟨room', rfl⟩ : ∃ m, room' = m + 1 := ⟨room' - 1, by omega⟩
    rw [List.length_cons] at hlt
    rw [List.cons_append, closingQuote.eq_def] at h
    rw [List.cons_append, closingQuote.eq_def]
    cases room with
    | zero => cases h
    | succ room =>
    simp only at h ⊢
    by_cases hslash : c = '\\'
    · rw [if_pos hslash] at h ⊢
      cases w with
      | nil =>
        -- the code point behind the backslash would be the quote
        cases r with
        | nil =>
          simp only [List.append_nil] at h
          split at h <;> cases h
        | cons d r =>
          obtain ⟨found, _, h⟩ := Except.bind_eq_ok.1 h
          obtain ⟨m, rfl, rfl⟩ := Option.map_eq_some_iff.1 (Except.ok.inj h)
          rw [List.length_nil] at hlt
          omega
      | cons d w =>
        simp only [List.cons_append] at h ⊢
        obtain ⟨found, hfound, h⟩ := Except.bind_eq_ok.1 h
        obtain ⟨m, rfl, rfl⟩ := Option.map_eq_some_iff.1 (Except.ok.inj h)
        rw [List.length_cons] at hlt
        have hnext : closingQuote mark (room' - 1) (w ++ r') = .ok (some m) :=
          ih w.length (by simp only [List.length_cons]; omega) (by omega) (by omega) hfound rfl
        rw [hnext]
        rfl
    rw [if_neg hslash] at h ⊢
    by_cases hmark : c = mark
    · rw [if_pos hmark] at h ⊢
      exact h
    rw [if_neg hmark] at h ⊢
    by_cases hfeed : c = '\n'
    · rw [if_pos hfeed] at h
      cases h
    · rw [if_neg hfeed] at h ⊢
      obtain ⟨found, hfound, h⟩ := Except.bind_eq_ok.1 h
      obtain ⟨m, rfl, rfl⟩ := Option.map_eq_some_iff.1 (Except.ok.inj h)
      have hnext : closingQuote mark room' (w ++ r') = .ok (some m) :=
        ih w.length (Nat.lt_succ_self _) (by omega) (by omega) hfound rfl
      rw [hnext]
      rfl

theorem map_later_later (j k : Nat) (own : List TemplatePart) :
    (own.map (TemplatePart.later j)).map (TemplatePart.later k) = own.map (TemplatePart.later (j + k)) := by
  rw [List.map_map]
  exact List.map_congr_left fun part _ => TemplatePart.later_later j k part

/-- The parts of a template are the same wherever it stands, its holes apart,
which stand where it does. -/
theorem PartsFrom.apart (h : PartsFrom stop skip at_ chunk (w ++ r) parts last) (hlt : last < at_ + w.length) :
    ∃ (own : List TemplatePart) (n : Nat), parts = own.map (TemplatePart.later at_) ∧ last = at_ + n ∧
      ∀ {stop' b r'}, b + w.length ≤ stop' →
        PartsFrom stop' skip b chunk (w ++ r') (own.map (TemplatePart.later b)) (b + n) := by
  -- along the text that the template has for itself: the run ends in it
  induction w generalizing skip at_ chunk parts last with
  | nil =>
    have := h.last_le
    rw [List.length_nil] at hlt
    omega
  | cons c w ih =>
    rw [List.length_cons] at hlt ⊢
    -- what the rest of the text gives, one code point later
    have hlater {skip' : Nat} {chunk' : Text} {parts' : List TemplatePart}
        (h : PartsFrom stop skip' (at_ + 1) chunk' (w ++ r) parts' last) :
        ∃ (own : List TemplatePart) (n : Nat), parts' = own.map (TemplatePart.later at_) ∧ last = at_ + n ∧
          ∀ {stop' b r'}, b + (w.length + 1) ≤ stop' →
            PartsFrom stop' skip' (b + 1) chunk' (w ++ r') (own.map (TemplatePart.later b)) (b + n) := by
      obtain ⟨own, n, rfl, rfl, hbehind⟩ := ih h (by omega)
      refine ⟨own.map (TemplatePart.later 1), n + 1, ?_, by omega, fun {stop' b r'} hb => ?_⟩
      · rw [map_later_later, Nat.add_comm]
      · rw [map_later_later, Nat.add_comm 1 b, Nat.add_comm n 1, ← Nat.add_assoc]
        exact hbehind (by omega)
    -- the run goes on in the text, which has a code point behind this one
    have hmore {skip' : Nat} {chunk' : Text} {parts' : List TemplatePart}
        (h : PartsFrom stop skip' (at_ + 1) chunk' (w ++ r) parts' last) : ∃ d w', w = d :: w' := by
      cases w with
      | nil =>
        have := h.last_le
        rw [List.length_nil] at hlt
        omega
      | cons d w => exact ⟨d, w, rfl⟩
    rw [List.cons_append] at h
    generalize hwhole : c :: (w ++ r) = whole at h
    cases h with
    | skip hbehind =>
      cases hwhole
      obtain ⟨own, n, hparts, hlast, hagain⟩ := hlater hbehind
      exact ⟨own, n, hparts, hlast, fun hb => .skip (hagain hb)⟩
    | escape _ hbehind =>
      cases hwhole
      obtain ⟨d, w, rfl⟩ := hmore hbehind
      obtain ⟨own, n, hparts, hlast, hagain⟩ := hlater hbehind
      exact ⟨own, n, hparts, hlast, fun hb => .escape (by omega) (hagain hb)⟩
    | close _ htext =>
      cases hwhole
      exact ⟨[.chunk _], 0, rfl, rfl, fun hb => .close (by omega) htext⟩
    | @plain _ _ _ _ _ _ _ hslash hquote hbare hbehind =>
      cases hwhole
      obtain ⟨d, w, rfl⟩ := hmore hbehind
      obtain ⟨own, n, hparts, hlast, hagain⟩ := hlater hbehind
      exact ⟨own, n, hparts, hlast, fun hb => .plain (by omega) hslash hquote hbare (hagain hb)⟩
    | @hole _ _ close _ inside text _ _ htext hclose hbehind =>
      obtain ⟨rfl, hrest⟩ := List.cons.inj hwhole
      rw [← hrest] at hbehind
      have hlast := hbehind.last_le
      obtain ⟨d, w, rfl⟩ := hmore hbehind
      obtain ⟨rfl, rfl⟩ := List.cons.inj hrest
      obtain ⟨own, n, rfl, rfl, hagain⟩ := hlater hbehind
      obtain ⟨_, m, hm, rfl⟩ := holeEnd_eq_ok.1 hclose
      rw [List.length_cons] at hlt
      -- the hole ends before the template does
      have hinside : m < w.length := by omega
      refine ⟨.chunk text :: .hole 2 (2 + m) :: own, n, ?_, rfl, fun {stop' b r'} hb => ?_⟩
      · simp only [List.map_cons, TemplatePart.later, Nat.add_comm, Nat.add_left_comm]
      rw [List.length_cons] at hb
      have hend : holeEnd stop' none 0 (b + 2) (w ++ r') = .ok (b + 2 + m) :=
        holeEnd_eq_ok.2 ⟨by omega, m, HoleScan.length_append hm hinside r', rfl⟩
      have hnext := @hagain stop' b r' hb
      rw [show at_ + 2 + m - at_ = b + 2 + m - b by omega] at hnext
      rw [List.map_cons, List.map_cons, TemplatePart.later, TemplatePart.later, Nat.add_comm 2 b, Nat.add_right_comm 2 m b,
        Nat.add_comm 2 b]
      exact .hole (by omega) htext hend hnext

/-! ## Pieces -/

theorem startsWith_apart (hr : Stays runsOn r') (hpattern : ∀ d ∈ pattern, runsOn d = true)
    (h : ¬ startsWith (t ++ r) pattern = true) : ¬ startsWith (t ++ r') pattern = true := by
  intro hstart
  rw [startsWith_within hr hpattern] at hstart
  obtain ⟨rest, rfl⟩ := eq_append_of_startsWith hstart
  rw [List.append_assoc] at h
  exact h (startsWith_append pattern _)

theorem runLength_apart {p : CodePoint → Bool} (h : runLength p (w ++ r) = more) (hle : more ≤ w.length)
    (hr : more = w.length → Stays p r') : runLength p (w ++ r') = more := by
  have hcut := runLength_take (p := p) (t := w ++ r) (m := w.length) (h ▸ hle)
  rw [List.take_left, h] at hcut
  by_cases hwhole : more = w.length
  · rw [runLength_append (hr hwhole), hcut]
  · rw [runLength] at hcut ⊢
    rw [List.takeWhile_append, if_neg (hcut ▸ hwhole), hcut]

theorem numberLength_apart (h : numberLength (t ++ r) = more) (hle : more ≤ t.length) (hr : Stays runsOn r') :
    numberLength (t ++ r') = more := by
  have hcut := numberLength_take (t := t ++ r) (m := t.length) (h ▸ hle)
  rw [List.take_left, h] at hcut
  rw [numberLength_append (not_continuesNumber hr), hcut]

theorem EndsGap.apart (h : EndsGap c (w ++ r)) (hr : Stays runsOn r') : EndsGap c (w ++ r') where
  blank := h.blank
  block := Bool.eq_false_iff.2 (startsWith_apart (t := c :: w) hr (by decide) (Bool.eq_false_iff.1 h.block))
  line := Bool.eq_false_iff.2 (startsWith_apart (t := c :: w) hr (by decide) (Bool.eq_false_iff.1 h.line))

theorem beginsNumber_apart (h : beginsNumber c (w ++ r) = false) (hr : Stays runsOn r') : beginsNumber c (w ++ r') = false := by
  cases w with
  | nil =>
    have hstays : Stays CodePoint.isDigit r' := hr.mono fun d hd => by simp [runsOn, CodePoint.continuesNumber, hd]
    have hdigit : (r'.head?.map CodePoint.isDigit).getD false = false := by
      cases r' with
      | nil => rfl
      | cons d r' => exact hstays d rfl
    rw [beginsNumber, Bool.or_eq_false_iff] at h
    rw [beginsNumber, List.nil_append, h.1, hdigit, Bool.and_false, Bool.false_or]
  | cons d w => exact h

/-- A number that is wholly in the text begins there whatever comes behind. -/
theorem beginsNumber_of_length (hblank : c.isBlank = false) (h : beginsNumber c (w ++ r) = true)
    (hlength : numberLength (c :: (w ++ r)) = more + 1) (hmore : more ≤ w.length) (r' : Text) :
    beginsNumber c (w ++ r') = true := by
  cases w with
  | nil =>
    -- a dot alone is no number
    have hcut := isNumeral_take hblank h hlength
    rw [Nat.le_zero.1 hmore, List.take_zero] at hcut
    simp only [Text.isNumeral, Bool.and_eq_true] at hcut
    have hdigit : c.isDigit = true := by simpa using hcut.1.2
    rw [beginsNumber, hdigit, Bool.true_or]
  | cons d w => exact h

theorem markRest?_apart (h : markRest? c (w ++ r) = some more) (hmore : more ≤ w.length) (hr : Stays runsOn r') :
    markRest? c (w ++ r') = some more := by
  have hsame (pattern : Text) (hle : pattern.length ≤ (c :: w).length) :
      startsWith (c :: (w ++ r')) pattern = startsWith (c :: (w ++ r)) pattern :=
    (startsWith_of_length_le hle r').trans (startsWith_of_length_le hle r).symm
  have hnone {pattern : Text} (hpattern : ∀ d ∈ pattern, runsOn d = true)
      (h : ¬ startsWith (c :: (w ++ r)) pattern = true) : ¬ startsWith (c :: (w ++ r')) pattern = true :=
    startsWith_apart (t := c :: w) hr hpattern h
  unfold markRest? at h ⊢
  by_cases hdots : startsWith (c :: (w ++ r)) "..." = true
  · rw [if_pos hdots] at h
    cases h
    rw [if_pos ((hsame "..." (Nat.succ_le_succ hmore)).trans hdots)]
  rw [if_neg hdots] at h
  rw [if_neg (hnone (by decide) hdots)]
  by_cases harrow : startsWith (c :: (w ++ r)) "=>" = true
  · rw [if_pos harrow] at h
    cases h
    rw [if_pos ((hsame "=>" (Nat.succ_le_succ hmore)).trans harrow)]
  rw [if_neg harrow] at h
  rw [if_neg (hnone (by decide) harrow)]
  exact h

/-- A token is read wherever its text stands before what cannot go on with it. -/
theorem readPiece_apart (hmore : more ≤ w.length) (h : readPiece stop at_ gap c (w ++ r) = .ok (.token lexeme more)) :
    ∃ own, lexeme = Lexeme.later at_ own ∧
      ∀ {stop' b before r'}, b + w.length < stop' → Stays runsOn r' →
        (lexeme = .word → more = w.length → Stays CodePoint.continuesWord r') →
        readPiece stop' b before c (w ++ r') = .ok (.token (own.later b) more) := by
  obtain ⟨hends, htoken⟩ := readPiece_eq_token.1 h
  suffices hbegins : ∃ own, lexeme = Lexeme.later at_ own ∧
      ∀ {stop' b r'}, b + w.length < stop' → Stays runsOn r' →
        (lexeme = .word → more = w.length → Stays CodePoint.continuesWord r') →
        BeginsToken stop' b c (w ++ r') (own.later b) more by
    obtain ⟨own, hown, hagain⟩ := hbegins
    exact ⟨own, hown, fun hb hr' hword => (hagain hb hr' hword).readPiece_eq (hends.apart hr')⟩
  cases htoken with
  | @string n value hquote hclose hvalue =>
    have htake (r : Text) : (w ++ r).take n = w.take n := List.take_append_of_le_length (by omega)
    refine ⟨.string value, rfl, fun hb _ _ => .string hquote (closingQuote_apart (by omega) (by omega) hclose) ?_⟩
    rw [htake] at hvalue ⊢
    exact hvalue
  | @template parts last hquote hparts =>
    rw [templateParts_eq_ok] at hparts
    have hlast := hparts.last_le
    obtain ⟨own, n, rfl, rfl, hagain⟩ := hparts.apart (by omega)
    -- the literal begins one code point before its parts
    refine ⟨.template (own.map (TemplatePart.later 1)), ?_, fun {stop' b r'} hb _ _ => ?_⟩
    · rw [Lexeme.later, map_later_later, Nat.add_comm]
    rw [Lexeme.later, map_later_later, Nat.add_comm 1 b, show at_ + 1 + n - at_ = b + 1 + n - b by omega]
    exact .template hquote (templateParts_eq_ok.2 (hagain (by omega)))
  | number hbare hnumeral hlength =>
    refine ⟨.number, rfl, fun _ hr' _ =>
      .number hbare (beginsNumber_of_length hends.blank hnumeral hlength hmore _) ?_⟩
    exact numberLength_apart (t := c :: w) hlength (Nat.succ_le_succ hmore) hr'
  | word hbare hnumeral hword =>
    refine ⟨.word, rfl, fun {stop' b r'} _ hr' hstays => ?_⟩
    rw [← runLength_apart rfl hmore (hstays rfl)]
    exact .word hbare (beginsNumber_apart hnumeral hr') hword
  | mark hbare hnumeral hword hmark =>
    exact ⟨.mark, rfl, fun _ hr' _ =>
      .mark hbare (beginsNumber_apart hnumeral hr') hword (markRest?_apart hmark hmore hr')⟩

end

end WireSchema.Source
