import WireSchema.Proofs.Lexing.Respelled
/-!
# The holes of template literals

The scan for the brace that closes a hole knows quotes and braces only. It finds
the brace behind the tokens of the hole where it passes over the strings, the
templates and the comments of the hole: they leave it as they find it. An escaped
quote, a template in a hole of a template, or a brace in a comment may not.
-/

namespace WireSchema.Source

open Text Filler

/-! ## Tokens of a hole -/

/-- How many braces are open behind a token, nothing if it closes one that is not open. -/
def Token.brace? (depth : Nat) (t : Token) : Option Nat :=
  if t.is "\x7b" then some (depth + 1)
  else if t.is "\x7d" then
    match depth with
    | 0 => none
    | depth + 1 => some depth
  else some depth

/-- How many braces are open behind tokens. -/
def bracesBehind (depth : Nat) (ts : List Token) : Option Nat := ts.foldlM Token.brace? depth

/-- From an offset on, the scan of a hole passes over the strings, templates and
comments of a text that has the tokens. -/
inductive PassedFrom (text : Text) : Nat → List Token → Prop where
  | nil {at_ : Nat} : PassedFrom text at_ []
  | cons {at_ : Nat} {t : Token} {ts : List Token} {fs : List Filler} :
    Fills t.isEnd fs → texts fs = slice text at_ t.start → (∀ f ∈ fs, PassedOver f.text) →
    (t.isString = true ∨ t.isTemplate = true → PassedOver t.raw) → PassedFrom text t.stop ts →
    PassedFrom text at_ (t :: ts)

/-- A text that is read by itself, with nested braces, and whose strings, templates
and comments the scan of a hole passes over. -/
structure HoleText (text : Text) (tokens : List Token) : Prop where
  read : tokenize text 0 text.length = .ok tokens
  nested : bracesBehind 0 tokens = some 0
  passed : PassedFrom text 0 tokens

section
variable {source text rest t raw : Text} {stop at_ more depth depth' : Nat} {c d : CodePoint} {gap : Gap}
  {tokens ts : List Token} {u : Token} {fs : List Filler}

theorem take_of_startsWith {pattern : Text} (h : startsWith t pattern = true) : t.take pattern.length = pattern := by
  obtain ⟨after, rfl⟩ := eq_append_of_startsWith h
  exact List.take_left

/-- A mark that the scan of a hole goes by is a brace. -/
theorem readPiece_mark (h : readPiece stop at_ gap c rest = .ok (.token .mark more)) :
    c :: rest.take more = Text.ofString "\x7b" ∨ c :: rest.take more = Text.ofString "\x7d" ∨
      ∀ d ∈ c :: rest.take more, d ∉ holeMarks := by
  obtain ⟨_, htoken⟩ := readPiece_eq_token.1 h
  cases htoken with
  | mark hbare _ _ hmark =>
    unfold markRest? at hmark
    split at hmark
    next hdots =>
      cases hmark
      have hraw : c :: rest.take 2 = Text.ofString "..." := take_of_startsWith hdots
      rw [hraw]
      exact .inr (.inr (by decide))
    split at hmark
    next harrow =>
      cases hmark
      have hraw : c :: rest.take 1 = Text.ofString "=>" := take_of_startsWith harrow
      rw [hraw]
      exact .inr (.inr (by decide))
    split at hmark
    next =>
      cases hmark
      rw [List.take_zero]
      by_cases hopen : c = '\x7b'
      · exact .inl (hopen ▸ rfl)
      by_cases hclose : c = '\x7d'
      · exact .inr (.inl (hclose ▸ rfl))
      refine .inr (.inr fun d hd hmem => ?_)
      rw [List.mem_singleton.1 hd] at hmem
      have hcases : c = '"' ∨ c = '\'' ∨ c = '`' ∨ c = '\x7b' ∨ c = '\x7d' := by simpa [holeMarks, Text.ofString] using hmem
      -- no mark begins with a quote
      tauto
    next => cases hmark

/-- A name has none of the marks that the scan of a hole goes by. -/
theorem not_holeMark_of_isName (h : Text.isName raw = true) : ∀ c ∈ raw, c ∉ holeMarks := by
  have hall : ∀ d ∈ holeMarks, d.continuesWord = false := by decide +kernel
  intro c hc hmark
  have hno := hall c hmark
  cases raw with
  | nil => cases hc
  | cons d body =>
    simp only [Text.isName, Bool.and_eq_true, List.all_eq_true] at h
    rcases List.mem_cons.1 hc with rfl | hc
    · rw [CodePoint.continuesWord, h.1.1.1, Bool.true_or] at hno
      cases hno
    · rw [h.2 c hc] at hno
      cases hno

theorem not_holeMark_of_isNumeral (h : Text.isNumeral raw = true) : ∀ c ∈ raw, c ∉ holeMarks := by
  have hall : ∀ d ∈ holeMarks, d.continuesNumber = false := by decide
  intro c hc hmark
  have hno := hall c hmark
  rw [continuesNumber_of_isNumeral h hc] at hno
  cases hno

/-- A token that is no brace leaves them as they are. -/
theorem Token.brace?_of_ne (hopen : u.raw ≠ "\x7b") (hclose : u.raw ≠ "\x7d") (depth : Nat) : u.brace? depth = some depth := by
  have hnot (w : Text) (hne : u.raw ≠ w) : u.is w = false := by rw [Token.is, beq_eq_false_iff_ne.2 hne, Bool.and_false]
  rw [Token.brace?.eq_def, hnot _ hopen, hnot _ hclose, if_neg Bool.false_ne_true, if_neg Bool.false_ne_true]

theorem Token.brace?_of_kind (hword : u.isWord = false) (hmark : u.isMark = false) (depth : Nat) :
    u.brace? depth = some depth := by
  have hnot (w : Text) : u.is w = false := by rw [Token.is, hword, hmark]; rfl
  rw [Token.brace?.eq_def, hnot, hnot, if_neg Bool.false_ne_true, if_neg Bool.false_ne_true]

/-- The scan of a hole counts the braces of a token. -/
theorem Token.ReadAt.run (hread : u.ReadAt source stop) (hlexed : u.Lexed) (hend : u.isEnd = false)
    (hpassed : u.isString = true ∨ u.isTemplate = true → PassedOver u.raw) (hbrace : u.brace? depth = some depth') :
    HoleScan.run { depth } u.raw = some { depth := depth' } := by
  -- a token that leaves the braces as they are, and that the scan passes over
  have hkeeps (hpass : PassedOver u.raw) (hsame : u.brace? depth = some depth) :
      HoleScan.run { depth } u.raw = some { depth := depth' } := by
    rw [hpass.run, ← Option.some.inj (hsame.symm.trans hbrace)]
  obtain ⟨before, c, rest, more, _, hraw, _, hpiece⟩ := hread
  have hbraces (hplain : ∀ d ∈ u.raw, d ∉ holeMarks) : u.brace? depth = some depth := by
    refine Token.brace?_of_ne (fun hopen => ?_) (fun hclose => ?_) depth
    · exact hplain '\x7b' (by rw [hopen]; decide) (by decide)
    · exact hplain '\x7d' (by rw [hclose]; decide) (by decide)
  cases hlexeme : u.lexeme with
  | word =>
    have hplain := not_holeMark_of_isName (hlexed.word hlexeme)
    exact hkeeps (passedOver_of_plain hplain) (hbraces hplain)
  | number =>
    have hplain := not_holeMark_of_isNumeral (hlexed.number hlexeme)
    exact hkeeps (passedOver_of_plain hplain) (hbraces hplain)
  | string value =>
    refine hkeeps (hpassed (.inl ?_)) (Token.brace?_of_kind ?_ ?_ depth)
    · rw [Token.isString, hlexeme]
    · rw [Token.isWord, hlexeme]; rfl
    · rw [Token.isMark, hlexeme]; rfl
  | template parts =>
    refine hkeeps (hpassed (.inr ?_)) (Token.brace?_of_kind ?_ ?_ depth)
    · rw [Token.isTemplate, hlexeme]
    · rw [Token.isWord, hlexeme]; rfl
    · rw [Token.isMark, hlexeme]; rfl
  | endOfInput =>
    rw [Token.isEnd, hlexeme] at hend
    cases hend
  | mark =>
    rw [hlexeme] at hpiece
    have hmark : u.isMark = true := by rw [Token.isMark, hlexeme]; rfl
    rcases readPiece_mark hpiece with hopen | hclose | hplain
    · rw [← hraw] at hopen
      have hyes : u.is "\x7b" = true := by rw [Token.is, hmark, hopen, Bool.or_true]; decide
      rw [Token.brace?.eq_def, hyes, if_pos rfl] at hbrace
      cases hbrace
      rw [hopen]
      rfl
    · rw [← hraw] at hclose
      have hnot : u.is "\x7b" = false := by
        have hne : (Text.ofString "\x7d" == Text.ofString "\x7b") = false := by decide
        rw [Token.is, hclose, hne, Bool.and_false]
      have hyes : u.is "\x7d" = true := by rw [Token.is, hmark, hclose, Bool.or_true]; decide
      rw [Token.brace?.eq_def, hnot, hyes, if_neg Bool.false_ne_true, if_pos rfl] at hbrace
      cases depth with
      | zero => cases hbrace
      | succ depth =>
        cases hbrace
        rw [hclose]
        rfl
    · rw [← hraw] at hplain
      exact hkeeps (passedOver_of_plain hplain) (hbraces hplain)

/-- The scan of a hole passes over a gap if it does over its comments. -/
theorem passedOver_texts (h : ∀ f ∈ fs, PassedOver f.text) : PassedOver (texts fs) := by
  induction fs with
  | nil => rfl
  | cons f fs ih =>
    rw [List.forall_mem_cons] at h
    have hfirst : HoleScan.run {} f.text = some {} := h.1
    rw [PassedOver, texts_cons, HoleScan.run_append, hfirst]
    exact ih h.2

/-- The scan of a hole counts the braces of the tokens. -/
theorem PassedFrom.run (h : PassedFrom text at_ tokens) (haccounts : Accounts text text.length at_ tokens)
    (hread : ∀ u ∈ tokens, u.isEnd = false → u.ReadAt text text.length) (hlexed : ∀ u ∈ tokens, u.Lexed)
    (hbraces : bracesBehind depth tokens = some depth') : HoleScan.run { depth } (text.drop at_) = some { depth := depth' } := by
  induction haccounts generalizing depth with
  | @last at_ t hend _ hstart =>
    cases h with
    | @cons _ _ _ fs _ htexts hpass =>
      rw [hstart, slice_length] at htexts
      have hkind : t.isWord = false ∧ t.isMark = false := by
        rw [Token.isWord, Token.isMark, beq_iff_eq.1 hend]
        exact ⟨rfl, rfl⟩
      rw [bracesBehind, List.foldlM_cons, Token.brace?_of_kind hkind.1 hkind.2] at hbraces
      cases hbraces
      rw [← htexts]
      exact (passedOver_texts hpass).run _
  | @token at_ t ts hend hat hlt _ _ hraw _ _ ih =>
    cases h with
    | @cons _ _ _ fs _ htexts hpass hliteral hrest =>
      rw [List.forall_mem_cons] at hread hlexed
      rw [bracesBehind, List.foldlM_cons] at hbraces
      obtain ⟨middle, hbrace, hbraces⟩ := Option.bind_eq_some_iff.1 hbraces
      have htoken := (hread.1 hend).run hlexed.1 hend hliteral hbrace
      have htext : text.drop at_ = texts fs ++ (t.raw ++ text.drop t.stop) := by
        rw [drop_eq_slice_append hat, drop_eq_slice_append (Nat.le_of_lt hlt), ← htexts, ← hraw]
      rw [htext, HoleScan.run_append, (passedOver_texts hpass).run, Option.bind_some, HoleScan.run_append, htoken,
        Option.bind_some]
      exact ih hrest hread.2 hlexed.2 hbraces

theorem HoleText.passedOver (h : HoleText text tokens) : PassedOver text := by
  have hread := h.read
  obtain ⟨first, others, _, rfl, hgoes⟩ := tokensFrom_goesOn (.inl rfl) rfl hread
  exact h.passed.run hgoes.accounts (tokensFrom_read rfl hread) (lexed_of_mem hread) h.nested

/-- The scan finds the brace behind the text of a hole. -/
theorem HoleText.holeEnd_eq (h : HoleText text tokens) (hroom : at_ + text.length < stop) (rest : Text) :
    holeEnd stop none 0 at_ (text ++ CodePoint.ofChar '\x7d' :: rest) = .ok (at_ + text.length) :=
  holeEnd_eq_ok.2 ⟨hroom, text.length, HoleScan.length_of_run h.passedOver rest, rfl⟩

/-! ## Template literals -/

/-- A chunk has no quote and opens no hole, but behind a backslash. -/
def cleanChunk : Text → Bool
  | [] => true
  | c :: rest =>
    if c = '\\' then
      match rest with
      | [] => false
      | _ :: after => cleanChunk after
    else c != '`' && !(c == '$' && rest.head? == some (CodePoint.ofChar '\x7b')) && cleanChunk rest

/-- The text of a template literal behind its first quote, which stands before the
offset, and the parts of the literal. -/
inductive TemplateText : Nat → Text → List TemplatePart → Prop where
  | close {b : Nat} {chunk value : Text} : cleanChunk chunk = true → unescape chunk = .ok value →
    TemplateText b (chunk ++ "`") [.chunk value]
  | hole {b : Nat} {chunk value inside rest : Text} {tokens : List Token} {parts : List TemplatePart} :
    cleanChunk chunk = true → unescape chunk = .ok value → HoleText inside tokens →
    TemplateText (b + chunk.length + 2 + inside.length + 1) rest parts →
    TemplateText b (chunk ++ ("$\x7b" ++ (inside ++ ("\x7d" ++ rest))))
      (.chunk value :: .hole (b + chunk.length + 2) (b + chunk.length + 2 + inside.length) :: parts)

/-- What is dealt with is gone over. -/
theorem templateParts_skip (opened stop at_ : Nat) (chunk w t : Text) :
    templateParts opened stop w.length at_ chunk (w ++ t) = templateParts opened stop 0 (at_ + w.length) chunk t := by
  induction w generalizing at_ with
  | nil => rfl
  | cons c w ih =>
    rw [List.length_cons, List.cons_append, templateParts, ih]
    congr 1
    omega

/-- A chunk is gathered up to its end. -/
theorem templateParts_chunk {opened : Nat} {chunk tail before : Text} (hclean : cleanChunk chunk = true)
    (hroom : at_ + chunk.length ≤ stop) (htail : tail.head? ≠ some (CodePoint.ofChar '\x7b')) :
    templateParts opened stop 0 at_ before (chunk ++ tail) =
      templateParts opened stop 0 (at_ + chunk.length) (chunk.reverse ++ before) tail := by
  -- by the length, since an escape takes two code points at once
  induction hlength : chunk.length using Nat.strongRecOn generalizing chunk at_ before with
  | ind length ih =>
  subst hlength
  cases chunk with
  | nil => rfl
  | cons c rest =>
    rw [List.length_cons] at hroom
    rw [cleanChunk.eq_def] at hclean
    simp only at hclean
    rw [List.cons_append, templateParts.eq_3, if_neg (by omega)]
    by_cases hslash : c = '\\'
    · rw [if_pos hslash] at hclean ⊢
      cases rest with
      | nil => cases hclean
      | cons d after =>
        rw [List.length_cons] at hroom
        have hnext : templateParts opened stop 0 (at_ + 1 + 1) (d :: c :: before) (after ++ tail) =
            templateParts opened stop 0 (at_ + 1 + 1 + after.length) (after.reverse ++ d :: c :: before) tail :=
          ih after.length (by simp only [List.length_cons]; omega) hclean (by omega) rfl
        have htake : (d :: after ++ tail).take 1 ++ c :: before = d :: c :: before := rfl
        rw [htake, List.cons_append, templateParts.eq_2, hnext]
        simp only [List.reverse_cons, List.append_assoc, List.singleton_append, List.length_cons]
        congr 1
        omega
    · rw [if_neg hslash] at hclean ⊢
      simp only [Bool.and_eq_true, bne_iff_ne, Bool.not_eq_true', Bool.and_eq_false_iff, beq_eq_false_iff_ne] at hclean
      obtain ⟨⟨hquote, hhole⟩, hclean⟩ := hclean
      have hnone : ¬(c = '$' ∧ (rest ++ tail).head? = some (CodePoint.ofChar '\x7b')) := by
        cases rest with
        | nil => exact fun h => htail h.2
        | cons d after => exact fun h => hhole.elim (· h.1) (· h.2)
      have hnext : templateParts opened stop 0 (at_ + 1) (c :: before) (rest ++ tail) =
          templateParts opened stop 0 (at_ + 1 + rest.length) (rest.reverse ++ c :: before) tail :=
        ih rest.length (by simp only [List.length_cons]; omega) hclean (by omega) rfl
      rw [if_neg hquote, if_neg hnone, hnext]
      simp only [List.reverse_cons, List.append_assoc, List.singleton_append, List.length_cons]
      congr 1
      omega

/-- The parts of a template literal are read. -/
theorem TemplateText.templateParts_eq {b opened : Nat} {body : Text} {parts : List TemplatePart}
    (h : TemplateText b body parts) (hroom : b + body.length ≤ stop) (after : Text) :
    templateParts opened stop 0 b [] (body ++ after) = .ok (parts, b + body.length - 1) := by
  induction h with
  | @close b chunk value hclean hvalue =>
    have hquote : Text.ofString "`" = [CodePoint.ofChar '`'] := rfl
    have hslash : CodePoint.ofChar '`' ≠ CodePoint.ofChar '\\' := by decide
    rw [hquote, List.length_append, List.length_singleton] at hroom ⊢
    have hbegin : (CodePoint.ofChar '`' :: after).head? ≠ some (CodePoint.ofChar '\x7b') := by
      intro h
      cases h
    rw [List.append_assoc, List.singleton_append, templateParts_chunk hclean (by omega) hbegin, templateParts.eq_3,
      if_neg (by omega), if_neg hslash, if_pos rfl, List.append_nil, List.reverse_reverse, hvalue]
    rfl
  | @hole b chunk value inside rest tokens parts hclean hvalue hhole _ ih =>
    have hopen : Text.ofString "$\x7b" = [CodePoint.ofChar '$', CodePoint.ofChar '\x7b'] := rfl
    have hclose : Text.ofString "\x7d" = [CodePoint.ofChar '\x7d'] := rfl
    have hslash : CodePoint.ofChar '$' ≠ CodePoint.ofChar '\\' := by decide
    have hquote : CodePoint.ofChar '$' ≠ CodePoint.ofChar '`' := by decide
    rw [hopen, hclose] at hroom ⊢
    simp only [List.length_append, List.length_cons, List.length_nil] at hroom
    -- the text from the hole on
    generalize hbehind : inside ++ (CodePoint.ofChar '\x7d' :: (rest ++ after)) = behind
    have htext : chunk ++ ([CodePoint.ofChar '$', CodePoint.ofChar '\x7b'] ++
      (inside ++ ([CodePoint.ofChar '\x7d'] ++ rest))) ++ after =
        chunk ++ (CodePoint.ofChar '$' :: CodePoint.ofChar '\x7b' :: behind) := by
      rw [← hbehind]
      simp
    have hbegin : (CodePoint.ofChar '$' :: CodePoint.ofChar '\x7b' :: behind).head? ≠ some (CodePoint.ofChar '\x7b') := by
      intro h
      cases h
    have hend : holeEnd stop none 0 (b + chunk.length + 2) behind = .ok (b + chunk.length + 2 + inside.length) := by
      rw [← hbehind]
      exact hhole.holeEnd_eq (by omega) _
    have hnext : templateParts opened stop (b + chunk.length + 2 + inside.length - (b + chunk.length)) (b + chunk.length + 1) []
        (CodePoint.ofChar '\x7b' :: behind) = .ok (parts, b + chunk.length + 2 + inside.length + 1 + rest.length - 1) := by
      have hw : b + chunk.length + 2 + inside.length - (b + chunk.length) =
          (CodePoint.ofChar '\x7b' :: (inside ++ [CodePoint.ofChar '\x7d'])).length := by simp; omega
      have hsplit : CodePoint.ofChar '\x7b' :: behind =
          CodePoint.ofChar '\x7b' :: (inside ++ [CodePoint.ofChar '\x7d']) ++ (rest ++ after) := by
        rw [← hbehind]
        simp
      have hat : b + chunk.length + 1 + (CodePoint.ofChar '\x7b' :: (inside ++ [CodePoint.ofChar '\x7d'])).length =
          b + chunk.length + 2 + inside.length + 1 := by simp; omega
      rw [hw, hsplit, templateParts_skip, hat]
      exact ih (by omega)
    rw [htext, templateParts_chunk hclean (by omega) hbegin, templateParts.eq_3, if_neg (by omega), if_neg hslash, if_neg hquote,
      if_pos ⟨rfl, rfl⟩, List.append_nil, List.reverse_reverse, hvalue]
    simp only [Except.mapError, bind, Except.bind, List.drop_one, List.tail_cons, hend, hnext]
    simp only [pure, Except.pure, List.length_append, List.length_cons, List.length_nil]
    congr 2
    omega

/-- The windows of the holes are their texts. -/
theorem TemplateText.windows {b : Nat} {body : Text} {parts : List TemplatePart} (h : TemplateText b body parts)
    (before after : Text) (hb : before.length = b) : ∀ first last, .hole first last ∈ parts →
      ∃ inside tokens, HoleText inside tokens ∧ slice (before ++ (body ++ after)) first last = inside ∧
        tokenize (before ++ (body ++ after)) first last = .ok (tokens.map (·.later first)) := by
  induction h generalizing before with
  | close => simp
  | @hole b chunk value inside rest tokens parts hclean hvalue hhole _ ih =>
    intro first last hmem
    rcases List.mem_cons.1 hmem with heq | hmem
    · cases heq
    rcases List.mem_cons.1 hmem with heq | hmem
    · obtain ⟨rfl, rfl⟩ := TemplatePart.hole.inj heq
      have hsplit : before ++ (chunk ++ ("$\x7b" ++ (inside ++ ("\x7d" ++ rest))) ++ after) =
          before ++ chunk ++ "$\x7b" ++ (inside ++ ("\x7d" ++ (rest ++ after))) := by simp only [List.append_assoc]
      have hlength : (before ++ chunk ++ "$\x7b").length = b + chunk.length + 2 := by
        rw [List.length_append, List.length_append, hb]
        rfl
      refine ⟨inside, tokens, hhole, ?_, ?_⟩
      · rw [hsplit, slice, ← hlength, List.drop_left, Nat.add_sub_cancel_left, List.take_left]
      · have hwithin := tokenize_within (.inl rfl) (before ++ chunk ++ "$\x7b") ("\x7d" ++ (rest ++ after))
          (parted_cons (by decide) _) (Nat.zero_le _) hhole.read
        rw [hsplit]
        rw [Nat.zero_add, hlength, Nat.add_comm inside.length] at hwithin
        exact hwithin
    · have hsplit : before ++ (chunk ++ ("$\x7b" ++ (inside ++ ("\x7d" ++ rest))) ++ after) =
          before ++ chunk ++ "$\x7b" ++ inside ++ "\x7d" ++ (rest ++ after) := by simp only [List.append_assoc]
      have hlength : (before ++ chunk ++ "$\x7b" ++ inside ++ "\x7d").length = b + chunk.length + 2 + inside.length + 1 := by
        simp only [List.length_append, hb]
        rfl
      rw [hsplit]
      exact ih _ hlength first last hmem

/-- A brace stands behind the text of a hole that begins at an offset. -/
def ClosesHole (source : Text) (at_ p : Nat) : Prop :=
  at_ ≤ p ∧ source[p]? = some (CodePoint.ofChar '\x7d') ∧ ∃ tokens, HoleText (slice source at_ p) tokens

theorem ClosesHole.holeEnd_eq {p : Nat} (h : ClosesHole source at_ p) (hlt : p < stop) :
    holeEnd stop none 0 at_ (source.drop at_) = .ok p := by
  obtain ⟨hat, hbrace, tokens, hhole⟩ := h
  obtain ⟨hp, hget⟩ := List.getElem?_eq_some_iff.1 hbrace
  have hlength : (slice source at_ p).length = p - at_ := length_slice (Nat.le_of_lt hp)
  have hroom : at_ + (slice source at_ p).length < stop := by omega
  have hend := hhole.holeEnd_eq hroom (source.drop (p + 1))
  rw [hlength, Nat.add_sub_cancel' hat, ← hget, ← List.drop_eq_getElem_cons hp, ← drop_eq_slice_append hat] at hend
  exact hend

theorem readPiece_template {parts : List TemplatePart} {last : Nat}
    (h : templateParts at_ stop 0 (at_ + 1) [] rest = .ok (parts, last)) :
    readPiece stop at_ gap (CodePoint.ofChar '`') rest = .ok (.token (.template parts) (last - at_)) := by
  have hends : EndsGap (CodePoint.ofChar '`') rest :=
    ⟨by decide, startsWith_cons (by decide) rest, startsWith_cons (by decide) rest⟩
  exact readPiece_eq_token.2 ⟨hends, .template rfl h⟩

/-- A brace closes a hole if the text before it is read by itself with nested braces and the
scan passes over the strings, templates and comments of that text. It is the first of all such
braces; one that is not such, as the first in `${ a // {}` with a line break behind it, may come
before. So a template literal with such holes is one token, wherever it stands, and the window of
each hole has the tokens of its text. -/
theorem template_holes {source before body after : Text} {at_ p stop : Nat} {parts : List TemplatePart} {gap : Gap} :
    (ClosesHole source at_ p → p < stop →
      holeEnd stop none 0 at_ (source.drop at_) = .ok p ∧ ∀ q, ClosesHole source at_ q → p ≤ q) ∧
    (TemplateText (before.length + 1) body parts → before.length + ("`" ++ body).length ≤ stop →
      tokensFrom stop before.length gap ("`" ++ body ++ after) =
        (tokensFrom stop (before.length + ("`" ++ body).length) {} after).map
          (.found (.template parts) ("`" ++ body) before.length gap :: ·) ∧
      ∀ first last, .hole first last ∈ parts → ∃ inside tokens, HoleText inside tokens ∧
        slice (before ++ ("`" ++ body ++ after)) first last = inside ∧
        tokenize (before ++ ("`" ++ body ++ after)) first last = .ok (tokens.map (·.later first))) := by
  refine ⟨fun h hlt => ⟨h.holeEnd_eq hlt, fun q hq => ?_⟩, fun h hroom => ⟨?_, ?_⟩⟩
  · refine Nat.le_of_not_lt fun hless => ?_
    have hsame := (h.holeEnd_eq hlt).symm.trans (hq.holeEnd_eq (Nat.lt_trans hless hlt))
    exact absurd (Except.ok.inj hsame) (Nat.ne_of_gt hless)
  · have hquote : Text.ofString "`" = [CodePoint.ofChar '`'] := rfl
    rw [hquote, List.singleton_append, List.length_cons] at hroom ⊢
    have hparts : templateParts before.length stop 0 (before.length + 1) [] (body ++ after) =
        .ok (parts, before.length + 1 + body.length - 1) := h.templateParts_eq (by omega) after
    have hmore : before.length + 1 + body.length - 1 - before.length = body.length := by omega
    have hnext : before.length + body.length + 1 = before.length + (body.length + 1) := Nat.add_assoc _ _ _
    rw [List.cons_append, tokensFrom, if_neg (by omega), readPiece_template hparts, hmore]
    simp only [List.take_left, List.drop_left, hnext]
    cases tokensFrom stop (before.length + (body.length + 1)) {} after <;> rfl
  · have hquote : before ++ ("`" ++ body ++ after) = before ++ "`" ++ (body ++ after) := by simp only [List.append_assoc]
    rw [hquote]
    exact h.windows _ after (by rw [List.length_append]; rfl)

/-- A hole with a brace in a string. -/
theorem template_holes_quoted_brace :
    let source : Text := "`a$\x7b \"\x7d\" | b \x7d`"
    (holeEnd 15 none 0 4 (source.drop 4) = .ok 13 ∧ ∀ q, ClosesHole source 4 q → 13 ≤ q) ∧
    tokensFrom 15 0 {} source =
      (tokensFrom 15 15 {} []).map (.found (.template [.chunk "a", .hole 4 13, .chunk []]) source 0 {} :: ·) ∧
    ∀ first last, .hole first last ∈ [TemplatePart.chunk "a", .hole 4 13, .chunk []] →
      ∃ inside tokens, HoleText inside tokens ∧ slice source first last = inside ∧
        tokenize source first last = .ok (tokens.map (·.later first)) := by
  have hspace : Fills false [.blank ' '] := ⟨show CodePoint.isBlank ' ' = true by decide,
    fun hline => absurd hline (by decide), trivial⟩
  have hlast : Fills true [.blank ' '] := ⟨show CodePoint.isBlank ' ' = true by decide,
    fun hline => absurd hline (by decide), trivial⟩
  have hpass : ∀ f ∈ [Filler.blank ' '], PassedOver f.text := by decide
  have hstring : PassedOver "\"\x7d\"" :=
    passedOver_of_quoted (.inl rfl) (show CodePoint.ofChar '"' ∉ [CodePoint.ofChar '\x7d'] by decide)
  have hhole : HoleText " \"\x7d\" | b "
      [{ lexeme := .string "\x7d", raw := "\"\x7d\"", start := 1, stop := 4, spaceBefore := true, lineBreak := false,
         docs := [] },
       { lexeme := .mark, raw := "|", start := 5, stop := 6, spaceBefore := true, lineBreak := false, docs := [] },
       { lexeme := .word, raw := "b", start := 7, stop := 8, spaceBefore := true, lineBreak := false, docs := [] },
       { lexeme := .endOfInput, raw := [], start := 9, stop := 9, spaceBefore := true, lineBreak := true, docs := [] }] :=
    { read := by cbv
      nested := by decide
      passed := .cons hspace rfl hpass (fun _ => hstring) (.cons hspace rfl hpass (by decide)
        (.cons hspace rfl hpass (by decide) (.cons hlast rfl hpass (by decide) .nil))) }
  have hclean : cleanChunk "a" = true := by decide
  have hrest : TemplateText 14 "`" [.chunk []] := .close (show cleanChunk [] = true from rfl) rfl
  have htemplate : TemplateText 1 "a$\x7b \"\x7d\" | b \x7d`" [.chunk "a", .hole 4 13, .chunk []] :=
    .hole hclean rfl hhole hrest
  have hcloses : ClosesHole "`a$\x7b \"\x7d\" | b \x7d`" 4 13 := ⟨by decide, by decide, _, hhole⟩
  exact ⟨(@template_holes _ [] [] [] 4 13 15 [] {}).1 hcloses (by decide),
    (@template_holes [] [] _ [] 0 0 15 _ {}).2 htemplate (by decide)⟩

/-- A hole with an escaped quote in a string: its text is one token, but the scan takes
the escaped quote for the end of the string, and the last one for the start of another. -/
theorem escaped_quote_in_hole :
    let source : Text := "`$\x7b\"\\\"\"\x7d`"
    source[7]? = some (CodePoint.ofChar '\x7d') ∧
    tokenize (slice source 3 7) 0 4 = .ok
      [{ lexeme := .string "\"", raw := "\"\\\"\"", start := 0, stop := 4, spaceBefore := false, lineBreak := false,
         docs := [] }, .endAt 4] ∧
    tokenize source 0 source.length = .error (.rejected .unterminatedHole 6) :=
  ⟨by decide, by cbv, by cbv⟩

end

end WireSchema.Source
