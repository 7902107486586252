import WireSchema.Proofs.Grammar.Ahead
import WireSchema.Proofs.Grammar.Printed
import WireSchema.Proofs.Grammar.Reading
import WireSchema.Proofs.Grammar.Spacing
import WireSchema.Proofs.Grammar.Suffix
/-!
# Types put together from texts

A text that is read as a type is read as the same type with array brackets
behind it, in parentheses and between bars, if nothing that comes behind gets
into it.
-/

namespace WireSchema

open Source Source.Cursor Source.Parser

/-- A text that is read as one type up to its last token; it is the text the type
is kept with. -/
structure TypeText where
  text : Text
  tokens : List Token
  last : Token
  type : TypeExpr
  lexed : tokenize text 0 text.length = .ok (tokens ++ [last])
  tight : last.spaceBefore = false
  nested : Nested tokens
  read : (Rules.of text).type ⟨tokens, last⟩ = .ok (type, ⟨[], last⟩)
  whole : type.text = text

/-- What is read of the tokens of a text is the type that is written. -/
theorem TypeExpr.parse_of_tokens {source : Text} {ts : List Token} {last : Token} {e : TypeExpr}
    (htokens : tokenize source 0 source.length = .ok (ts ++ [last])) (hlast : last.isEnd = true)
    (h : (Rules.of source).type (Cursor.before ⟨[], last⟩ ts) = .ok (e, ⟨[], last⟩)) : parse source = .ok e := by
  have honly : TypeGrammar.only (Rules.of source).type .trailingAfterType (Cursor.ofTokens (ts ++ [last])) =
      .ok (e, ⟨[], last⟩) := by
    refine bind_ok.2 ⟨e, _, (congrArg _ (ofTokens_before ts [] last)).trans h, bind_ok.2 ⟨last, _, rfl, ?_⟩⟩
    rw [if_pos hlast]
    rfl
  exact Except.bind_eq_ok.2 ⟨_, htokens, Except.bind_eq_ok.2 ⟨_, honly, rfl⟩⟩

namespace TypeText

variable {t : TypeText} {u opener closer : Token} {o : Place} {source before behind : Text} {m : Nat}

def cursor (t : TypeText) : Cursor := ⟨t.tokens, t.last⟩

/-! ## A type read alone -/

theorem last_isEnd (t : TypeText) : t.last.isEnd = true := by
  obtain ⟨ts, last, heq, _, hlast⟩ := tokenize_lexed t.lexed
  obtain ⟨_, hsame⟩ := List.append_inj' heq rfl
  cases hsame
  exact hlast

theorem token_lexed (t : TypeText) (hu : u ∈ t.tokens) : u.Lexed := by
  obtain ⟨ts, last, heq, hts, _⟩ := tokenize_lexed t.lexed
  obtain ⟨rfl, _⟩ := List.append_inj' heq rfl
  exact hts u hu

theorem token_placed (t : TypeText) (hu : u ∈ t.tokens) : u.Placed t.text := by
  obtain ⟨ts, last, heq, hts, _⟩ := tokensFrom_placed (Nat.le_refl _) rfl t.lexed
  obtain ⟨rfl, _⟩ := List.append_inj' heq rfl
  exact hts u hu

theorem closed (t : TypeText) : Closed t.tokens := t.nested.closed fun _ => t.token_lexed

/-- The tokens are balanced wherever they stand. -/
theorem balanced (t : TypeText) (k : Nat) : TypeGrammar.Balanced (t.tokens.map (·.later k)) := by
  have hturn (awaited : List Text) (u : Token) : (u.later k).turn? awaited = u.turn? awaited := by
    simp only [Token.turn?, Token.isOneOf_later, Token.raw_later]
    rfl
  have hnested : Nested (t.tokens.map (·.later k)) := by
    rw [Nested, awaitedBehind, List.foldlM_map]
    simp only [hturn]
    exact t.nested
  intro depth rest hdepth
  have hindex := closerIndex_nested hnested hdepth rest
  rwa [List.count_nil, Nat.add_zero] at hindex

theorem seam {near : Bool} (t : TypeText) (h : Parts near t.tokens o.next.peek) : Seam t.text o near t.cursor :=
  ⟨fun _ => t.token_placed, t.last_isEnd, h, .inr t.closed⟩

/-! ## Array brackets -/

/-- The tokens of a text stand before those of what comes behind it. -/
theorem tokensFrom_ending (t : TypeText) {ks : List Chunk} (hks : Chunk.Readable ks []) (hparted : Parted (Chunk.texts ks))
    {stop k : Nat} (hstop : stop = (t.text ++ Chunk.texts ks).length + k) : ∃ last : Token, last.isEnd = true ∧
      tokensFrom stop k {} (t.text ++ Chunk.texts ks) =
        .ok (t.tokens.map (·.later k) ++ Chunk.tokens (t.text.length + k) ks ++ [last]) := by
  rw [List.length_append] at hstop
  have hend := hks.tokensFrom_eq (show t.text.length + k + (Chunk.texts ks).length ≤ stop by omega)
  rw [List.append_nil, tokensFrom_end (show stop ≤ t.text.length + k + (Chunk.texts ks).length by omega)] at hend
  rw [tokenize_behind t.lexed t.tight hparted (by omega) hend]
  exact ⟨_, rfl, congrArg Except.ok (List.append_assoc _ _ _).symm⟩

/-- An opening bracket and its closer, without gaps. -/
def brackets : List Chunk := [⟨[], "[", .mark⟩, ⟨[], "]", .mark⟩]

theorem readable_brackets (rest : Text) : Chunk.Readable brackets rest :=
  ⟨nofun, Chunk.fits_mark (by decide) _ _, nofun, Chunk.fits_mark (by decide) _ _, trivial⟩

/-- A type that may stand before array brackets: it is tight and does not end with
an operator word, which would take the brackets as its operand. -/
structure IsElement (t : TypeText) : Prop where
  tight : t.type.isTight = true
  ending : ∀ u ∈ t.tokens.getLast?, TypeGrammar.operatorWords.any u.is = false

/-- The text of a type with array brackets behind it is the array of the type, if
the type may stand before them. -/
theorem parse_array (t : TypeText) (h : t.IsElement) :
    ∃ text, TypeExpr.parse (t.text ++ "[]") = .ok (.array t.type text) := by
  have hbehind : Parted ("[]" : Text) := parted_cons (by decide) _
  obtain ⟨last, hend, htokens⟩ := t.tokensFrom_ending (readable_brackets []) hbehind (Nat.add_zero _).symm
  let o : Place := ⟨0, Cursor.before ⟨[], last⟩ (Chunk.tokens t.text.length brackets)⟩
  have hs : TypeGrammar.Suffix o ⟨[], last⟩ fun e f => ∃ text, f = .array e text :=
    TypeGrammar.suffix_array rfl ⟨rfl, rfl⟩ rfl ⟨rfl, rfl⟩ (Token.not_is_of_isEnd hend _)
  have hopen : o.next.peek.Marks "[" := ⟨rfl, rfl⟩
  have hparts : Parts true t.tokens o.next.peek := by
    refine parts_of_mark hopen (by decide) (.inl rfl) (.inl rfl) fun u hu => ?_
    rw [Token.joins, h.ending u hu]
    simp [hopen.isWord, hopen.is_eq]
  have hle : t.text.length + 1 ≤ (t.text ++ "[]").length + 1 := by simp
  have hcarries := TypeGrammar.carries_type (Rules.repeat_upTo t.text [] "[]" hbehind hle) (o := o) rfl hs
    (Rules.carries_upTo hs rfl hbehind hle) (fun w hw => ?_) fun w _ => Token.not_is_of_isEnd hend w
  · obtain ⟨f, ⟨text, rfl⟩, hread⟩ := hcarries t.cursor _ t.type (t.seam hparts) t.read rfl h.tight
    refine ⟨text, TypeExpr.parse_of_tokens htokens hend ?_⟩
    rw [before_append]
    exact hread
  · rw [Cursor.sees, hopen.is_eq]
    revert w
    decide

theorem stops_end {c : Cursor} (h : c.peek.isEnd = true) (tier : TypeGrammar.Tier) : TypeGrammar.Stops tier c :=
  ⟨.inl h, fun w _ => Token.not_is_of_isEnd h w⟩

/-- A type in parentheses with array brackets behind them is an array. -/
theorem takes_parenthesized {rules : Rules} {ts : List Token} {e : TypeExpr} {c : Cursor} {left right : Token}
    (hleft : left.Marks "(") (hright : right.Marks ")") (hopen : opener.Marks "[") (hline : opener.lineBreak = false)
    (hclose : closer.Marks "]") (hend : c.peek.isEnd = true) (hbalanced : TypeGrammar.Balanced ts)
    (htype : Takes rules.type ts (c.before [right, opener, closer]) e) : ∃ text,
      Takes (TypeGrammar.type rules) (left :: (ts ++ [right, opener, closer])) c (.array e text) := by
  have hends (w : Text) : c.sees w = false := Token.not_is_of_isEnd hend w
  have hprimary : Takes (TypeGrammar.primary rules) (left :: (ts ++ [right])) (c.before [opener, closer]) e :=
    TypeGrammar.primary_parenthesized hleft hright hbalanced (.ofMark hopen (by decide) (by decide) [closer]) htype
  have hs : TypeGrammar.Suffix ⟨0, c.before [opener, closer]⟩ c fun e f => ∃ text, f = .array e text :=
    TypeGrammar.suffix_array rfl hopen hline hclose (hends "[")
  have hopens : TypeGrammar.OpensBefore c (left :: (ts ++ [right, opener, closer])) := ⟨_, _, rfl, .mark (by decide) hleft⟩
  have hcursor : c.before (left :: (ts ++ [right, opener, closer])) =
      (c.before [opener, closer]).before (left :: (ts ++ [right])) := by
    rw [← before_append]
    simp
  obtain ⟨_, ⟨text, rfl⟩, hbrackets⟩ := hs.brackets rules (c.before (left :: (ts ++ [right, opener, closer]))) e
    (show 1 < (c.before [opener, closer]).rest.length + 1 from Nat.succ_lt_succ (Nat.succ_pos _))
  have hoperand : Takes (TypeGrammar.operand rules) (left :: (ts ++ [right, opener, closer])) c (.array e text) := by
    rw [Takes, TypeGrammar.operand_of_opensBefore hopens]
    refine bind_ok.2 ⟨_, _, rfl, bind_ok.2 ⟨e, c.before [opener, closer], ?_, hbrackets⟩⟩
    rw [hcursor]
    exact hprimary
  refine ⟨text, TypeGrammar.type_takes (stops_end hend .union) ?_⟩
  exact TypeGrammar.chain_one .union hopens (by decide) (by decide) (hends "|")
    (TypeGrammar.chain_one .intersection hopens (by decide) (by decide) (hends "&") hoperand)

/-- The text of a type in parentheses with array brackets behind them is the array of the type. -/
theorem parse_parenthesized_array (t : TypeText) :
    ∃ text, TypeExpr.parse ("(" ++ t.text ++ ")[]") = .ok (.array t.type text) := by
  have hopening : Chunk.Readable [⟨[], "(", .mark⟩] (t.text ++ ")[]") := ⟨nofun, Chunk.fits_mark (by decide) _ _, trivial⟩
  have hclosing : Chunk.Readable (⟨[], ")", .mark⟩ :: brackets) [] :=
    ⟨nofun, Chunk.fits_mark (by decide) _ _, readable_brackets []⟩
  have hbehind : Parted (")[]" : Text) := parted_cons (by decide) _
  have hlength : (("(" : Text) ++ (t.text ++ ")[]")).length = (t.text ++ ")[]").length + 1 := by
    rw [List.length_append, Nat.add_comm]
    rfl
  obtain ⟨last, hend, htokens⟩ := t.tokensFrom_ending hclosing hbehind hlength
  let c : Cursor := Cursor.before ⟨[], last⟩ (Chunk.tokens (t.text.length + 1) (⟨[], ")", .mark⟩ :: brackets))
  have hmark : c.peek.Marks ")" := ⟨rfl, rfl⟩
  have hparts : Parts false t.tokens c.peek :=
    parts_of_mark hmark (by decide) (.inr (by decide)) (.inr (by decide)) fun u _ => hmark.not_joins (by decide) u
  have hr := Rules.repeat_upTo t.text "(" ")[]" hbehind
    (show t.text.length + 1 ≤ (("(" : Text) ++ (t.text ++ ")[]")).length by rw [hlength, List.length_append]; omega)
  have hsame : Repeats ⟨1, c⟩ false _ _ t.cursor := TypeGrammar.repeats_type hr rfl (t.seam hparts)
  have htype : Takes (Rules.upTo (("(" : Text) ++ (t.text ++ ")[]")) ((("(" : Text) ++ (t.text ++ ")[]")).length + 1)).type
      (t.tokens.map (·.later 1)) c t.type := (hsame t.type _ t.read).2 nofun
  have hleft : (Chunk.token ⟨[], "(", .mark⟩ 0).Marks "(" := ⟨rfl, rfl⟩
  have hlast : (Cursor.peek ⟨[], last⟩).isEnd = true := hend
  obtain ⟨text, hread⟩ := takes_parenthesized hleft hmark ⟨rfl, rfl⟩ rfl ⟨rfl, rfl⟩ hlast (t.balanced 1) htype
  rw [List.append_assoc]
  refine ⟨text, TypeExpr.parse_of_tokens ?_ hend hread⟩
  have hwhole := hopening.tokensFrom_eq (show 0 + 1 ≤ (("(" : Text) ++ (t.text ++ ")[]")).length by omega)
  exact hwhole.trans (congrArg _ htokens)

/-! ## Bars -/

/-- A type that may stand between bars: no union and no condition. -/
structure IsMember (t : TypeText) : Prop where
  bar : t.cursor.sees "|" = false
  union : ∀ types text, t.type ≠ .union types text
  conditional : ∀ text, t.type ≠ .verbatim text .conditional

/-- The type is not gone on with behind a bar. -/
def IsClosed (t : TypeText) : Prop := t.type.isClosed = true ∨ ∀ u ∈ t.tokens, u.is "=>" = false

instance (t : TypeText) : Decidable t.IsClosed := inferInstanceAs (Decidable (_ ∨ _))

theorem IsMember.read_intersection (h : t.IsMember) :
    TypeGrammar.intersection (Rules.upTo t.text (t.text.length + 1)) t.cursor = .ok (t.type, ⟨[], t.last⟩) := by
  rcases TypeGrammar.type_ok t.read with hunion | ⟨text, htext⟩
  · rcases TypeGrammar.chain_ok hunion with ⟨taken, c, htaken, hread⟩ | ⟨types, text, htext⟩
    · cases (accept_of_not_sees h.bar).symm.trans htaken
      exact hread
    · exact absurd htext (h.union types text)
  · exact absurd htext (h.conditional text)

theorem exists_tokens (t : TypeText) : ∃ u us, t.tokens = u :: us := by
  cases htokens : t.tokens with
  | nil => exact absurd t.read (TypeGrammar.refuses_type t.last_isEnd htokens _)
  | cons u us => exact ⟨u, us, rfl⟩

/-- A member is read alike at the end of a longer source, and before a bar if it is closed. -/
theorem IsMember.takes (h : t.IsMember) {c : Cursor} (hbehind : Parted behind) (hm : t.text.length + 1 ≤ m)
    (hc : c.peek.isEnd = true ∨ c.rest ≠ [] ∧ c.peek.Marks "|" ∧ t.IsClosed) :
    Takes (TypeGrammar.intersection (Rules.upTo (before ++ (t.text ++ behind)) m))
      (t.tokens.map (·.later before.length)) c t.type := by
  rcases hc with hend | ⟨hrest, hmark, hclosed⟩
  · have hsame : Repeats ⟨before.length, c⟩ false _ _ t.cursor := TypeGrammar.repeats_intersection
      (Rules.repeat_upTo t.text before behind hbehind hm) rfl (t.seam (parts_of_isEnd _ hend))
    exact (hsame t.type _ h.read_intersection).2 nofun
  · have hparts : Parts true t.tokens c.peek :=
      parts_of_mark hmark (by decide) (.inl rfl) (.inl rfl) fun u _ => hmark.not_joins (by decide) u
    have hnot {w : Text} (hw : Text.ofString "|" ≠ w) : c.sees w = false := by
      rw [Cursor.sees, hmark.is_eq, beq_eq_false_iff_ne.2 hw]
    let o : Place := ⟨before.length, c⟩
    have hseam : Seam t.text o true t.cursor := t.seam hparts
    have hread : TypeGrammar.intersection (Rules.upTo (before ++ (t.text ++ behind)) m) (o.put t.cursor) =
        .ok (t.type, o.put ⟨[], t.last⟩) :=
      Rules.intersection_before rfl hbehind hm hrest (hnot (by decide)) (hnot (by decide)) hseam h.read_intersection hclosed
    exact hread

/-- The text of types with a bar before each. -/
def barred (ts : List TypeText) : Text := ts.flatMap (" | " ++ ·.text)

/-- The tokens of types with a bar before each that stand behind so many code points. -/
def barredTokens (k : Nat) : List TypeText → List Token
  | [] => []
  | t :: ts => Chunk.token ⟨" ", "|", .mark⟩ k ::
      ((t.tokens.map (·.later (k + 3))).modifyHead (·.widen false) ++ barredTokens (k + 3 + t.text.length) ts)

theorem parted_barred (ts : List TypeText) : Parted (barred ts) := by
  cases ts with
  | nil => exact parted_nil
  | cons t ts => exact parted_cons (by decide) _

theorem tokensFrom_barred (ts : List TypeText) {stop k : Nat} (hstop : stop = k + (barred ts).length) :
    ∃ last : Token, last.isEnd = true ∧ tokensFrom stop k {} (barred ts) = .ok (barredTokens k ts ++ [last]) := by
  induction ts generalizing k with
  | nil => exact ⟨_, rfl, tokensFrom_end (Nat.le_of_eq hstop)⟩
  | cons t ts ih =>
    have hlength : (barred (t :: ts)).length = 3 + t.text.length + (barred ts).length := by
      rw [barred, List.flatMap_cons, List.length_append, List.length_append]
      rfl
    obtain ⟨last, hend, hrest⟩ := ih (k := k + 3 + t.text.length) (by omega)
    obtain ⟨u, us, htokens⟩ := t.exists_tokens
    have hbar : Chunk.Readable [⟨" ", "|", .mark⟩] (" " ++ (t.text ++ barred ts)) :=
      ⟨by decide, Chunk.fits_mark (by decide) _ _, trivial⟩
    have hinner : tokensFrom stop (k + 3) {} (t.text ++ barred ts) =
        .ok (t.tokens.map (·.later (k + 3)) ++ (barredTokens (k + 3 + t.text.length) ts ++ [last])) :=
      tokenize_behind t.lexed t.tight (parted_barred ts) (by omega) (by rwa [Nat.add_comm])
    rw [htokens, List.map_cons, List.cons_append] at hinner
    have hgap : tokensFrom stop (k + 2) {} (" " ++ (t.text ++ barred ts)) = _ :=
      (Chunk.tokensFrom_gap (g := " ") (by decide) (show k + 2 + 1 ≤ stop by omega) {} _).trans
        (tokensFrom_widen false hinner)
    refine ⟨last, hend, (hbar.tokensFrom_eq (show k + 2 ≤ stop by omega)).trans ((congrArg _ hgap).trans ?_)⟩
    rw [barredTokens, htokens, List.cons_append, List.append_assoc]
    rfl

/-- The types behind bars are read one after the other. -/
theorem rounds_barred {ts : List TypeText} {last : Token} (hsource : source = before ++ barred ts)
    (hlast : last.isEnd = true) (hmembers : ∀ t ∈ ts, t.IsMember) (hclosed : ∀ t ∈ ts.dropLast, t.IsClosed)
    (hm : source.length < m) {n : Nat}
    (hn : ts.length < n) (found : List TypeExpr) :
    rounds (separatedRound "|" (TypeGrammar.intersection (Rules.upTo source m))) n found
        (Cursor.before ⟨[], last⟩ (barredTokens before.length ts)) =
      .ok (found.reverse ++ ts.map (·.type), ⟨[], last⟩) := by
  induction ts generalizing before n found with
  | nil =>
    rw [List.map_nil, List.append_nil]
    refine rounds_done (bind_ok.2 ⟨_, _, accept_of_not_sees (Token.not_is_of_isEnd hlast _), rfl⟩) hn
  | cons t ts ih =>
    obtain ⟨n, rfl⟩ : ∃ k, n = k + 1 := ⟨n - 1, by omega⟩
    let c : Cursor := Cursor.before ⟨[], last⟩ (barredTokens (before.length + 3 + t.text.length) ts)
    have hsplit : source = (before ++ " | ") ++ (t.text ++ barred ts) := by
      rw [hsource, barred, List.flatMap_cons, List.append_assoc, List.append_assoc]
      rfl
    have hlength : (before ++ " | ").length = before.length + 3 := List.length_append
    have hm' : t.text.length + 1 ≤ m := by
      have htotal := congrArg List.length hsplit
      simp only [List.length_append] at htotal
      omega
    have hitem : Takes (TypeGrammar.intersection (Rules.upTo source m))
        (t.tokens.map (·.later (before.length + 3))) c t.type := by
      rw [hsplit, ← hlength]
      refine (hmembers t List.mem_cons_self).takes (parted_barred ts) hm' ?_
      cases ts with
      | nil => exact .inl hlast
      | cons t' ts => exact .inr ⟨nofun, ⟨rfl, rfl⟩, hclosed t List.mem_cons_self⟩
    -- the gap behind the bar does not matter
    have hwidened : TypeGrammar.intersection (Rules.upTo source m)
        (c.before ((t.tokens.map (·.later (before.length + 3))).modifyHead (·.widen false))) = .ok (t.type, c) := by
      obtain ⟨u, us, htokens⟩ := t.exists_tokens
      rw [htokens] at hitem ⊢
      have halike : Alike false (u.later (before.length + 3)) (c.before (us.map (·.later (before.length + 3))))
          (TypeGrammar.intersection (Rules.upTo source m)) := TypeGrammar.alike_intersection
      exact halike.trans hitem
    have hround : separatedRound "|" (TypeGrammar.intersection (Rules.upTo source m)) found
        (Cursor.before ⟨[], last⟩ (barredTokens before.length (t :: ts))) = .ok (.again (t.type :: found), c) := by
      rw [barredTokens, before_cons, before_append]
      exact bind_ok.2 ⟨_, _, accept_before (Token.Marks.is_eq ⟨rfl, rfl⟩ "|") _ _, bind_ok.2 ⟨_, _, hwidened, rfl⟩⟩
    have hbehind : (before ++ " | " ++ t.text).length = before.length + 3 + t.text.length := by
      rw [List.length_append, hlength]
    have hbefore : ∀ t' ∈ ts.dropLast, t'.IsClosed := by
      cases ts with
      | nil => nofun
      | cons t' ts => exact fun u hu => hclosed u (List.mem_cons_of_mem _ hu)
    have hrest := ih (hsplit.trans (List.append_assoc _ _ _).symm) (fun t' ht' => hmembers t' (List.mem_cons_of_mem _ ht'))
      hbefore (Nat.lt_of_succ_lt_succ hn) (t.type :: found)
    rw [hbehind] at hrest
    rw [rounds_again hround, hrest]
    simp

theorem length_le_barredTokens (k : Nat) (ts : List TypeText) : ts.length ≤ (barredTokens k ts).length := by
  induction ts generalizing k with
  | nil => exact Nat.zero_le _
  | cons t ts ih =>
    have hrest := ih (k + 3 + t.text.length)
    rw [barredTokens, List.length_cons, List.length_cons, List.length_append]
    omega

/-- The texts of several types with bars between them are the union of the types,
if all but the last are closed. -/
theorem parse_union (t : TypeText) (ts : List TypeText) (hmany : ts ≠ []) (hmembers : ∀ m ∈ t :: ts, m.IsMember)
    (hclosed : ∀ m ∈ (t :: ts).dropLast, m.IsClosed) :
    ∃ text, TypeExpr.parse (Text.join " | " ((t :: ts).map (·.text))) = .ok (.union ((t :: ts).map (·.type)) text) := by
  have hsource : Text.join " | " ((t :: ts).map (·.text)) = [] ++ (t.text ++ barred ts) := by
    rw [List.map_cons, TypeGrammar.join_cons, List.flatMap_map]
    rfl
  obtain ⟨last, hend, htokens⟩ := tokensFrom_barred ts (show (t.text ++ barred ts).length = _ from List.length_append)
  have hwhole : tokenize (t.text ++ barred ts) 0 (t.text ++ barred ts).length =
      .ok (t.tokens.map (·.later 0) ++ (barredTokens t.text.length ts ++ [last])) :=
    tokenize_behind t.lexed t.tight (parted_barred ts) (by simp) htokens
  rw [← List.append_assoc] at hwhole
  let c : Cursor := Cursor.before ⟨[], last⟩ (barredTokens t.text.length ts)
  obtain ⟨t', us, rfl⟩ := List.exists_cons_of_ne_nil hmany
  -- the first member ends before the bar, the rounds take the others
  have hfirst : Takes (TypeGrammar.intersection (Rules.upTo ([] ++ (t.text ++ barred (t' :: us))) _))
      (t.tokens.map (·.later 0)) c t.type :=
    (hmembers t List.mem_cons_self).takes (parted_barred _)
      (show t.text.length + 1 ≤ (t.text ++ barred (t' :: us)).length + 1 by simp)
      (.inr ⟨nofun, ⟨rfl, rfl⟩, hclosed t List.mem_cons_self⟩)
  have hrest : loop (separatedRound "|" (TypeGrammar.intersection (Rules.upTo (t.text ++ barred (t' :: us)) _))) [t.type] c =
      .ok (t.type :: (t' :: us).map (·.type), ⟨[], last⟩) :=
    rounds_barred rfl hend (fun m hm => hmembers m (List.mem_cons_of_mem _ hm))
      (fun m hm => hclosed m (List.mem_cons_of_mem _ hm)) (Nat.lt_succ_self _)
      (Nat.lt_succ_of_le (by simpa [c] using length_le_barredTokens t.text.length (t' :: us))) [t.type]
  have hbar : (c.before (t.tokens.map (·.later 0))).sees "|" = false := by
    obtain ⟨u, vs, htokens⟩ := t.exists_tokens
    have hbar : t.cursor.sees "|" = false := (hmembers t List.mem_cons_self).bar
    rw [cursor, htokens] at hbar
    rw [htokens, List.map_cons, Token.later_zero]
    exact hbar
  have hunion : ∃ text, Takes
      (TypeGrammar.union (Rules.upTo (t.text ++ barred (t' :: us)) ((t.text ++ barred (t' :: us)).length + 1)))
      (t.tokens.map (·.later 0) ++ barredTokens t.text.length (t' :: us)) ⟨[], last⟩
      (.union ((t :: t' :: us).map (·.type)) text) := by
    refine ⟨spell ((c.before (t.tokens.map (·.later 0))).upTo ⟨[], last⟩), ?_⟩
    rw [Takes, before_append]
    exact bind_ok.2 ⟨_, _, accept_of_not_sees hbar, bind_ok.2 ⟨_, _, rfl,
      bind_ok.2 ⟨_, _, bind_ok.2 ⟨_, _, hfirst, hrest⟩, rfl⟩⟩⟩
  obtain ⟨text, hunion⟩ := hunion
  rw [hsource]
  exact ⟨text, TypeExpr.parse_of_tokens hwhole hend (TypeGrammar.type_takes (stops_end (c := ⟨[], last⟩) hend _) hunion)⟩

end TypeText

end WireSchema
