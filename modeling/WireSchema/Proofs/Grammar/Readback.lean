import WireSchema.Proofs.Grammar.Excerpted
import WireSchema.Proofs.Grammar.Grouped
/-!
# Types read back

What a rule for part of a type reads is a whole type where the end of the input
stands behind it, as the looser rules add nothing there. So the text of a run of
tokens is read as the type that was read off the run, whatever rule read it.
-/

namespace WireSchema

open Source Source.Cursor Source.Parser

namespace Source.Parser

section
variable {α : Type} {p : Parser α} {c d : Cursor} {a : α} {w : Text}

/-- Behind the tokens nothing is accepted. -/
theorem accept_at_end (hlast : d.last.isEnd = true) (hrest : d.rest = []) (w : Text) : accept w d = .ok (false, d) :=
  accept_of_not_sees (not_sees_end hlast (by simp [hrest]) w)

theorem separated_at_end (h : p c = .ok (a, d)) (hlast : d.last.isEnd = true) (hrest : d.rest = []) (mark : Text) :
    separated mark p c = .ok ([a], d) := by
  have hround : separatedRound mark p [a] d = .ok (.done [a], d) := by
    rw [separatedRound, bind_apply, accept_at_end hlast hrest]
    rfl
  exact bind_ok.2 ⟨a, d, h, rounds_done hround (Nat.succ_pos _)⟩

end

end Source.Parser

namespace TypeGrammar

section
variable {rules : Rules} {c d : Cursor} {e : TypeExpr} {w : Text}

/-! ## Beginnings -/

/-- The tokens up to the cursor `d`, with the end of the input behind them. -/
def run (c d : Cursor) : Cursor := ⟨c.upTo d, c.last⟩

/-- An operator word stands before its operand, or `infer` before a name. -/
def leads (c : Cursor) : Bool :=
  (c.peek.isWord && operatorWords.contains c.peek.raw && beginsOperand (c.peek 1)) || (c.sees "infer" && (c.peek 1).isWord)

theorem peek_run (c d : Cursor) (n : Nat) : (run c d).peek n = c.peek n ∨ (run c d).peek n = c.last := by
  by_cases hn : n < (c.upTo d).length
  · refine .inl ?_
    rw [Cursor.upTo, List.length_take] at hn
    rw [run, Cursor.peek, Cursor.upTo, List.getD_eq_getElem?_getD, List.getElem?_take_of_lt (by omega),
      ← List.getD_eq_getElem?_getD]
    rfl
  · exact .inr (peek_length_le (Nat.le_of_not_lt hn))

/-- What leads a run leads the tokens it is cut from. -/
theorem leads_of_run (hlast : c.last.isEnd = true) (h : leads (run c d) = true) : leads c = true := by
  have hword : c.last.isWord = false := Token.not_isWord_of_isEnd hlast
  have hoperand : beginsOperand c.last = false := by
    simp [beginsOperand, Token.isWord, Token.isString, Token.isNumber, Token.isTemplate, Token.isOneOf, Token.isMark,
      show c.last.lexeme = .endOfInput from beq_iff_eq.1 hlast]
  rcases peek_run c d 0 with h₀ | h₀ <;> rcases peek_run c d 1 with h₁ | h₁ <;>
    simp only [leads, Cursor.sees, h₀, h₁, hword, hoperand, Token.not_is_of_isEnd hlast, Bool.and_false, Bool.false_and,
      Bool.or_self] at h ⊢
  · exact h
  all_goals cases h

theorem operand_of_not_leads (h : leads c = false) : operand rules c = postfixed rules c := by
  rw [leads, Bool.or_eq_false_iff] at h
  simp only [operand, bind_apply, get_apply, ok_bind, h.1, h.2, Bool.false_eq_true, if_false]

/-- The marks between members. -/
def joiners : List Text := ["&", "|"]

theorem primary_not_sees (hc : c.Lexed) (h : primary rules c = .ok (e, d)) (hw : w ∈ joiners) : c.sees w = false := by
  refine Bool.eq_false_iff.2 fun hsees => ?_
  have hnames : ∀ v ∈ joiners, Text.isName v = false := by decide
  have hother : ∀ v ∈ joiners, v ≠ "<" ∧ v ≠ "(" ∧ v ≠ "\x7b" ∧ v ≠ "[" ∧ v ≠ "-" := by decide
  obtain ⟨t, b, rfl, ht, _⟩ := hc.exists_mark hsees (hnames w hw)
  obtain ⟨hangle, hround, hbrace, hsquare, hminus⟩ := hother w hw
  have hnot {v : Text} (hv : w ≠ v) : (b.before [t]).sees v = false := by
    rw [sees_before, ht.is_eq, beq_eq_false_iff_ne.2 hv]
  simp only [primary, bind_apply, peek_apply, ok_bind, peek_before, ht.1, markType, get_apply, beginsFunction, hnot hangle,
    hnot hround,
    ht.2, hround, hbrace, hsquare, hminus, Bool.false_and, Bool.or_self, Bool.false_eq_true, if_false, false_and] at h
  cases h

theorem operand_not_sees (hc : c.Lexed) (h : operand rules c = .ok (e, d)) (hw : w ∈ joiners) : c.sees w = false := by
  cases hleads : leads c with
  | false =>
    rw [operand_of_not_leads hleads] at h
    obtain ⟨_, _, hget, h⟩ := bind_ok.1 h
    cases hget
    obtain ⟨_, _, hprimary, _⟩ := bind_ok.1 h
    exact primary_not_sees hc hprimary hw
  | true =>
    have hother : ∀ v ∈ ("infer" : Text) :: operatorWords, ∀ w ∈ joiners, v ≠ w := by decide
    rw [leads, Bool.or_eq_true, Bool.and_eq_true, Bool.and_eq_true, Bool.and_eq_true, List.contains_iff_mem] at hleads
    rcases hleads with ⟨⟨_, hword⟩, _⟩ | ⟨hinfer, _⟩
    · rw [Cursor.sees, Token.is, beq_eq_false_iff_ne.2 (hother _ (List.mem_cons_of_mem _ hword) w hw), Bool.and_false]
    · exact Token.is_ne hinfer (hother _ List.mem_cons_self w hw)

theorem intersection_not_sees (hc : c.Lexed) (h : intersection rules c = .ok (e, d)) : c.sees "|" = false := by
  refine Bool.eq_false_iff.2 fun hsees => ?_
  obtain ⟨_, c₁, htaken, h⟩ := bind_ok.1 h
  rw [accept_of_not_sees (Token.is_ne hsees (by decide))] at htaken
  cases htaken
  obtain ⟨_, _, hget, h⟩ := bind_ok.1 h
  cases hget
  obtain ⟨_, _, hseparated, _⟩ := bind_ok.1 h
  obtain ⟨_, _, hoperand, _⟩ := bind_ok.1 hseparated
  rw [operand_not_sees hc hoperand (by decide)] at hsees
  cases hsees

/-! ## Ends -/

section
variable (hlast : d.last.isEnd = true) (hrest : d.rest = [])
include hlast hrest

theorem chain_at_end {mark : Text} {item : Parser TypeExpr} {build : List TypeExpr → Text → TypeExpr} (hmark : c.sees mark = false)
    (h : item c = .ok (e, d)) : chain mark item build c = .ok (e, d) := by
  rw [chain, bind_apply, accept_of_not_sees hmark, ok_bind, bind_apply, get_apply, ok_bind, bind_apply,
    separated_at_end h hlast hrest, ok_bind]
  rfl

theorem type_of_union (h : union rules c = .ok (e, d)) : TypeGrammar.type rules c = .ok (e, d) := by
  rw [TypeGrammar.type, bind_apply, get_apply, ok_bind, bind_apply, h, ok_bind, bind_apply, accept_at_end hlast hrest]
  rfl

theorem type_of_intersection (hmark : c.sees "|" = false) (h : intersection rules c = .ok (e, d)) :
    TypeGrammar.type rules c = .ok (e, d) :=
  type_of_union hlast hrest (chain_at_end hlast hrest hmark h)

theorem type_of_operand (hmark : ∀ w ∈ joiners, c.sees w = false) (h : operand rules c = .ok (e, d)) :
    TypeGrammar.type rules c = .ok (e, d) :=
  type_of_intersection hlast hrest (hmark "|" (by decide)) (chain_at_end hlast hrest (hmark "&" (by decide)) h)

end

/-! ## Brackets -/

/-- A primary type that begins at the cursor `c`, with some of the brackets behind it. -/
inductive Bracketed (rules : Rules) (c : Cursor) : TypeExpr → Cursor → Prop where
  | first {e : TypeExpr} {d : Cursor} : primary rules c = .ok (e, d) → Bracketed rules c e d
  | again {e e' : TypeExpr} {d d' : Cursor} : Bracketed rules c e d → bracketRound rules c e d = .ok (.again e', d') →
    Bracketed rules c e' d'

theorem Bracketed.ended (hr : rules.Close) (hlast : c.last.isEnd = true) (h : Bracketed rules c e d) : c.Ended d := by
  induction h with
  | first h => exact ended_primary hr (.refl hlast) _ _ h
  | again _ h ih => exact ended_bracketRound hr ih _ _ h

/-- The rounds that are left read on from the brackets. -/
theorem Bracketed.exists_rounds (hr : rules.Close) (hlast : c.last.isEnd = true) (h : Bracketed rules c e d) :
    ∃ first c₁ k, primary rules c = .ok (first, c₁) ∧ k + d.rest.length ≤ c₁.rest.length ∧
      ∀ n, rounds (bracketRound rules c) (n + k) first c₁ = rounds (bracketRound rules c) n e d := by
  induction h with
  | first h => exact ⟨_, _, 0, h, by omega, fun _ => rfl⟩
  | @again e e' d d' hbefore h ih =>
    obtain ⟨first, c₁, k, hfirst, hle, hrounds⟩ := ih
    have hend := (hbefore.ended hr hlast).forth.last
    have hless := (over_bracketRound hr hend _ _ h e' rfl).length
    refine ⟨first, c₁, k + 1, hfirst, by omega, fun n => ?_⟩
    rw [show n + (k + 1) = n + 1 + k by omega, hrounds (n + 1), rounds_again h]

theorem Bracketed.postfixed (hr : rules.Close) (hlast : c.last.isEnd = true) (h : Bracketed rules c e d) (hrest : d.rest = []) :
    postfixed rules c = .ok (e, d) := by
  obtain ⟨first, c₁, k, hfirst, hle, hrounds⟩ := h.exists_rounds hr hlast
  have hround : bracketRound rules c e d = .ok (.done e, d) := by
    simp [bracketRound, not_sees_end (h.ended hr hlast).forth.last (n := 0) (by simp [hrest])]
  rw [TypeGrammar.postfixed, bind_apply, get_apply, ok_bind, bind_apply, hfirst, ok_bind, loop_apply,
    show c₁.rest.length + 1 = c₁.rest.length - k + 1 + k by omega, hrounds]
  exact rounds_done hround (Nat.succ_pos _)

/-- A rule of the grammar that keeps the text of its tokens reads the type from `c` to `d`. -/
inductive ReadFrom (rules : Rules) (c : Cursor) (e : TypeExpr) (d : Cursor) : Prop where
  | postfixed : leads (run c d) = false → Bracketed rules c e d → ReadFrom rules c e d
  | operand : operand rules c = .ok (e, d) → ReadFrom rules c e d
  | intersection : intersection rules c = .ok (e, d) → ReadFrom rules c e d
  | union : union rules c = .ok (e, d) → ReadFrom rules c e d
  | type : TypeGrammar.type rules c = .ok (e, d) → ReadFrom rules c e d

end

/-! ## Copies -/

open Excerpt

section
variable {o : Excerpt} {near : Bool} {rules rules' : Rules} {c c' d d' : Cursor} {e : TypeExpr}

/-- The copies say what the tokens of the run say. -/
theorem told_run {P : Token → Bool} (h : o.Cut near c c') (hP : o.Told P) (n : Nat) :
    P (c'.peek n) = P ((run c o.behind).peek n) := by
  have hlength : (c.upTo o.behind).length = c.rest.length - o.behind.rest.length := by rw [Cursor.upTo, List.length_take]; omega
  rcases h.told hP n with ⟨heq, hlt⟩ | ⟨hfalse, hle⟩
  · rw [heq, run, Cursor.peek, Cursor.peek, Cursor.upTo, List.getD_eq_getElem?_getD, List.getD_eq_getElem?_getD,
      List.getElem?_take_of_lt (by omega)]
  · rw [hfalse, peek_length_le (show (c.upTo o.behind).length ≤ n by omega), show (run c o.behind).last = c.last from rfl,
      hP.ends h.last]

theorem leads_copy (h : o.Cut near c c') : leads c' = leads (run c o.behind) := by
  rw [leads, leads, told_run h told_operator 0, told_run h told_beginsOperand 1, Cursor.sees, told_run h (told_is "infer") 0,
    told_run h told_isWord 1]
  rfl

variable (hr : rules.Reread o.source o.text rules')
include hr

theorem Bracketed.copy (hat : o.At near c c') (h : Bracketed rules c e d) :
    o.Beyond near d ∨ ∃ d', Bracketed rules' c' (e.redocument o.docs) d' ∧ o.Cut near d d' := by
  induction h with
  | first h =>
    obtain ⟨_, hbeyond | ⟨hfalse, _⟩ | ⟨d', hsame, hcut⟩⟩ := recalls_primary hr hat _ _ h
    · exact .inl hbeyond
    · cases hfalse
    · exact .inr ⟨d', .first hsame, hcut⟩
  | @again e e' d x hbefore h ih =>
    have hended := hbefore.ended hr.closes hat.last
    have hreaches := (over_bracketRound hr.closes hended.forth.last _ _ h e' rfl).reaches
    rcases ih with hbeyond | ⟨d', hsame, hcut⟩
    · exact .inl (hbeyond.reaches hreaches)
    · have hat' := hat.reaches hended.forth.reaches (.inr hcut)
      obtain ⟨_, hbeyond | ⟨hfalse, _⟩ | ⟨x', hsame', hcut'⟩⟩ := recalls_bracketRound hr hat hended hat' e _ _ h
      · exact .inl hbeyond
      · cases hfalse
      · exact .inr ⟨x', .again hsame hsame', hcut'⟩

/-- What is read up to the end of the run is read as a whole type at the copies. -/
theorem ReadFrom.again (hc : c.Lexed) (hcut : o.Cut false c c') (h : ReadFrom rules c e o.behind) (hr' : rules'.Close) :
    TypeGrammar.type rules' c' = .ok (e.redocument o.docs, o.again []) := by
  have hlast : (o.again []).last.isEnd = true := o.final_isEnd
  have hnot {w : Text} (hw : c.sees w = false) : c'.sees w = false := Bool.eq_false_iff.2 fun hsees => by
    rw [hcut.sees_of_copy hsees] at hw
    cases hw
  cases h with
  | postfixed hleads h =>
    have hleads' : leads c' = false := by rw [leads_copy hcut, hleads]
    rcases h.copy hr hcut.at_ with hbeyond | ⟨d', hsame, hbehind⟩
    · exact absurd hbeyond (Nat.lt_irrefl _)
    · obtain rfl : d' = o.again [] := hbehind.eq_again
      obtain ⟨first, c₁, _, hfirst, _⟩ := h.exists_rounds hr.closes hcut.last
      refine type_of_operand hlast rfl (fun w hw => hnot (primary_not_sees hc hfirst hw)) ?_
      rw [operand_of_not_leads hleads']
      exact hsame.postfixed hr' hcut.last_copy rfl
  | operand h =>
    exact type_of_operand hlast rfl (fun w hw => hnot (operand_not_sees hc h hw)) ((recalls_operand hr hcut.at_).stops h)
  | intersection h =>
    exact type_of_intersection hlast rfl (hnot (intersection_not_sees hc h)) ((recalls_intersection hr hcut.at_).stops h)
  | union h => exact type_of_union hlast rfl ((recalls_union hr hcut.at_).stops h)
  | type h => exact (recalls_type hr hcut.at_).stops h

end

end TypeGrammar

/-- The text is spelled as its tokens are, and the rule reads all of them as the type. -/
def ReadBack (p : Rules → Parser TypeExpr) (t : Text) (e : TypeExpr) : Prop :=
  ∃ ts last n, tokenize t 0 t.length = .ok (ts ++ [last]) ∧ spell ts = t ∧ p (Rules.upTo t n) ⟨ts, last⟩ = .ok (e, ⟨[], last⟩)

namespace Source

variable {source : Text} {c d : Cursor}

theorem Cursor.StandsIn.lexed (h : c.StandsIn source) : c.Lexed := by
  obtain ⟨_, _, _, _, htokens⟩ := id h
  obtain ⟨ts, last, hsplit, hts, _⟩ := tokenize_lexed htokens
  rw [← List.append_assoc] at hsplit
  obtain ⟨rfl, _⟩ := List.append_inj' hsplit rfl
  exact ⟨fun t ht => hts t (List.mem_append_right _ ht), h.last⟩

/-- The copies of a run are spelled as the run is. -/
theorem Excerpt.spell_again (o : Excerpt) : spell (o.again o.pairs).rest = spell ((o.before o.pairs).upTo o.behind) := by
  have hrun : o.Cut false (o.before o.pairs) (o.again o.pairs) := .of_suffix (List.suffix_refl _)
  have hend : o.Cut false o.behind (o.again []) := .of_suffix List.nil_suffix
  rw [← hrun.spell_upTo hend, Cursor.upTo, show (o.again []).rest = [] from rfl, List.length_nil, Nat.sub_zero, List.take_length]

theorem spell_widen (line : Bool) (t : Token) (ts : List Token) : spell (t.widen line :: ts) = spell (t :: ts) := rfl

end Source

open TypeGrammar

/-- A text that is read back as a whole type is the text of the type. -/
theorem ReadBack.parse {t : Text} {e : TypeExpr} (h : ReadBack TypeGrammar.type t e) : TypeExpr.parse t = .ok e := by
  obtain ⟨ts, last, n, htokens, _, hread⟩ := h
  obtain ⟨_, _, hsplit, _, hlast⟩ := tokenize_lexed htokens
  obtain ⟨_, heq⟩ := List.append_inj' hsplit rfl
  cases heq
  refine TypeExpr.parse_of_tokens htokens hlast ?_
  have hfits : (Cursor.before ⟨[], last⟩ ts).Fits t (t.length + 2) := by
    have hplaced := (Cursor.fits_ofTokens (.inl rfl) (Nat.zero_le _) htokens).mono (show t.length - 0 + 1 ≤ t.length + 2 by omega)
    rwa [← List.nil_append [last], ofTokens_before] at hplaced
  refine Rules.type_enough (n := n + 1) hfits ?_
  rw [Cursor.before, List.append_nil]
  exact hread

section
variable {source : Text} {c d : Cursor} {e : TypeExpr} {p : Rules → Parser TypeExpr} {n : Nat}

/-- What the rule does at the copies of a run it does at the tokens of its text, whatever line breaks the
run has and whatever is behind it. -/
theorem readBack_of_copies (h : c.StandsIn source) (hd : c.Passes d) {line : Token → Token} (hline : Relines line) {behind : Cursor}
    (hlast : behind.last.isEnd = true) (hunbroken : Unbroken ((c.upTo d).map line))
    (hdot : behind.sees "." = true → ∀ t ∈ (c.upTo d).getLast?, TypeGrammar.keywords.contains t.raw = false)
    (halike : ∀ text m t c, Alike false t c (p (Rules.upTo text m)))
    (hcopies : ∀ o : Excerpt, o.source = source → o.behind = behind →
      o.Cut false (behind.before ((c.upTo d).map line)) (o.again o.pairs) →
      p (Rules.upTo o.text n) (o.again o.pairs) = .ok (e.redocument o.docs, o.again [])) :
    ReadBack p (spell (c.upTo d)) e.undocumented := by
  obtain ⟨o, tokens, t, x, hsource, htext, hdocs, hbehind, hbefore, htokens, hcursor, hchoice⟩ :=
    exists_excerpt h hd hline hlast hunbroken hdot
  have hcut : o.Cut false (behind.before ((c.upTo d).map line)) (o.again o.pairs) := hbefore ▸ .of_suffix (List.suffix_refl _)
  have hread := hcopies o hsource hbehind hcut
  have hspell : spell (o.again o.pairs).rest = spell (c.upTo d) := by
    rw [o.spell_again, hbefore, hbehind, upTo_before, hline.spell]
  obtain ⟨ts, last, rfl, _⟩ := tokenize_read (.inl rfl) htokens
  rw [← List.nil_append [last], ofTokens_before, before, List.append_nil] at hcursor
  have hfinal : o.again [] = ⟨[], last⟩ := by
    have hsame : (o.again o.pairs).last = last := by
      rcases hchoice with heq | heq <;> rw [heq] <;> exact congrArg Cursor.last hcursor.symm
    exact congrArg (Cursor.mk []) hsame
  rw [hdocs, hfinal] at hread
  refine ⟨ts, last, n, htext ▸ htokens, ?_, ?_⟩
  · rw [← hspell]
    have hrest := congrArg Cursor.rest hcursor
    rcases hchoice with heq | heq
    · rw [heq, ← hcursor]
    · rw [heq, rest_before, List.singleton_append, spell_widen]
      exact congrArg spell hrest
  · rw [hcursor, ← htext]
    rcases hchoice with heq | heq
    · rwa [← heq]
    · rw [heq, halike] at hread
      exact hread

theorem TypeGrammar.ReadFrom.ended {rules : Rules} (hr : rules.Close) (hlast : c.last.isEnd = true) (h : ReadFrom rules c e d) :
    c.Ended d := by
  cases h with
  | postfixed _ h => exact h.ended hr hlast
  | operand h => exact ended_operand hr (.refl hlast) _ _ h
  | intersection h => exact ended_intersection hr (.refl hlast) _ _ h
  | union h => exact ended_union hr (.refl hlast) _ _ h
  | type h => exact ended_type hr (.refl hlast) _ _ h

/-- A run that may be cut out as it stands. -/
theorem readBack_of_cuts (h : c.StandsIn source) (hd : c.Passes d) (hcuts : c.Cuts d)
    (halike : ∀ text m t c, Alike false t c (p (Rules.upTo text m)))
    (hcopies : ∀ o : Excerpt, o.source = source → o.behind = d → o.Cut false c (o.again o.pairs) →
      p (Rules.upTo o.text n) (o.again o.pairs) = .ok (e.redocument o.docs, o.again [])) :
    ReadBack p (spell (c.upTo d)) e.undocumented := by
  have hlast : d.last.isEnd = true := (h.reaches hd.reaches).last
  have hsame : d.before ((c.upTo d).map id) = c := by
    obtain ⟨t, ts, rfl⟩ := hd
    rw [upTo_before, List.map_id]
  exact readBack_of_copies h hd relines_id hlast (by rw [List.map_id]; exact hcuts.unbroken) hcuts.undotted halike
    (hsame.symm ▸ hcopies)

/-- A run that is read alone, on one line. -/
theorem readBack_of_alone (h : c.StandsIn source) (hd : c.Passes d)
    (halike : ∀ text m t c, Alike false t c (p (Rules.upTo text m)))
    (hcopies : ∀ o : Excerpt, o.source = source → o.behind = ⟨[], d.last⟩ → o.Cut false (c.alone d) (o.again o.pairs) →
      p (Rules.upTo o.text n) (o.again o.pairs) = .ok (e.redocument o.docs, o.again [])) :
    ReadBack p (spell (c.upTo d)) e.undocumented := by
  have hlast : (Cursor.mk [] d.last).last.isEnd = true := (h.reaches hd.reaches).last
  refine readBack_of_copies h hd relines_joined hlast (unbroken_joined _) (fun hsees => ?_) halike hcopies
  rw [not_sees_end hlast (Nat.le_refl 0) "."] at hsees
  cases hsees

/-- The text of a type is read back as the type. -/
theorem TypeGrammar.ReadFrom.readBack (hread : ReadFrom (Rules.upTo source n) c e d) (h : c.StandsIn source) (hcuts : c.Cuts d) :
    ReadBack TypeGrammar.type (spell (c.upTo d)) e.undocumented := by
  refine readBack_of_cuts (n := n) h (hread.ended (Rules.close_upTo source n) h.last).passes hcuts (fun _ _ _ _ => alike_type) ?_
  rintro o rfl rfl hcut
  exact hread.again (Rules.reread_upTo o.source o.text (Nat.le_refl n)) h.lexed hcut (Rules.close_upTo o.text n)

/-- The text of a run is read as the type that its tokens are read as on one line. -/
theorem readBack_type_alone (h : c.StandsIn source) (hd : c.Passes d)
    (hread : TypeGrammar.type (Rules.upTo source n) (c.alone d) = .ok (e, ⟨[], d.last⟩)) :
    ReadBack TypeGrammar.type (spell (c.upTo d)) e.undocumented := by
  refine readBack_of_alone (n := n) h hd (fun _ _ _ _ => alike_type) ?_
  rintro o rfl hbehind hcut
  rw [← hbehind] at hread
  exact (recalls_type (Rules.reread_upTo o.source o.text (Nat.le_refl n)) hcut.at_).stops hread

/-- The text of a method's result is read back as the result. -/
theorem readBack_returnType (hread : returnType (Rules.upTo source n) c = .ok (e, d)) (h : c.StandsIn source) (hcuts : c.Cuts d) :
    ReadBack returnType (spell (c.upTo d)) e.undocumented := by
  have hended := ended_returnType (Rules.close_upTo source n) h.forth _ _ hread
  refine readBack_of_cuts (n := n) h hended.passes hcuts (fun _ _ _ _ => alike_returnType (alike_rules _ _)) ?_
  rintro o rfl rfl hcut
  exact (recalls_returnType (Rules.reread_upTo o.source o.text (Nat.le_refl n)) hcut.at_).stops hread

theorem readBack_returnType_alone (h : c.StandsIn source) (hd : c.Passes d)
    (hread : returnType (Rules.upTo source n) (c.alone d) = .ok (e, ⟨[], d.last⟩)) :
    ReadBack returnType (spell (c.upTo d)) e.undocumented := by
  refine readBack_of_alone (n := n) h hd (fun _ _ _ _ => alike_returnType (alike_rules _ _)) ?_
  rintro o rfl hbehind hcut
  rw [← hbehind] at hread
  exact (recalls_returnType (Rules.reread_upTo o.source o.text (Nat.le_refl n)) hcut.at_).stops hread

end

end WireSchema
