import WireSchema.Proofs.Grammar.Matching
import WireSchema.Proofs.Grammar.Readback
/-!
# Methods as function types

A method is kept as a function type whose text is put together from the text of
the parameters and the text of the result. The text is read back as it is if the
parameters are, and the result.
-/

namespace WireSchema

open Source Source.Cursor Source.Parser

namespace TypeGrammar

section
variable {t u v : Token} {ts us vs : List Token} {x y c d : Cursor} {closers : List Text}

/-- What a round makes of a token only depends on how the token looks. -/
theorem balancedRound_face (hface : v.face = u.face) (hend : u.isEnd = false) (x c : Cursor) :
    balancedRound closers (c.before [v]) = (balancedRound closers (x.before [u])).map fun found => (found.1, c) := by
  simp only [balancedRound, bind_apply, next_before, ok_bind, before_nil, Token.isEnd_face hface, Token.isMark_face hface,
    Token.raw_face hface, hend, Bool.false_eq_true, if_false]
  by_cases hmark : u.isMark = true
  · simp only [hmark, if_true]
    cases closerOf? u.raw with
    | some closer => rfl
    | none =>
      cases closers with
      | nil => rfl
      | cons closer outer =>
        by_cases hraw : u.raw = closer
        · simp only [if_pos hraw]
          rfl
        · simp only [if_neg hraw]
          rfl
  · simp only [hmark]
    rfl

theorem over_balanced {n : Nat} (hlast : c.last.isEnd = true) :
    Answers (rounds balancedRound n closers) c fun _ d => Over 1 c d := by
  induction n generalizing closers c with
  | zero => exact nofun
  | succ n ih =>
    refine (over_balancedRound hlast).bind fun turn e he => ?_
    cases turn with
    | again closers' =>
      exact (ih he.last).mono fun _ _ hd =>
        ⟨he.toForth.trans hd.toForth, by have := he.length; have := hd.length; omega⟩
    | done _ => exact .pure he

/-- Tokens that look the same are passed over the same, whatever is behind them. -/
theorem rounds_faces {n m : Nat} (hlast : x.last.isEnd = true) (h : vs.map Token.face = us.map Token.face)
    (hskip : rounds balancedRound n closers (x.before us) = .ok ((), x)) (hm : us.length ≤ m) :
    rounds balancedRound m closers (y.before vs) = .ok ((), y) := by
  -- by induction on the tokens that are skipped; a round looks at faces only, so the closers agree
  induction us generalizing n m vs closers with
  | nil =>
    exact absurd (over_balanced hlast _ _ hskip).length (Nat.not_succ_le_self _)
  | cons u us ih =>
    cases vs with
    | nil => cases h
    | cons v vs =>
      obtain ⟨hface, hrest⟩ := List.cons.inj h
      cases n with
      | zero => cases hskip
      | succ n =>
        obtain ⟨m, rfl⟩ : ∃ k, m = k + 1 := ⟨m - 1, by rw [List.length_cons] at hm; omega⟩
        obtain ⟨turn, e, hround, hskip⟩ := bind_ok.1 hskip
        rw [before_cons] at hround ⊢
        have hend : u.isEnd = false := Bool.eq_false_iff.2 fun hend => by
          simp [balancedRound, hend] at hround
          cases hround
        obtain rfl : e = x.before us := by
          have hsame : balancedRound closers ((x.before us).before [u]) =
              (balancedRound closers ((x.before us).before [u])).map fun found => (found.1, x.before us) :=
            balancedRound_face rfl hend _ _
          rw [hround] at hsame
          exact congrArg Prod.snd (Except.ok.inj hsame)
        have hagain : balancedRound closers ((y.before vs).before [v]) = .ok (turn, y.before vs) := by
          rw [balancedRound_face hface hend (x.before us), hround]
          rfl
        cases turn with
        | again closers' =>
          rw [rounds_again hagain]
          exact ih hrest hskip (by rw [List.length_cons] at hm; omega)
        | done a =>
          cases us with
          | nil =>
            cases hskip
            obtain rfl := List.map_eq_nil_iff.1 hrest
            exact rounds_done hagain (Nat.succ_pos _)
          | cons u' us =>
            have hlength := congrArg (fun found => found.2.rest.length) (Except.ok.inj hskip)
            simp at hlength
            omega

theorem skipBalanced_faces (hlast : x.last.isEnd = true) (h : vs.map Token.face = us.map Token.face)
    (hskip : skipBalanced (x.before us) = .ok ((), x)) : skipBalanced (y.before vs) = .ok ((), y) :=
  rounds_faces hlast h hskip (by have := congrArg List.length h; simp at this ⊢; omega)

/-! ## Parameters -/

/-- From `c` to `d` there are the parameters of a function, with type parameters
before them or without; then the parenthesis that closes them is told by the
parentheses alone. -/
inductive Parameters (c d : Cursor) : Prop where
  | typed {b : Cursor} : c.sees "<" = true → skipBalanced c = .ok ((), b) → b.sees "(" = true → skipBalanced b = .ok ((), d) →
    Parameters c d
  | plain : c.sees "<" = false → c.sees "(" = true → skipBalanced c = .ok ((), d) →
    closerIndex "(" ")" 0 c.rest + 1 = (c.upTo d).length → Parameters c d

theorem Parameters.ended (hlast : c.last.isEnd = true) (h : Parameters c d) : c.Ended d := by
  cases h with
  | typed _ hangle _ hskip =>
    have hb := ended_skipBalanced (.refl hlast) _ _ hangle
    exact ended_skipBalanced hb.forth _ _ hskip
  | plain _ _ hskip _ => exact ended_skipBalanced (.refl hlast) _ _ hskip

theorem sees_faces (h : vs.map Token.face = us.map Token.face) (hne : us ≠ []) (w : Text) :
    (y.before vs).sees w = (x.before us).sees w := by
  cases us with
  | nil => exact absurd rfl hne
  | cons u us =>
    cases vs with
    | nil => cases h
    | cons v vs => exact Token.is_face (List.cons.inj h).1 w

/-- Tokens that look the same are parameters as well. -/
theorem Parameters.faces (hlast : x.last.isEnd = true) (h : vs.map Token.face = us.map Token.face)
    (hparams : Parameters (x.before us) x) : Parameters (y.before vs) y := by
  have hpassed {us : List Token} (hskip : skipBalanced (x.before us) = .ok ((), x)) : us ≠ [] := by
    rintro rfl
    have := (ended_skipBalanced (.refl hlast) _ _ hskip).passes.length_lt
    simp at this
  cases hparams with
  | @typed b hangle hfirst hopen hskip =>
    -- the type parameters end where the list of parameters begins, so both parts are cut off one by one
    have hfirst' := (ended_skipBalanced (Forth.refl (c := x.before us) hlast) _ _ hfirst).forth
    obtain ⟨us₂, rfl⟩ := (ended_skipBalanced hfirst'.here _ _ hskip).forth.reaches
    obtain ⟨us₁, hus₁⟩ := hfirst'.reaches
    rw [← before_append] at hus₁
    obtain rfl : us = us₁ ++ us₂ := List.append_cancel_right (congrArg Cursor.rest hus₁)
    have hlastb : (x.before us₂).last.isEnd = true := hlast
    rw [List.map_append] at h
    obtain ⟨vs₁, vs₂, rfl, hvs₁, hvs₂⟩ := List.map_eq_append_iff.1 h
    rw [before_append] at hfirst hangle ⊢
    have hne : us₁ ≠ [] := by
      rintro rfl
      have := (ended_skipBalanced (.refl hlastb) _ _ hfirst).passes.length_lt
      simp at this
    refine .typed (b := y.before vs₂) ?_ (skipBalanced_faces hlastb hvs₁ hfirst) ?_ (skipBalanced_faces hlast hvs₂ hskip)
    · rw [sees_faces hvs₁ hne, hangle]
    · rw [sees_faces hvs₂ (hpassed hskip), hopen]
  | plain hangle hopen hskip hindex =>
    refine .plain ?_ ?_ (skipBalanced_faces hlast h hskip) ?_
    · rw [sees_faces h (hpassed hskip), hangle]
    · rw [sees_faces h (hpassed hskip), hopen]
    · rw [upTo_before, rest_before] at hindex ⊢
      have hlength := congrArg List.length h
      rw [List.length_map, List.length_map] at hlength
      -- the closer stands among the tokens that are replaced, not behind them
      have hown : closerIndex "(" ")" 0 us < us.length := Nat.lt_of_not_le fun hle => by
        have : us.length ≤ closerIndex "(" ")" 0 (us ++ x.rest) := le_closerIndex_append hle
        omega
      rw [closerIndex_append hown] at hindex
      rw [closerIndex_append (by rw [closerIndex_faces h]; omega), closerIndex_faces h]
      omega

/-! ## Function types -/

section
variable {rules : Rules} {arrow : Token} {z w : Cursor} {e : TypeExpr}

theorem functionType_of_parameters (h : Parameters x (z.before [arrow])) (harrow : arrow.is "=>" = true)
    (hresult : returnType rules z = .ok (e, w)) :
    functionType rules x = .ok (.verbatim (spell (x.upTo w)) .function, w) := by
  cases h with
  | typed hangle hfirst hopen hskip => simp [functionType, hangle, hfirst, hopen, hskip, expect_before harrow, hresult]
  | plain hangle hopen hskip _ => simp [functionType, hangle, hopen, hskip, expect_before harrow, hresult]

theorem beginsFunction_of_parameters (hlast : x.last.isEnd = true) (h : Parameters x (z.before [arrow]))
    (harrow : arrow.is "=>" = true) : beginsFunction x = true := by
  obtain ⟨ts, rfl⟩ := (h.ended hlast).forth.reaches
  cases h with
  | typed hangle _ _ _ => rw [beginsFunction, hangle, Bool.true_or]
  | plain _ hopen _ hindex =>
    rw [upTo_before] at hindex
    have hbehind : ((z.before [arrow]).before ts).sees "=>" ts.length = true := by
      rw [Cursor.sees, ← Nat.add_zero ts.length, peek_before_length]
      exact harrow
    rw [beginsFunction, hopen, hindex, hbehind, Bool.and_self, Bool.or_true]

/-- Parameters, an arrow and a result up to the end of the input are read as a function type. -/
theorem type_of_parameters (hr : rules.Close) (hx : x.Lexed) (h : Parameters x (z.before [arrow])) (harrow : arrow.is "=>" = true)
    (hresult : returnType rules z = .ok (e, w)) (hlast : w.last.isEnd = true) (hrest : w.rest = []) :
    TypeGrammar.type rules x = .ok (.verbatim (spell (x.upTo w)) .function, w) := by
  have hopens : ∃ v ∈ (["<", "("] : List Text), x.sees v = true := by
    cases h with
    | typed hangle _ _ _ => exact ⟨_, by decide, hangle⟩
    | plain _ hopen _ _ => exact ⟨_, by decide, hopen⟩
  obtain ⟨v, hv, hsees⟩ := hopens
  have hname : ∀ v ∈ (["<", "("] : List Text), Text.isName v = false := by decide
  obtain ⟨t, b, hcut, hmark, _⟩ := hx.exists_mark hsees (hname v hv)
  have hpeek : x.peek = t := by rw [hcut]; rfl
  have hprimary : primary rules x = .ok (.verbatim (spell (x.upTo w)) .function, w) := by
    simp only [primary, bind_apply, peek_apply, ok_bind, hpeek, hmark.1, markType, get_apply,
      beginsFunction_of_parameters hx.last h harrow, if_true]
    exact functionType_of_parameters h harrow hresult
  have hleads : leads x = false := by
    simp only [leads, hpeek, hmark.isWord, Bool.false_and, Bool.false_or, Cursor.sees, hmark.is_eq]
    have hinfer : ∀ v ∈ (["<", "("] : List Text), (v == "infer") = false := by decide
    rw [hinfer v hv, Bool.false_and]
  refine type_of_operand hlast hrest (fun w hw => primary_not_sees hx hprimary hw) ?_
  rw [operand_of_not_leads hleads]
  exact (Bracketed.first hprimary).postfixed hr hx.last hrest

end

end

end TypeGrammar

/-! ## The text of a method -/

namespace Source

section
variable {source params result : Text} {c d : Cursor} {vs us : List Token} {last u : Token}

/-- The text of a run is read as copies of its tokens. -/
theorem Cursor.StandsIn.copies (h : c.StandsIn source) (hd : c.Passes d) :
    ∃ vs final, tokenize (spell (c.upTo d)) 0 (spell (c.upTo d)).length = .ok (vs ++ [final]) ∧ final.spaceBefore = false ∧
      vs ≠ [] ∧ vs.map Token.face = (c.upTo d).map Token.face ∧ spell vs = spell (c.upTo d) := by
  obtain ⟨at_, stop, before, hwindow, htokens⟩ := id h
  obtain ⟨u, us, rfl⟩ := hd
  simp only [upTo_before, rest_before, last_before] at htokens ⊢
  have hsplit : before ++ (u :: us ++ d.rest ++ [d.last]) = before ++ (u :: us ++ (d.rest ++ [d.last])) := by simp
  rw [hsplit] at htokens
  obtain ⟨v, vs, hcopies, hv, _, hvs⟩ := tokenize_spell_copies hwindow.ends.1 htokens fun v hv =>
    h.not_isEnd (List.mem_append_left d.rest hv)
  have hface {v u : Token} (h : v.Copies u) : v.face = u.face := by rw [Token.face, Token.face, h.kind, h.raw]
  have hfaces : vs.map Token.face = us.map Token.face := by
    rw [← List.forall₂_eq_eq_eq, List.forall₂_map_left_iff, List.forall₂_map_right_iff]
    exact hvs.imp fun _ _ h => hface h.1
  refine ⟨v :: vs, _, hcopies, rfl, List.cons_ne_nil _ _, ?_, ?_⟩
  · rw [List.map_cons, List.map_cons, hface hv, hfaces]
  · rw [spell_eq_append, spell_eq_append, hv.raw, spellBehind_copies hvs]

theorem fits_arrow (gap rest : Text) : Chunk.Fits ⟨gap, "=>", .mark⟩ rest := by
  refine ⟨CodePoint.ofChar '=', [CodePoint.ofChar '>'], rfl, fun stop at_ gap _ => ?_⟩
  have hends : EndsGap (CodePoint.ofChar '=') (CodePoint.ofChar '>' :: rest) :=
    ⟨by decide, Text.startsWith_cons (by decide) _, Text.startsWith_cons (by decide) _⟩
  have hdots : Text.startsWith (CodePoint.ofChar '=' :: CodePoint.ofChar '>' :: rest) "..." = false :=
    Text.startsWith_cons (by decide) _
  have harrow : Text.startsWith (CodePoint.ofChar '=' :: CodePoint.ofChar '>' :: rest) "=>" = true :=
    Text.startsWith_append "=>" rest
  have hdigit : (CodePoint.ofChar '=').isDigit = false := by decide
  refine readPiece_eq_token.2 ⟨hends, .mark (by decide) ?_ (by decide) ?_⟩
  · simp [beginsNumber, hdigit]
  · simp [markRest?, hdots, harrow]

/-- An arrow between two texts stands between their tokens. -/
theorem tokenize_arrow (hparams : tokenize params 0 params.length = .ok (vs ++ [last])) (hspace : last.spaceBefore = false)
    (hresult : tokenize (params ++ " => " ++ result) (params.length + 4) (params ++ " => " ++ result).length = .ok (u :: us)) :
    ∃ arrow : Token, arrow.Marks "=>" ∧ arrow.spaceBefore = true ∧
      tokenize (params ++ " => " ++ result) 0 (params ++ " => " ++ result).length = .ok (vs ++ arrow :: u.widen false :: us) := by
  generalize hstop : (params ++ " => " ++ result).length = stop at hresult ⊢
  have hlength : stop = params.length + 4 + result.length := by
    rw [← hstop, List.length_append, List.length_append]
    rfl
  have hsplit : params ++ " => " ++ result = params ++ ((" => " : Text) ++ result) := List.append_assoc _ _ _
  have hdrop : (params ++ " => " ++ result).drop (params.length + 4) = result := by
    rw [show params.length + 4 = (params ++ Text.ofString " => ").length by rw [List.length_append]; rfl, List.drop_left]
  rw [tokenize, hdrop] at hresult
  -- the space behind the arrow stands before the result
  have hgap : tokensFrom stop (params.length + 3) {} ((" " : Text) ++ result) = .ok (u.widen false :: us) := by
    rw [Chunk.tokensFrom_gap (by decide) (show params.length + 3 + (" " : Text).length ≤ stop by
      rw [hlength, show (" " : Text).length = 1 from rfl]; omega)]
    exact tokensFrom_widen false hresult
  have hread : Chunk.Readable [⟨" ", "=>", .mark⟩] ((" " : Text) ++ result) := ⟨by decide, fits_arrow _ _, trivial⟩
  have harrow := hread.tokensFrom_eq (show params.length + (Chunk.texts [⟨" ", "=>", .mark⟩]).length ≤ stop by
    rw [hlength, show (Chunk.texts [⟨" ", "=>", .mark⟩]).length = 3 from rfl]; omega)
  rw [show params.length + (Chunk.texts [⟨" ", "=>", .mark⟩]).length = params.length + 3 from rfl, hgap] at harrow
  have hparted : Parted (Text.ofString " => " ++ result) := parted_cons (by decide) _
  refine ⟨Chunk.token ⟨" ", "=>", .mark⟩ params.length, ⟨rfl, rfl⟩, rfl, ?_⟩
  have hbehind := tokenize_behind hparams hspace hparted (show params.length + 0 ≤ stop by omega) harrow
  simp only [Token.later_zero, List.map_id'] at hbehind
  rw [tokenize, List.drop_zero, hsplit]
  exact hbehind

end

end Source

/-- What an arrow stands between is spelled with a space before the arrow and one behind it. -/
theorem Source.spell_arrow {vs us : List Token} {arrow u : Token} (hne : vs ≠ []) (harrow : arrow.Marks "=>")
    (hspace : arrow.spaceBefore = true) :
    spell (vs ++ arrow :: u.widen false :: us) = spell vs ++ " => " ++ spell (u :: us) := by
  obtain ⟨v, vs, rfl⟩ := List.exists_cons_of_ne_nil hne
  simp only [List.cons_append, spell_eq_append, spellBehind, List.flatMap_append, List.flatMap_cons, hspace, if_true, harrow.2,
    Token.widen, List.append_assoc]
  rfl

/-- A result that is read back is read behind another text too, up to the end of both. -/
theorem ReadBack.behind {t : Text} {e : TypeExpr} (h : ReadBack TypeGrammar.returnType t e) (front : Text) :
    ∃ u us final n, tokenize (front ++ t) front.length (front ++ t).length = .ok (u :: (us ++ [final])) ∧ final.isEnd = true ∧
      spell (u :: us) = t ∧ TypeGrammar.returnType (Rules.upTo (front ++ t) n) ⟨u :: us, final⟩ = .ok (e, ⟨[], final⟩) := by
  obtain ⟨ts, last, n, htokens, hspelled, hread⟩ := h
  have hslice : slice (front ++ t) front.length (front ++ t).length = slice t 0 t.length := by
    rw [slice_length, slice_length, List.drop_zero, List.drop_left]
  obtain ⟨o, tokens, hsource, htext, hdocs, hrest, hmoved, hcursor, hcursor'⟩ :=
    exists_moved (.inl rfl) (Nat.zero_le _) (.inl rfl) (by simp) hslice htokens
  rw [ofTokens, List.dropLast_concat, List.getLastD_concat] at hcursor
  have hbehind : o.behind = ⟨[], last⟩ := by rw [← hrest, show last = o.behind.last from congrArg Cursor.last hcursor]
  -- the result is read at the tokens that have moved
  have hback : TypeGrammar.returnType (Rules.upTo (front ++ t) n) (o.again o.pairs) = .ok (e, o.again []) := by
    rw [hcursor, ← hbehind, ← hsource] at hread
    have hr := Rules.reread_upTo o.source o.text (Nat.le_refl n)
    have hagain := (TypeGrammar.recalls_returnType hr (Excerpt.Cut.of_suffix (List.suffix_refl o.pairs)).at_).stops hread
    rwa [hdocs, TypeExpr.redocument_id, htext] at hagain
  obtain ⟨u, us, hu⟩ := (TypeGrammar.ended_returnType (Rules.close_upTo (front ++ t) n)
    (.refl (c := o.again o.pairs) o.final_isEnd) _ _ hback).passes
  have hus : o.again o.pairs = ⟨u :: us, o.final⟩ := by simpa [Cursor.before, Excerpt.again] using hu
  obtain ⟨moved, final, rfl, _⟩ := tokenize_read (.inl rfl) hmoved
  rw [ofTokens, List.dropLast_concat, List.getLastD_concat, hus] at hcursor'
  obtain ⟨rfl, rfl⟩ := Cursor.mk.inj hcursor'
  refine ⟨u, us, o.final, n, hmoved, o.final_isEnd, ?_, hus ▸ hback⟩
  have hsame := o.spell_again
  rw [hus, hbehind, ← hcursor] at hsame
  rw [← hspelled]
  simpa [Cursor.upTo] using hsame

/-- The text of a method is read back as the function type that it is kept as. -/
theorem readBack_method {source result : Text} {c d : Cursor} {e : TypeExpr} (h : c.StandsIn source)
    (hparams : TypeGrammar.Parameters c d) (hresult : ReadBack TypeGrammar.returnType result e) :
    ReadBack TypeGrammar.type (spell (c.upTo d) ++ " => " ++ result)
      (.verbatim (spell (c.upTo d) ++ " => " ++ result) .function) := by
  obtain ⟨vs, last, hcopies, hspace, hne, hfaces, hspell⟩ := h.copies (hparams.ended h.last).passes
  obtain ⟨ts, rfl⟩ := (hparams.ended h.last).forth.reaches
  rw [upTo_before] at hcopies hfaces hspell ⊢
  generalize spell ts = params at hcopies hspell ⊢
  obtain ⟨u, us, final, n, htokens, hfinal, hspelled, hread⟩ := hresult.behind (params ++ " => ")
  rw [show (params ++ (" => " : Text)).length = params.length + 4 by rw [List.length_append]; rfl] at htokens
  obtain ⟨arrow, hmark, hgap, hwhole⟩ := tokenize_arrow hcopies hspace htokens
  have hall : spell (vs ++ arrow :: u.widen false :: us) = params ++ " => " ++ result := by
    rw [spell_arrow hne hmark hgap, hspell, hspelled]
  generalize params ++ " => " ++ result = whole at *
  rw [show vs ++ arrow :: u.widen false :: (us ++ [final]) = (vs ++ arrow :: u.widen false :: us) ++ [final] by simp] at hwhole
  -- the result is read behind the space that the arrow leaves
  have hz : TypeGrammar.returnType (Rules.upTo whole n) ⟨u.widen false :: us, final⟩ = .ok (e, ⟨[], final⟩) := by
    have halike : Alike false u ⟨us, final⟩ (TypeGrammar.returnType (Rules.upTo whole n)) :=
      TypeGrammar.alike_returnType (TypeGrammar.alike_rules whole n)
    exact halike.trans hread
  have hx : (Cursor.before ⟨u.widen false :: us, final⟩ [arrow]).before vs = ⟨vs ++ arrow :: u.widen false :: us, final⟩ := by
    simp [Cursor.before]
  have hlexed := (Cursor.standsIn_ofTokens .whole hwhole).lexed
  rw [ofTokens, List.dropLast_concat, List.getLastD_concat, ← hx] at hlexed
  have hread' := TypeGrammar.type_of_parameters (Rules.close_upTo whole n) hlexed (hparams.faces (x := d) h.last hfaces)
    (by rw [hmark.is_eq]; decide) hz hfinal rfl
  have hupTo : Cursor.upTo ⟨vs ++ arrow :: u.widen false :: us, final⟩ ⟨[], final⟩ = vs ++ arrow :: u.widen false :: us := by
    rw [Cursor.upTo, List.length_nil, Nat.sub_zero, List.take_length]
  rw [hx, hupTo, hall] at hread'
  exact ⟨_, _, n, hwhole, hall, hread'⟩

end WireSchema
